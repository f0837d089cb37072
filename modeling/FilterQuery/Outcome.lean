namespace FilterQuery

variable {ε α β : Type} {x : Except ε α} {b : β}

theorem bind_eq_ok_iff {f : α → Except ε β} :
    (x >>= f) = .ok b ↔ ∃ a, x = .ok a ∧ f a = .ok b := by
  cases x with
  | error e => simp [bind, Except.bind]
  | ok a => simp [bind, Except.bind]

theorem bind_eq_error_iff {f : α → Except ε β} {e : ε} :
    (x >>= f) = .error e ↔ x = .error e ∨ ∃ a, x = .ok a ∧ f a = .error e := by
  cases x with
  | error e' => simp [bind, Except.bind]
  | ok a => simp [bind, Except.bind]

theorem map_eq_ok_iff {f : α → β} : x.map f = .ok b ↔ ∃ a, x = .ok a ∧ f a = b := by
  cases x with
  | error e => simp [Except.map]
  | ok a => simp [Except.map]

theorem map_eq_error_iff {f : α → β} {e : ε} : x.map f = .error e ↔ x = .error e := by
  cases x with
  | error e' => simp [Except.map]
  | ok a => simp [Except.map]

theorem mapError_bind {δ : Type} {f : α → Except ε β} {k : ε → δ} :
    (x >>= f).mapError k = x.mapError k >>= fun a => (f a).mapError k := by
  cases x <;> rfl

theorem mapError_map {δ : Type} {f : α → β} {k : ε → δ} :
    (x.map f).mapError k = (x.mapError k).map f := by
  cases x <;> rfl

theorem mapError_eq_ok_iff {δ : Type} {k : ε → δ} {a : α} :
    x.mapError k = .ok a ↔ x = .ok a := by
  cases x with
  | error e => exact ⟨nofun, nofun⟩
  | ok b =>
    change Except.ok b = Except.ok a ↔ Except.ok b = Except.ok a
    rw [Except.ok.injEq, Except.ok.injEq]

theorem mapError_eq_error_iff {δ : Type} {k : ε → δ} {d : δ} :
    x.mapError k = .error d ↔ ∃ e, x = .error e ∧ k e = d := by
  cases x with
  | error e =>
    apply Iff.intro
    · intro h
      exact ⟨e, rfl, Except.error.inj h⟩
    · intro h
      obtain ⟨e', he, hd⟩ := h
      cases he
      exact congrArg Except.error hd
  | ok a => exact ⟨nofun, nofun⟩

end FilterQuery
