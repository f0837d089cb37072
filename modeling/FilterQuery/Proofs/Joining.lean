import FilterQuery.Filter.Compile

namespace FilterQuery

theorem forall_getElem?_cons {β : Type} {P : Nat → β → Prop} {b : β} {bs : List β} :
    (∀ k d, (b :: bs)[k]? = some d → P k d) ↔
      P 0 b ∧ ∀ k d, bs[k]? = some d → P (k + 1) d := by
  apply Iff.intro
  · intro h
    exact ⟨h 0 b rfl, fun k d hd => h (k + 1) d hd⟩
  · intro h k d hd
    obtain ⟨h₀, hs⟩ := h
    cases k with
    | zero => cases hd; exact h₀
    | succ k => exact hs k d hd

theorem exists_getElem?_cons {β : Type} {P : Nat → β → Prop} {b : β} {bs : List β} :
    (∃ k d, (b :: bs)[k]? = some d ∧ P k d) ↔
      P 0 b ∨ ∃ k d, bs[k]? = some d ∧ P (k + 1) d := by
  apply Iff.intro
  · intro h
    obtain ⟨k, d, hd, h⟩ := h
    cases k with
    | zero => cases hd; exact .inl h
    | succ k => exact .inr ⟨k, d, hd, h⟩
  · intro h
    rcases h with h | ⟨k, d, hd, h⟩
    · exact ⟨0, b, rfl, h⟩
    · exact ⟨k + 1, d, hd, h⟩

def Clause.alone (c : Clause) : Clause := ⟨c.toCondition, none⟩

/-- Whether the first clause has no joiner and every later one has one. -/
def WellJoined (cs : List Clause) : Prop :=
  ∀ i c, cs[i]? = some c → (c.joiner = none ↔ i = 0)

namespace Options

variable {α : Type} {o : Options} {s : Schema α}

def Passes (o : Options) (s : Schema α) (c : Clause) (a : α) : Prop :=
  ∃ p, o.compileClauses s [c.alone] = .ok p ∧ p.holds a = true

/-- Whether a record passes some clause that opens the query or is joined by `or`, and with it
every later clause that is joined by `and`. -/
def Selects (o : Options) (s : Schema α) (cs : List Clause) (a : α) : Prop :=
  ∃ i c, cs[i]? = some c ∧ (i = 0 ∨ c.joiner = some .or) ∧ o.Passes s c a ∧
    ∀ k d, cs[k]? = some d → i < k → d.joiner = some .and → o.Passes s d a

/-- What is wrong with a clause at an index of a query. Only of the first clause is the joiner
looked at before the rest. -/
def fault? (o : Options) (s : Schema α) (i : Nat) (c : Clause) : Option QueryError :=
  match i, c.joiner, o.compileClauses s [c.alone] with
  | 0, some j, _ => some (.malformed ⟨.joinedFirst j, 0, c.render⟩)
  | _, _, .error e => some e
  | i + 1, none, .ok _ => some (.malformed ⟨.unjoined (i + 2), 0, c.render⟩)
  | _, _, .ok _ => none

/-- Whether the first clause with a fault has this one; indices count from `n`. -/
def FirstFault (o : Options) (s : Schema α) (n : Nat) (cs : List Clause) (e : QueryError) : Prop :=
  ∃ i c, cs[i]? = some c ∧ o.fault? s (n + i) c = some e ∧
    ∀ k d, cs[k]? = some d → k < i → o.fault? s (n + k) d = none

theorem compileClauses_alone (c : Clause) :
    o.compileClauses s [c.alone] = o.compileCondition s c.toCondition := by
  simp only [compileClauses, Clause.alone, compileJoined]
  cases o.compileCondition s c.toCondition <;> rfl

theorem passes_iff {c : Clause} {p : Predicate α} {a : α}
    (h : o.compileCondition s c.toCondition = .ok p) : o.Passes s c a ↔ p.holds a = true := by
  simp only [Passes, compileClauses_alone, h, Except.ok.injEq, exists_eq_left']

theorem fault?_eq_none_iff {i : Nat} {c : Clause} :
    o.fault? s i c = none ↔
      (c.joiner = none ↔ i = 0) ∧ ∃ p, o.compileClauses s [c.alone] = .ok p := by
  unfold fault?
  cases i <;> cases c.joiner <;> cases o.compileClauses s [c.alone] <;> simp

theorem firstFault_nil {n : Nat} {e : QueryError} : ¬ o.FirstFault s n [] e := by
  intro h
  obtain ⟨i, c, hc, _⟩ := h
  simp at hc

theorem firstFault_cons {n : Nat} {c : Clause} {cs : List Clause} {e : QueryError} :
    o.FirstFault s n (c :: cs) e ↔
      o.fault? s n c = some e ∨ o.fault? s n c = none ∧ o.FirstFault s (n + 1) cs e := by
  have shift (k : Nat) : n + (k + 1) = n + 1 + k := by omega
  apply Iff.intro
  · intro h
    obtain ⟨i, d, hd, he, hn⟩ := h
    cases i with
    | zero => cases hd; exact .inl he
    | succ i =>
      rw [forall_getElem?_cons] at hn
      refine .inr ⟨hn.1 (by omega), i, d, hd, shift i ▸ he, ?_⟩
      intro k d hd hk
      exact shift k ▸ hn.2 k d hd (by omega)
  · intro h
    rcases h with he | ⟨h₀, i, d, hd, he, hn⟩
    · exact ⟨0, c, rfl, he, by simp⟩
    · refine ⟨i + 1, d, hd, (shift i).symm ▸ he, forall_getElem?_cons.mpr ⟨fun _ => h₀, ?_⟩⟩
      intro k d hd hk
      exact (shift k).symm ▸ hn k d hd (by omega)

def combine : Joiner → Predicate α → Predicate α → Predicate α
  | .and => .and
  | .or => .or

theorem compileJoined_cons_eq_ok_iff {n : Nat} {q r : Predicate α} {c : Clause}
    {cs : List Clause} :
    o.compileJoined s n q (c :: cs) = .ok r ↔
      ∃ j p, c.joiner = some j ∧ o.compileCondition s c.toCondition = .ok p ∧
        o.compileJoined s (n + 1) (combine j p q) cs = .ok r := by
  rw [compileJoined, bind_eq_ok_iff]
  cases c.joiner with
  | none => simp [misjoined]
  | some j => cases j <;> simp [combine]

theorem compileJoined_append_eq_ok_iff {n : Nat} {q r : Predicate α} {cs ds : List Clause} :
    o.compileJoined s n q (cs ++ ds) = .ok r ↔
      ∃ p, o.compileJoined s n q cs = .ok p ∧ o.compileJoined s (n + cs.length) p ds = .ok r := by
  induction cs generalizing n q with
  | nil => simp [compileJoined]
  | cons c cs ih =>
    have hlength : n + 1 + cs.length = n + (c :: cs).length := by
      rw [List.length_cons]
      omega
    simp only [List.cons_append, compileJoined_cons_eq_ok_iff, ih, hlength]
    apply Iff.intro
    · intro h
      obtain ⟨j, p, hj, hp, p', hcs, hds⟩ := h
      exact ⟨p', ⟨j, p, hj, hp, hcs⟩, hds⟩
    · intro h
      obtain ⟨p', ⟨j, p, hj, hp, hcs⟩, hds⟩ := h
      exact ⟨j, p, hj, hp, p', hcs, hds⟩

theorem compileClauses_cons_eq_ok_iff {r : Predicate α} {c : Clause} {cs : List Clause} :
    o.compileClauses s (c :: cs) = .ok r ↔
      c.joiner = none ∧ ∃ p, o.compileCondition s c.toCondition = .ok p ∧
        o.compileJoined s 2 p cs = .ok r := by
  rw [compileClauses]
  cases c.joiner with
  | none => simp [bind_eq_ok_iff]
  | some j => simp [misjoined]

theorem compileClauses_append_eq_ok_iff {r : Predicate α} {cs ds : List Clause} (hcs : cs ≠ []) :
    o.compileClauses s (cs ++ ds) = .ok r ↔
      ∃ p, o.compileClauses s cs = .ok p ∧ o.compileJoined s (cs.length + 1) p ds = .ok r := by
  obtain ⟨c, cs, rfl⟩ := List.exists_cons_of_ne_nil hcs
  have hlength : 2 + cs.length = (c :: cs).length + 1 := by
    rw [List.length_cons]
    omega
  simp only [List.cons_append, compileClauses_cons_eq_ok_iff, compileJoined_append_eq_ok_iff,
    hlength]
  apply Iff.intro
  · intro h
    obtain ⟨hc, p, hp, p', hcs, hds⟩ := h
    exact ⟨p', ⟨hc, p, hp, hcs⟩, hds⟩
  · intro h
    obtain ⟨p', ⟨hc, p, hp, hcs⟩, hds⟩ := h
    exact ⟨hc, p, hp, p', hcs, hds⟩

theorem compileJoined_fault {n : Nat} {q : Predicate α} {c : Clause} {cs : List Clause}
    {e : QueryError} (h : o.fault? s (n + 1) c = some e) :
    o.compileJoined s (n + 2) q (c :: cs) = .error e := by
  simp only [fault?, compileClauses_alone] at h
  rw [compileJoined]
  cases hp : o.compileCondition s c.toCondition with
  | error e' =>
    simp only [hp, Option.some.injEq] at h
    exact congrArg Except.error h
  | ok p =>
    cases hj : c.joiner with
    | some j => simp [hp, hj] at h
    | none =>
      simp only [hp, hj, Option.some.injEq] at h
      exact congrArg Except.error h

theorem compileJoined_step {n : Nat} {c : Clause} (h : o.fault? s (n + 1) c = none) :
    ∃ j p, ∀ q cs, o.compileJoined s (n + 2) q (c :: cs) =
      o.compileJoined s (n + 3) (combine j p q) cs := by
  obtain ⟨hj, p, hp⟩ := fault?_eq_none_iff.mp h
  rw [compileClauses_alone] at hp
  cases hc : c.joiner with
  | none => simp [hc] at hj
  | some j =>
    refine ⟨j, p, ?_⟩
    intro q cs
    rw [compileJoined, hp, hc]
    cases j <;> rfl

theorem compileJoined_eq_error_iff {n : Nat} {q : Predicate α} {cs : List Clause}
    {e : QueryError} :
    o.compileJoined s (n + 2) q cs = .error e ↔ o.FirstFault s (n + 1) cs e := by
  induction cs generalizing n q with
  | nil => simp [compileJoined, firstFault_nil]
  | cons c cs ih =>
    rw [firstFault_cons]
    cases h : o.fault? s (n + 1) c with
    | some e' => simp [compileJoined_fault h]
    | none =>
      obtain ⟨j, p, hstep⟩ := compileJoined_step h
      simp [hstep, ih]

/-- What a record must satisfy once the clauses before these are known to say `q` of it. -/
def SelectsAfter (o : Options) (s : Schema α) (q : Prop) (cs : List Clause) (a : α) : Prop :=
  (q ∧ ∀ (k : Nat) d, cs[k]? = some d → d.joiner = some .and → o.Passes s d a) ∨
    ∃ (i : Nat) (c : Clause), cs[i]? = some c ∧ c.joiner = some .or ∧ o.Passes s c a ∧
      ∀ k d, cs[k]? = some d → i < k → d.joiner = some .and → o.Passes s d a

theorem selects_cons {c : Clause} {cs : List Clause} {a : α} :
    o.Selects s (c :: cs) a ↔ o.SelectsAfter s (o.Passes s c a) cs a := by
  unfold Selects SelectsAfter
  rw [exists_getElem?_cons]
  simp only [forall_getElem?_cons]
  simp

theorem selectsAfter_cons_and {c : Clause} {cs : List Clause} {a : α} {q : Prop}
    (hc : c.joiner = some .and) :
    o.SelectsAfter s q (c :: cs) a ↔ o.SelectsAfter s (o.Passes s c a ∧ q) cs a := by
  unfold SelectsAfter
  rw [exists_getElem?_cons]
  simp only [forall_getElem?_cons]
  simp [hc, and_assoc, and_comm, and_left_comm]

theorem selectsAfter_cons_or {c : Clause} {cs : List Clause} {a : α} {q : Prop}
    (hc : c.joiner = some .or) :
    o.SelectsAfter s q (c :: cs) a ↔ o.SelectsAfter s (o.Passes s c a ∨ q) cs a := by
  unfold SelectsAfter
  rw [exists_getElem?_cons]
  simp only [forall_getElem?_cons]
  simp [hc]
  grind

theorem holds_compileJoined {n : Nat} {q r : Predicate α} {cs : List Clause} {a : α}
    (h : o.compileJoined s n q cs = .ok r) :
    r.holds a = true ↔ o.SelectsAfter s (q.holds a = true) cs a := by
  induction cs generalizing n q with
  | nil =>
    cases h
    simp [SelectsAfter]
  | cons c cs ih =>
    obtain ⟨j, p, hj, hp, h⟩ := compileJoined_cons_eq_ok_iff.mp h
    rw [ih h]
    cases j with
    | and => rw [selectsAfter_cons_and hj, passes_iff hp]; simp [combine, Predicate.and]
    | or => rw [selectsAfter_cons_or hj, passes_iff hp]; simp [combine, Predicate.or]

theorem compileClauses_fault {c : Clause} {cs : List Clause} {e : QueryError}
    (h : o.fault? s 0 c = some e) : o.compileClauses s (c :: cs) = .error e := by
  simp only [fault?, compileClauses_alone] at h
  rw [compileClauses]
  cases hc : c.joiner with
  | some j =>
    simp only [hc, Option.some.injEq] at h
    exact congrArg Except.error h
  | none =>
    cases hp : o.compileCondition s c.toCondition with
    | ok p => simp [hc, hp] at h
    | error e' =>
      simp only [hc, hp, Option.some.injEq] at h
      exact congrArg Except.error h

theorem compileClauses_step {c : Clause} (h : o.fault? s 0 c = none) :
    ∃ p, ∀ cs, o.compileClauses s (c :: cs) = o.compileJoined s 2 p cs := by
  obtain ⟨hj, p, hp⟩ := fault?_eq_none_iff.mp h
  rw [compileClauses_alone] at hp
  refine ⟨p, ?_⟩
  intro cs
  rw [compileClauses, hj.mpr rfl, hp]
  rfl

theorem compileClauses_eq_error_iff {cs : List Clause} {e : QueryError} :
    o.compileClauses s cs = .error e ↔ cs = [] ∧ e = .emptyQuery ∨ o.FirstFault s 0 cs e := by
  cases cs with
  | nil => simp [compileClauses, firstFault_nil, eq_comm]
  | cons c cs =>
    rw [firstFault_cons]
    cases h : o.fault? s 0 c with
    | some e' => simp [compileClauses_fault h]
    | none =>
      obtain ⟨p, hstep⟩ := compileClauses_step h
      simp [hstep, compileJoined_eq_error_iff]

theorem no_firstFault_iff {n : Nat} {cs : List Clause} :
    (∀ e, ¬ o.FirstFault s n cs e) ↔ ∀ i c, cs[i]? = some c → o.fault? s (n + i) c = none := by
  induction cs generalizing n with
  | nil => simp [firstFault_nil]
  | cons c cs ih =>
    rw [forall_getElem?_cons]
    simp only [firstFault_cons, Nat.add_zero]
    cases h : o.fault? s n c with
    | some e => simp
    | none => simp [ih, Nat.add_assoc, Nat.add_comm 1]

/-- A list of clauses compiles if it is well joined and each clause compiles alone. -/
theorem compileClauses_ok_iff {cs : List Clause} :
    (∃ p, o.compileClauses s cs = .ok p) ↔
      cs ≠ [] ∧ WellJoined cs ∧ ∀ c ∈ cs, ∃ p, o.compileClauses s [c.alone] = .ok p := by
  have hok : (∃ p, o.compileClauses s cs = .ok p) ↔ ∀ e, o.compileClauses s cs ≠ .error e := by
    cases o.compileClauses s cs <;> simp
  have hfault : (∀ e, ¬ o.FirstFault s 0 cs e) ↔
      WellJoined cs ∧ ∀ c ∈ cs, ∃ p, o.compileClauses s [c.alone] = .ok p := by
    rw [no_firstFault_iff]
    simp only [Nat.zero_add, fault?_eq_none_iff]
    apply Iff.intro
    · intro h
      refine ⟨fun i c hc => (h i c hc).1, ?_⟩
      intro c hc
      obtain ⟨i, hi⟩ := List.mem_iff_getElem?.mp hc
      exact (h i c hi).2
    · intro h i c hi
      obtain ⟨hj, hc⟩ := h
      exact ⟨hj i c hi, hc c (List.mem_of_getElem? hi)⟩
  rw [hok, ← hfault]
  simp only [ne_eq, compileClauses_eq_error_iff, not_or, not_and]
  apply Iff.intro
  · intro h
    exact ⟨fun hc => (h .emptyQuery).1 hc rfl, fun e => (h e).2⟩
  · intro h e
    obtain ⟨hne, h⟩ := h
    exact ⟨fun hc => absurd hc hne, h e⟩

theorem holds_compileClauses {cs : List Clause} {p : Predicate α} {a : α}
    (h : o.compileClauses s cs = .ok p) : p.holds a = true ↔ o.Selects s cs a := by
  cases cs with
  | nil => simp [compileClauses] at h
  | cons c cs =>
    obtain ⟨_, q, hq, h⟩ := compileClauses_cons_eq_ok_iff.mp h
    rw [selects_cons, passes_iff hq]
    exact holds_compileJoined h

/-- A list of clauses compiles if it is well joined and each clause compiles alone, and then it
selects by closed rule what the fold selects step by step; else the first faulty clause is
reported, whatever comes after it. -/
theorem compileClauses_meaning (o : Options) (s : Schema α) (cs : List Clause) :
    ((∃ p, o.compileClauses s cs = .ok p) ↔
      cs ≠ [] ∧ WellJoined cs ∧ ∀ c ∈ cs, ∃ p, o.compileClauses s [c.alone] = .ok p) ∧
    (∀ p, o.compileClauses s cs = .ok p → ∀ a, p.holds a = true ↔ o.Selects s cs a) ∧
    ∀ e, o.compileClauses s cs = .error e ↔
      cs = [] ∧ e = .emptyQuery ∨ o.FirstFault s 0 cs e :=
  ⟨compileClauses_ok_iff, fun _ h _ => holds_compileClauses h,
    fun _ => compileClauses_eq_error_iff⟩

end Options

end FilterQuery
