import FilterQuery.Proofs.Likeness

namespace FilterQuery

/-- Whether clauses that stand after others form a run, all of it joined by one joiner. The clause
that opens a query has none and belongs to the run of the clauses after it. -/
def IsRun (j : Joiner) : List Clause → List Clause → Prop
  | [], run => ∀ c ∈ run.tail, c.joiner = some j
  | _ :: _, run => ∀ c ∈ run, c.joiner = some j

/-- Whether the same conditions are joined in the same places, in whatever order they stand. -/
structure Rearranged (cs ds : List Clause) : Prop where
  joiners : ds.map (·.joiner) = cs.map (·.joiner)
  conditions : (cs.map (·.toCondition)).Perm (ds.map (·.toCondition))

def joinedBy (j : Joiner) (c : Condition) : Clause := ⟨c, some j⟩

theorem map_joinedBy {j : Joiner} {cs : List Clause} (h : ∀ c ∈ cs, c.joiner = some j) :
    (cs.map (·.toCondition)).map (joinedBy j) = cs := by
  rw [List.map_map]
  refine (List.map_congr_left ?_).trans (List.map_id cs)
  intro c hc
  rw [Function.comp_apply, joinedBy, ← h c hc, id]

theorem Rearranged.forall_joiner {j : Joiner} {cs ds : List Clause} (h : Rearranged cs ds)
    (hcs : ∀ c ∈ cs, c.joiner = some j) : ∀ d ∈ ds, d.joiner = some j := by
  intro d hd
  have hmem : d.joiner ∈ cs.map (·.joiner) := h.joiners ▸ List.mem_map_of_mem hd
  obtain ⟨c, hc, hcd⟩ := List.mem_map.mp hmem
  exact hcd ▸ hcs c hc

theorem Rearranged.swap (c d : Clause) :
    Rearranged [c, d] [⟨d.toCondition, c.joiner⟩, ⟨c.toCondition, d.joiner⟩] :=
  ⟨rfl, .swap d.toCondition c.toCondition []⟩

namespace Options

variable {α : Type} {o : Options} {s : Schema α} {j : Joiner}

/-- What the clauses of a run can be joined to without a change of what they say. -/
def neutral : Joiner → Predicate α
  | .and => ⟨fun _ => true⟩
  | .or => ⟨fun _ => false⟩

theorem combine_neutral (p : Predicate α) : combine j p (neutral j) = p := by
  cases j with
  | and => exact congrArg Predicate.mk (funext fun a => Bool.and_true (p.holds a))
  | or => exact congrArg Predicate.mk (funext fun a => Bool.or_false (p.holds a))

theorem combine_left_comm (p p' q : Predicate α) :
    combine j p (combine j p' q) = combine j p' (combine j p q) := by
  cases j with
  | and => exact congrArg Predicate.mk (funext fun a => Bool.and_left_comm _ _ _)
  | or => exact congrArg Predicate.mk (funext fun a => Bool.or_left_comm _ _ _)

theorem compileJoined_perm {xs ys : List Condition} {n : Nat} {q r : Predicate α}
    (hperm : xs.Perm ys) (h : o.compileJoined s n q (xs.map (joinedBy j)) = .ok r) :
    o.compileJoined s n q (ys.map (joinedBy j)) = .ok r := by
  induction hperm generalizing n q with
  | nil => exact h
  | cons x _ ih =>
    obtain ⟨_, p, hj, hp, hxs⟩ := compileJoined_cons_eq_ok_iff.mp h
    exact compileJoined_cons_eq_ok_iff.mpr ⟨_, p, hj, hp, ih hxs⟩
  | swap x y xs =>
    simp only [List.map_cons, compileJoined_cons_eq_ok_iff] at h ⊢
    obtain ⟨_, p, ⟨⟩, hp, _, p', ⟨⟩, hp', hxs⟩ := h
    rw [combine_left_comm] at hxs
    exact ⟨j, p', rfl, hp', j, p, rfl, hp, hxs⟩
  | trans _ _ ih₁ ih₂ => exact ih₂ (ih₁ h)

theorem compileJoined_rearranged {run run' after : List Clause} {n : Nat} {q r : Predicate α}
    (hrun : ∀ c ∈ run, c.joiner = some j) (hrearranged : Rearranged run run')
    (h : o.compileJoined s n q (run ++ after) = .ok r) :
    o.compileJoined s n q (run' ++ after) = .ok r := by
  obtain ⟨p, hp, hr⟩ := compileJoined_append_eq_ok_iff.mp h
  have hlength : run.length = run'.length := by
    simpa using hrearranged.conditions.length_eq
  rw [← map_joinedBy hrun] at hp
  have hp' := compileJoined_perm hrearranged.conditions hp
  rw [map_joinedBy (hrearranged.forall_joiner hrun)] at hp'
  exact compileJoined_append_eq_ok_iff.mpr ⟨p, hp', hlength ▸ hr⟩

theorem compileClauses_cons_eq_ok_iff_joined {c : Clause} {cs : List Clause} {r : Predicate α}
    (hc : c.joiner = none) :
    o.compileClauses s (c :: cs) = .ok r ↔
      o.compileJoined s 1 (neutral j) (joinedBy j c.toCondition :: cs) = .ok r := by
  simp [compileClauses_cons_eq_ok_iff, compileJoined_cons_eq_ok_iff, hc, joinedBy, combine_neutral]

theorem compileClauses_run {before run run' after : List Clause} {p : Predicate α}
    (hrun : IsRun j before run) (hrearranged : Rearranged run run')
    (h : o.compileClauses s (before ++ (run ++ after)) = .ok p) :
    o.compileClauses s (before ++ (run' ++ after)) = .ok p := by
  cases before with
  | cons b bs =>
    have hne : b :: bs ≠ [] := List.cons_ne_nil b bs
    obtain ⟨q, hq, hr⟩ := (compileClauses_append_eq_ok_iff hne).mp h
    exact (compileClauses_append_eq_ok_iff hne).mpr
      ⟨q, hq, compileJoined_rearranged hrun hrearranged hr⟩
  | nil =>
    -- The opening clause is given the joiner of the run, so that all of the run is joined alike.
    cases run with
    | nil =>
      cases List.map_eq_nil_iff.mp hrearranged.joiners
      exact h
    | cons c cs =>
      obtain ⟨d, ds, rfl, hd, hds⟩ := List.map_eq_cons_iff.mp hrearranged.joiners
      have hc : c.joiner = none := (compileClauses_cons_eq_ok_iff.mp h).1
      have hjoined : Rearranged (joinedBy j c.toCondition :: cs) (joinedBy j d.toCondition :: ds) :=
        ⟨congrArg (some j :: ·) hds, hrearranged.conditions⟩
      have hall : ∀ b ∈ joinedBy j c.toCondition :: cs, b.joiner = some j :=
        List.forall_mem_cons.mpr ⟨rfl, hrun⟩
      exact (compileClauses_cons_eq_ok_iff_joined (hd.trans hc)).mpr
        (compileJoined_rearranged hall hjoined ((compileClauses_cons_eq_ok_iff_joined hc).mp h))

theorem exists_isRun_of_neighbours {before after : List Clause} {c d : Clause} {p : Predicate α}
    (h : o.compileClauses s (before ++ c :: d :: after) = .ok p)
    (hcd : before = [] ∨ c.joiner = d.joiner) : ∃ j, IsRun j before [c, d] := by
  have hjoined : WellJoined (before ++ c :: d :: after) := (compileClauses_ok_iff.mp ⟨p, h⟩).2.1
  have hd : d.joiner ≠ none := by
    have hplace := hjoined (before.length + 1) d (by simp)
    rw [ne_eq, hplace]
    omega
  obtain ⟨j, hj⟩ := Option.ne_none_iff_exists'.mp hd
  refine ⟨j, ?_⟩
  cases before with
  | nil => simpa [IsRun] using hj
  | cons b bs =>
    have hcj := (hcd.resolve_left (List.cons_ne_nil b bs)).trans hj
    simpa [IsRun] using ⟨hcj, hj⟩

/-- Where clauses that are joined alike stand next to each other, anywhere in a query, the order
of their conditions does not change what the query selects. -/
theorem compileClauses_rearranged {cs : List Clause} {p : Predicate α}
    (h : o.compileClauses s cs = .ok p) :
    (∀ before c d after, cs = before ++ c :: d :: after → before = [] ∨ c.joiner = d.joiner →
      ∃ q, o.compileClauses s (before ++ ⟨d.toCondition, c.joiner⟩ ::
          ⟨c.toCondition, d.joiner⟩ :: after) = .ok q ∧ ∀ a, q.holds a = p.holds a) ∧
    ∀ j before run run' after, cs = before ++ (run ++ after) → IsRun j before run →
      Rearranged run run' →
      ∃ q, o.compileClauses s (before ++ (run' ++ after)) = .ok q ∧
        ∀ a, q.holds a = p.holds a := by
  apply And.intro
  · rintro before c d after rfl hcd
    obtain ⟨j, hrun⟩ := exists_isRun_of_neighbours h hcd
    exact ⟨p, compileClauses_run hrun (.swap c d) h, fun _ => rfl⟩
  · rintro j before run run' after rfl hrun hrearranged
    exact ⟨p, compileClauses_run hrun hrearranged h, fun _ => rfl⟩

end Options

/-- The first two clauses are exchanged, and the three clauses of a run in the middle change places
in a circle. -/
theorem Options.compileClauses_rearranged_noted :
    let bare : Condition := ⟨.equal, "note", .single .null⟩
    let costly : Condition := ⟨.order .greaterOrEqual, "price", .single (.text "2.50")⟩
    let free : Condition := ⟨.equal, "price", .single (.text "0")⟩
    let recent : Condition := ⟨.startsWith, "note", .single (.text "new")⟩
    let unsold : Clause := ⟨⟨.notEqual, "note", .single (.text "sold")⟩, some .and⟩
    let run : List Clause := [⟨costly, some .or⟩, ⟨free, some .or⟩, ⟨recent, some .or⟩]
    let run' : List Clause := [⟨recent, some .or⟩, ⟨costly, some .or⟩, ⟨free, some .or⟩]
    let compiled := ({} : Options).compileClauses (.ofColumns noted)
    IsRun .or [⟨bare, none⟩] run ∧ Rearranged run run' ∧
    ∃ p, compiled ([⟨bare, none⟩] ++ (run ++ [unsold])) = .ok p ∧
      (∃ q, compiled
          [⟨costly, none⟩, ⟨bare, some .or⟩, ⟨free, some .or⟩, ⟨recent, some .or⟩, unsold] = .ok q ∧
        ∀ a, q.holds a = p.holds a) ∧
      ∃ q, compiled ([⟨bare, none⟩] ++ (run' ++ [unsold])) = .ok q ∧
        ∀ a, q.holds a = p.holds a := by
  intro bare costly free recent unsold run run' compiled
  have hrun : IsRun .or [⟨bare, none⟩] run := by simp [IsRun, run]
  have hrearranged : Rearranged run run' := ⟨rfl, by decide⟩
  have h : ∃ p, compiled ([⟨bare, none⟩] ++ (run ++ [unsold])) = .ok p := ⟨_, rfl⟩
  obtain ⟨p, hp⟩ := h
  obtain ⟨hswap, hcircle⟩ := Options.compileClauses_rearranged hp
  exact ⟨hrun, hrearranged, p, hp, hswap [] _ _ _ rfl (.inl rfl),
    hcircle .or _ run run' [unsold] rfl hrun hrearranged⟩

end FilterQuery
