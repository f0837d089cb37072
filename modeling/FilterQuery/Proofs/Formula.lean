import FilterQuery.Proofs.Selection

namespace FilterQuery

/-- An expression over letters that stand for predicates. -/
inductive Formula (ι : Type) where
  | leaf (i : ι)
  | and (e f : Formula ι)
  | or (e f : Formula ι)
  | negate (e : Formula ι)

namespace Formula

variable {ι α : Type}

def value (v : ι → Bool) : Formula ι → Bool
  | leaf i => v i
  | and e f => e.value v && f.value v
  | or e f => e.value v || f.value v
  | negate e => !e.value v

def predicate (leaf : ι → Predicate α) : Formula ι → Predicate α
  | .leaf i => leaf i
  | and e f => (e.predicate leaf).and (f.predicate leaf)
  | or e f => (e.predicate leaf).or (f.predicate leaf)
  | negate e => (e.predicate leaf).negate

/-- Whether an expression is true of a record, by what its letters say of it. -/
def Holds (leaf : ι → Predicate α) (e : Formula ι) (a : α) : Prop :=
  (e.value fun i => (leaf i).holds a) = true

/-- The laws of Boolean algebra that turn one expression into another. -/
inductive Law : Formula ι → Formula ι → Prop
  | negate_negate (e : Formula ι) : Law (negate (negate e)) e
  | negate_and (e f : Formula ι) : Law (negate (and e f)) (or (negate e) (negate f))
  | negate_or (e f : Formula ι) : Law (negate (or e f)) (and (negate e) (negate f))
  | and_comm (e f : Formula ι) : Law (and e f) (and f e)
  | or_comm (e f : Formula ι) : Law (or e f) (or f e)
  | and_assoc (e f g : Formula ι) : Law (and (and e f) g) (and e (and f g))
  | or_assoc (e f g : Formula ι) : Law (or (or e f) g) (or e (or f g))

theorem Law.value_eq {e f : Formula ι} (h : Law e f) (v : ι → Bool) : e.value v = f.value v := by
  cases h with
  | negate_negate => exact Bool.not_not (f.value v)
  | negate_and e f => exact Bool.not_and (e.value v) (f.value v)
  | negate_or e f => exact Bool.not_or (e.value v) (f.value v)
  | and_comm e f => exact Bool.and_comm (e.value v) (f.value v)
  | or_comm e f => exact Bool.or_comm (e.value v) (f.value v)
  | and_assoc e f g => exact Bool.and_assoc (e.value v) (f.value v) (g.value v)
  | or_assoc e f g => exact Bool.or_assoc (e.value v) (f.value v) (g.value v)

variable (leaf : ι → Predicate α)

theorem holds_predicate (e : Formula ι) (a : α) :
    (e.predicate leaf).holds a = e.value fun i => (leaf i).holds a := by
  induction e with
  | leaf i => rfl
  | and e f ihe ihf => exact congrArg₂ (· && ·) ihe ihf
  | or e f ihe ihf => exact congrArg₂ (· || ·) ihe ihf
  | negate e ih => exact congrArg (!·) ih

theorem predicate_congr {e f : Formula ι} (h : ∀ v, e.value v = f.value v) :
    e.predicate leaf = f.predicate leaf := by
  have hholds : (e.predicate leaf).holds = (f.predicate leaf).holds := by
    funext a
    rw [holds_predicate, holds_predicate, h]
  exact congrArg Predicate.mk hholds

theorem holds_predicate_iff (e : Formula ι) (a : α) :
    (e.predicate leaf).holds a = true ↔ e.Holds leaf a := by
  rw [holds_predicate, Holds]

theorem picks_retainAll_predicates (es : List (Formula ι)) (as : List α) :
    Picks (fun a => ∀ e ∈ es, e.Holds leaf a) as (retainAll (es.map (·.predicate leaf)) as) := by
  apply (picks_retainAll _ as).congr
  intro a
  simp only [List.forall_mem_map, holds_predicate_iff]

/-- A predicate holds as its expression says, so that the laws of Boolean algebra are laws of
predicates, and all ways to ask it about records agree. Predicates that drop records in place, one
after the other and in any order, leave those that all of them hold of; and so do the steps of a
session, whatever else comes between. -/
theorem predicate_algebra :
    (∀ (e : Formula ι) a, (e.predicate leaf).holds a = e.value fun i => (leaf i).holds a) ∧
    (∀ e f : Formula ι, (∀ v, e.value v = f.value v) → e.predicate leaf = f.predicate leaf) ∧
    (∀ e f : Formula ι, Law e f → e.predicate leaf = f.predicate leaf) ∧
    (∀ (e : Formula ι) as, (e.predicate leaf).Answers (e.Holds leaf) as) ∧
    (∀ (es : List (Formula ι)) as,
      Picks (fun a => ∀ e ∈ es, e.Holds leaf a) as (retainAll (es.map (·.predicate leaf)) as)) ∧
    (∀ (es fs : List (Formula ι)) as, es.Perm fs →
      retainAll (es.map (·.predicate leaf)) as = retainAll (fs.map (·.predicate leaf)) as) ∧
    ∀ (s : Session α) (ts : List (Step α)), (∀ row, .insert row ∉ ts) →
      Picks (fun r => ∀ p ∈ s.retained ts, p.holds r = true) s.entries (s.run ts).entries := by
  refine ⟨holds_predicate leaf, fun _ _ => predicate_congr leaf, ?_, ?_,
    picks_retainAll_predicates leaf, ?_, ?_⟩
  · intro e f h
    exact predicate_congr leaf h.value_eq
  · intro e as
    exact Predicate.answers (e.holds_predicate_iff leaf) as
  · intro es fs as h
    exact retainAll_perm (h.map _) as
  · intro s ts hts
    rw [Session.entries_run hts]
    exact picks_retainAll _ _

/-- Numbers that are even or small: one law, two orders of dropping, and a session that drops rows
by the remainder of their number twice. -/
theorem predicate_algebra_numbers :
    let leaf : Bool → Predicate Nat := fun b => ⟨fun n => if b then n % 2 == 0 else n ≤ 5⟩
    let e : Formula Bool := .negate (.and (.leaf true) (.leaf false))
    let f : Formula Bool := .or (.negate (.leaf true)) (.negate (.leaf false))
    let s : Session Nat := .start ⟨fun _ => none, []⟩ [10, 11, 12, 13, 14, 15, 16]
    let ts : List (Step Nat) := [.modulo 2 0, .retain, .count, .modulo 3 0, .negate, .retain]
    Law e f ∧ e.predicate leaf = f.predicate leaf ∧
      retainAll ([e, .leaf true].map (·.predicate leaf)) [1, 2, 6, 8, 2, 6] = [6, 8, 6] ∧
      retainAll ([.leaf true, e].map (·.predicate leaf)) [1, 2, 6, 8, 2, 6] = [6, 8, 6] ∧
      (∀ row, .insert row ∉ ts) ∧ (s.run ts).ids = [2, 4] ∧
      Picks (fun r => ∀ p ∈ s.retained ts, p.holds r = true) s.entries (s.run ts).entries := by
  intro leaf e f s ts
  obtain ⟨_, _, hlaw, _, _, hperm, hsession⟩ := predicate_algebra leaf
  have hfirst : retainAll ([e, .leaf true].map (·.predicate leaf)) [1, 2, 6, 8, 2, 6] =
      [6, 8, 6] := by decide
  have hts : ∀ row, .insert row ∉ ts := by simp [ts]
  refine ⟨.negate_and _ _, hlaw e f (.negate_and _ _), hfirst, ?_, hts, by decide,
    hsession s ts hts⟩
  rw [hperm [.leaf true, e] [e, .leaf true] _ (List.Perm.swap _ _ _)]
  exact hfirst

end Formula

end FilterQuery
