import FilterQuery.Filter.Session
import Mathlib.Data.List.Sort
import Mathlib.Data.Option.Basic
import Mathlib.Order.Bounds.Defs

namespace FilterQuery

variable {α : Type}

def PassesAt (P : α → Prop) (as : List α) (i : Nat) : Prop :=
  ∃ a ∈ as[i]?, P a

/-- Whether the second list has what the first has at the places that pass, in their order. -/
def Picks (P : α → Prop) (as bs : List α) : Prop :=
  ∃ places : List Nat, places.Pairwise (· < ·) ∧ (∀ i, i ∈ places ↔ PassesAt P as i) ∧
    bs.map some = places.map (as[·]?)

namespace Picks

variable {P Q : α → Prop} {as bs cs : List α}

theorem unique (h : Picks P as bs) (h' : Picks P as cs) : bs = cs := by
  obtain ⟨places, hsorted, hmem, hbs⟩ := h
  obtain ⟨places', hsorted', hmem', hcs⟩ := h'
  have hplaces : places = places' :=
    hsorted.eq_of_mem_iff hsorted' fun i => (hmem i).trans (hmem' i).symm
  rw [hplaces, ← hcs] at hbs
  exact List.map_injective_iff.mpr (Option.some_injective α) hbs

theorem congr (hPQ : ∀ a, P a ↔ Q a) (h : Picks P as bs) : Picks Q as bs := by
  rwa [← funext fun a => propext (hPQ a)]

theorem filter (f : α → Bool) (as : List α) : Picks (f · = true) as (as.filter f) := by
  refine ⟨as.findIdxs f, List.pairwise_findIdxs, ?_, ?_⟩
  · intro i
    simp [PassesAt, List.getElem?_eq_some_iff]
  · apply List.ext_getElem
    · simp [List.countP_eq_length_filter]
    · intro i hi hi'
      simp [List.getElem_filter_eq_getElem_getElem_findIdxs]

end Picks

theorem passesAt_iff {P : α → Prop} {as : List α} {i : Nat} :
    PassesAt P as i ↔ ∃ h : i < as.length, P as[i] := by
  simp [PassesAt, List.getElem?_eq_some_iff]

namespace Predicate

/-- What each way to ask a predicate about records finds: those that pass, how many there are,
whether there are any or no others, the first place of one and the record there. -/
structure Answers (p : Predicate α) (P : α → Prop) (as : List α) : Prop where
  filter : Picks P as (p.filter as)
  count : p.count as = (p.filter as).length
  any : p.any as = true ↔ p.filter as ≠ []
  all : p.all as = true ↔ (p.filter as).length = as.length
  position : ∀ i, p.position? as = some i ↔ IsLeast {i | PassesAt P as i} i
  no_position : p.position? as = none ↔ ∀ i, ¬ PassesAt P as i
  find : p.find? as = (p.position? as).bind (as[·]?)

variable {p : Predicate α} {P : α → Prop}

theorem position?_eq_some_iff {as : List α} {i : Nat} :
    p.position? as = some i ↔ IsLeast {i | PassesAt (p.holds · = true) as i} i := by
  rw [position?, List.findIdx?_eq_some_iff_getElem]
  apply Iff.intro
  · intro h
    obtain ⟨hi, hpass, hbefore⟩ := h
    refine ⟨passesAt_iff.mpr ⟨hi, hpass⟩, ?_⟩
    intro j hj
    obtain ⟨_, hpassj⟩ := passesAt_iff.mp hj
    by_contra hlt
    exact hbefore j (Nat.lt_of_not_le hlt) hpassj
  · intro h
    obtain ⟨hmem, hleast⟩ := h
    obtain ⟨hi, hpass⟩ := passesAt_iff.mp hmem
    refine ⟨hi, hpass, ?_⟩
    intro j hji hpassj
    have hle := hleast (passesAt_iff.mpr ⟨hji.trans hi, hpassj⟩)
    omega

theorem position?_eq_none_iff {as : List α} :
    p.position? as = none ↔ ∀ i, ¬ PassesAt (p.holds · = true) as i := by
  simp [position?, passesAt_iff, List.forall_mem_iff_getElem]

theorem answers (hP : ∀ a, p.holds a = true ↔ P a) (as : List α) : p.Answers P as := by
  obtain rfl : (p.holds · = true) = P := funext fun a => propext (hP a)
  exact {
    filter := .filter p.holds as
    count := List.countP_eq_length_filter
    any := by simp [any, filter]
    all := by simp [all, filter, List.length_filter_eq_length_iff]
    position := fun i => position?_eq_some_iff
    no_position := position?_eq_none_iff
    find := List.find?_eq_bind_findIdx?_getElem? }

end Predicate

/-! ## Dropping records in place -/

def retainAll (ps : List (Predicate α)) (as : List α) : List α :=
  ps.foldl (fun as p => p.filter as) as

theorem retainAll_append (ps qs : List (Predicate α)) (as : List α) :
    retainAll (ps ++ qs) as = retainAll qs (retainAll ps as) := by
  rw [retainAll, List.foldl_append, retainAll, retainAll]

theorem retainAll_eq_filter (ps : List (Predicate α)) (as : List α) :
    retainAll ps as = as.filter fun a => ps.all (·.holds a) := by
  induction ps generalizing as with
  | nil => simp [retainAll]
  | cons p ps ih =>
    have hfirst : retainAll (p :: ps) as = retainAll ps (p.filter as) := rfl
    rw [hfirst, ih, Predicate.filter, List.filter_filter]
    simp [Bool.and_comm]

theorem picks_retainAll (ps : List (Predicate α)) (as : List α) :
    Picks (fun a => ∀ p ∈ ps, p.holds a = true) as (retainAll ps as) := by
  rw [retainAll_eq_filter]
  exact (Picks.filter _ as).congr fun a => List.all_eq_true

theorem retainAll_perm {ps qs : List (Predicate α)} (h : ps.Perm qs) (as : List α) :
    retainAll ps as = retainAll qs as := by
  have hsame (a : α) : (∀ p ∈ qs, p.holds a = true) ↔ ∀ p ∈ ps, p.holds a = true := by
    simp only [h.mem_iff]
  exact (picks_retainAll ps as).unique ((picks_retainAll qs as).congr hsame)

namespace Session

def retains? (s : Session α) : Step α → Option (Predicate (Entry α))
  | .retain => s.stack.head?
  | _ => none

/-- The session after a sequence of steps. -/
def run (s : Session α) : List (Step α) → Session α
  | [] => s
  | t :: ts => (s.step t).2.run ts

def retained (s : Session α) : List (Step α) → List (Predicate (Entry α))
  | [] => []
  | t :: ts => (s.retains? t).toList ++ (s.step t).2.retained ts

variable {s : Session α}

@[simp] theorem entries_push (r : Except QueryError (Predicate (Entry α))) :
    (s.push r).2.entries = s.entries := by
  cases r <;> rfl

@[simp] theorem entries_ask (f : Predicate (Entry α) → Reply) :
    (s.ask f).2.entries = s.entries := by
  unfold ask
  split <;> rfl

@[simp] theorem entries_join
    (f : Predicate (Entry α) → Predicate (Entry α) → Predicate (Entry α)) :
    (s.join f).2.entries = s.entries := by
  unfold join
  split <;> rfl

/-- Only an insertion brings rows, and only a retention drops any. -/
theorem entries_step {t : Step α} (ht : ∀ row, t ≠ .insert row) :
    (s.step t).2.entries = retainAll (s.retains? t).toList s.entries := by
  cases t with
  | insert row => exact absurd rfl (ht row)
  | clauses cs => cases cs <;> simp [step, retains?, retainAll]
  | negate | drop | retain => cases hs : s.stack <;> simp [step, retains?, retainAll, hs]
  | _ => simp [step, retains?, retainAll]

theorem entries_run {ts : List (Step α)} (hts : ∀ row, .insert row ∉ ts) :
    (s.run ts).entries = retainAll (s.retained ts) s.entries := by
  induction ts generalizing s with
  | nil => rfl
  | cons t ts ih =>
    have ht : ∀ row, t ≠ .insert row := by
      rintro row rfl
      exact hts row List.mem_cons_self
    have hrest : ∀ row, .insert row ∉ ts := fun row hrow => hts row (List.mem_cons_of_mem t hrow)
    rw [run, retained, retainAll_append, ← entries_step ht, ih hrest]

end Session

end FilterQuery
