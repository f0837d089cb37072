import FilterQuery.Filter.Comparison
import FilterQuery.Outcome

namespace FilterQuery

def Literal.atoms : Literal → List Atom
  | .single a => [a]
  | .list as => as

/-- Whether a written value decodes as a value of a kind, or as an absent one. -/
def Atom.Decodes (k : Kind) : Atom → Option Scalar → Prop
  | .text s, some v => k.decode s = .ok v
  | .null, none => True
  | _, _ => False

namespace Comparison

def operator : Comparison → Operator
  | .equals _ negate | .sequenceEquals _ negate => if negate then .notEqual else .equal
  | .order r _ => .order r
  | .edge .leading _ => .startsWith
  | .edge .trailing _ => .endsWith
  | .oneOf _ => .oneOf
  | .contains _ => .contains

def value : Comparison → Coerced
  | .equals v _ | .contains v => .single v
  | .order _ bound => .single (some bound)
  | .edge _ text => .single (some (.string text))
  | .oneOf vs | .sequenceEquals vs _ => .many vs

/-- The forms of a comparison that stands for an operator. -/
def Generation (m : Comparison) : Operator → Prop
  | .equal => (∃ v, m = .equals v false) ∨ ∃ vs, m = .sequenceEquals vs false
  | .notEqual => (∃ v, m = .equals v true) ∨ ∃ vs, m = .sequenceEquals vs true
  | .order r => ∃ bound, m = .order r bound
  | .startsWith => ∃ s, m = .edge .leading s
  | .endsWith => ∃ s, m = .edge .trailing s
  | .oneOf => ∃ vs, m = .oneOf vs
  | .contains => ∃ v, m = .contains v

theorem generation (m : Comparison) : m.Generation m.operator := by
  cases m with
  | equals v negate => cases negate <;> exact .inl ⟨v, rfl⟩
  | sequenceEquals vs negate => cases negate <;> exact .inr ⟨vs, rfl⟩
  | edge e s => cases e <;> exact ⟨s, rfl⟩
  | _ => exact ⟨_, rfl⟩

theorem generation_of_operator {m : Comparison} {op : Operator} (h : m.operator = op) :
    m.Generation op :=
  h ▸ m.generation

end Comparison

theorem Operator.isOrdering_iff {op : Operator} : op.isOrdering = true ↔ ∃ r, op = .order r := by
  cases op <;> simp [isOrdering, relation?]

namespace Condition

variable {c : Condition} {d : Descriptor} {p : Path} {e : QueryError}

theorem rejectNull_eq_ok_iff :
    c.rejectNull d = .ok () ↔ (.null ∈ c.literal.atoms → d.acceptsNull = true) := by
  have hmentions : c.literal.mentionsNull = true ↔ .null ∈ c.literal.atoms := by
    cases c.literal with
    | single a => cases a <;> simp [Literal.mentionsNull, Literal.atoms]
    | list as => simp [Literal.mentionsNull, Literal.atoms]
  rw [← hmentions, rejectNull, nullNotAllowed]
  cases c.literal.mentionsNull <;> cases d.acceptsNull <;> simp

/-- The ways in which an operator and a literal fit a type. -/
inductive Fits (c : Condition) (d : Descriptor) : Path → Prop
  | equality {a : Atom} : d.shape.isSequence = false → c.literal = .single a →
      c.op.isEquality = true → Fits c d .direct
  | order {a : Atom} {r : Relation} : d.shape.isSequence = false → c.literal = .single a →
      c.op = .order r → d.kind.isOrderable = true → (a = .null → d.acceptsNull = false) →
      Fits c d .direct
  | edge {a : Atom} : d.shape.isSequence = false → c.literal = .single a →
      c.op.isEdge = true → d.kind = .string → (a = .null → d.acceptsNull = false) →
      Fits c d .direct
  | oneOf {as : List Atom} : d.shape.isSequence = false → c.literal = .list as →
      c.op = .oneOf → Fits c d .oneOf
  | contains {a : Atom} : d.shape.isSequence = true → c.literal = .single a →
      c.op = .contains → Fits c d .contains
  | sequenceEquals {as : List Atom} : d.shape.isSequence = true → c.literal = .list as →
      c.op.isEquality = true → Fits c d .sequenceEquals

theorem not_null_of_isNull {a : Atom} (h : ¬ ((Literal.single a).isNull && d.acceptsNull) = true) :
    a = .null → d.acceptsNull = false := by
  rintro rfl
  simpa [Literal.isNull] using h

theorem fits_of_path (h : c.path d = .ok p) : c.Fits d p := by
  cases hshape : d.shape.isSequence with
  | false =>
    cases hl : c.literal with
    | single a =>
      simp only [path, hshape, hl, Literal.isList, unsupported] at h
      split at h
      · next hordering =>
        obtain ⟨r, hop⟩ := Operator.isOrdering_iff.mp hordering
        split at h
        · cases h
        split at h
        · cases h
        · next hkind hnull =>
          cases h
          exact .order hshape hl hop (by simpa using hkind) (not_null_of_isNull hnull)
      split at h
      · next hedge =>
        split at h
        · cases h
        split at h
        · cases h
        · next hkind hnull =>
          cases h
          exact .edge hshape hl hedge (by simpa using hkind) (not_null_of_isNull hnull)
      split at h
      · next hequality =>
        cases h
        exact .equality hshape hl hequality
      · cases h
    | list as =>
      simp only [path, hshape, hl, Literal.isList, unsupported] at h
      split at h
      · next hop =>
        cases h
        exact .oneOf hshape hl hop
      · cases h
  | true =>
    cases hl : c.literal with
    | single a =>
      simp only [path, hshape, hl, Literal.isList, unsupported] at h
      split at h
      · next hop =>
        cases h
        exact .contains hshape hl hop
      · cases h
    | list as =>
      simp only [path, hshape, hl, Literal.isList, unsupported] at h
      split at h
      · next hequality =>
        cases h
        exact .sequenceEquals hshape hl hequality
      · cases h

theorem path_of_fits (h : c.Fits d p) : c.path d = .ok p := by
  have hnotNull {a : Atom} (ha : a = .null → d.acceptsNull = false) :
      ((Literal.single a).isNull && d.acceptsNull) = false := by
    cases a with
    | text => rfl
    | null => exact ha rfl
  cases h with
  | equality hshape hl hequality =>
    cases hop : c.op with
    | equal | notEqual =>
      simp [path, hshape, hl, hop, Literal.isList, Operator.isOrdering, Operator.relation?,
        Operator.isEdge, Operator.isEquality]
    | _ => simp [hop, Operator.isEquality] at hequality
  | order hshape hl hop hkind hnull =>
    simp [path, hshape, hl, hop, hkind, hnotNull hnull, Literal.isList, Operator.isOrdering,
      Operator.relation?]
  | edge hshape hl hedge hkind hnull =>
    cases hop : c.op with
    | startsWith | endsWith =>
      simp [path, hshape, hl, hop, hkind, hnotNull hnull, Literal.isList, Operator.isOrdering,
        Operator.relation?, Operator.isEdge]
    | _ => simp [hop, Operator.isEdge] at hedge
  | oneOf hshape hl hop => simp [path, hshape, hl, hop, Literal.isList]
  | contains hshape hl hop => simp [path, hshape, hl, hop, Literal.isList]
  | sequenceEquals hshape hl hequality => simp [path, hshape, hl, hequality, Literal.isList]

/-! ## Decoding -/

theorem coerceAtom_eq_ok_iff {a : Atom} {v : Option Scalar} :
    c.coerceAtom d a = .ok v ↔ a.Decodes d.kind v ∧ (v = none → d.acceptsNull = true) := by
  cases a with
  | null =>
    simp only [coerceAtom, nullNotAllowed]
    cases v <;> cases d.acceptsNull <;> simp [Atom.Decodes]
  | text s => cases h : d.kind.decode s <;> cases v <;> simp [coerceAtom, Atom.Decodes, h]

/-- Whether this is the error of the first of some written values that cannot be decoded. -/
def FirstUndecodable (c : Condition) (d : Descriptor) (as : List Atom) (e : QueryError) : Prop :=
  ∃ before s after f, as = before ++ .text s :: after ∧
    (∀ u, .text u ∈ before → ∃ v, d.kind.decode u = .ok v) ∧
    d.kind.decode s = .error f ∧ e = .coercion c.property s d (.undecodable f)

theorem firstUndecodable_error {s : String} {as : List Atom} {f : DecodeError}
    (h : d.kind.decode s = .error f) :
    c.FirstUndecodable d (.text s :: as) e ↔ e = .coercion c.property s d (.undecodable f) := by
  apply Iff.intro
  · intro he
    obtain ⟨before, u, after, g, has, hbefore, hg, rfl⟩ := he
    cases before with
    | nil =>
      cases has
      rw [h] at hg
      cases hg
      rfl
    | cons a before =>
      cases has
      obtain ⟨v, hv⟩ := hbefore s List.mem_cons_self
      rw [h] at hv
      cases hv
  · intro he
    exact ⟨[], s, as, f, rfl, by simp, h, he⟩

theorem firstUndecodable_cons {a : Atom} {as : List Atom} {v : Option Scalar}
    (h : c.coerceAtom d a = .ok v) :
    c.FirstUndecodable d (a :: as) e ↔ c.FirstUndecodable d as e := by
  have hdecode : ∀ u, .text u = a → ∃ v, d.kind.decode u = .ok v := by
    rintro u rfl
    have hdecodes := (coerceAtom_eq_ok_iff.mp h).1
    cases v with
    | some x => exact ⟨x, hdecodes⟩
    | none => exact hdecodes.elim
  apply Iff.intro
  · intro he
    obtain ⟨before, u, after, g, has, hbefore, hg, rfl⟩ := he
    cases before with
    | nil =>
      cases has
      obtain ⟨v', hv⟩ := hdecode u rfl
      rw [hg] at hv
      cases hv
    | cons b before =>
      cases has
      exact ⟨before, u, after, g, rfl, fun w hw => hbefore w (List.mem_cons_of_mem a hw), hg, rfl⟩
  · intro he
    obtain ⟨before, u, after, g, rfl, hbefore, hg, rfl⟩ := he
    refine ⟨a :: before, u, after, g, rfl, ?_, hg, rfl⟩
    intro w hw
    rcases List.mem_cons.mp hw with ha | hw
    · exact hdecode w ha
    · exact hbefore w hw

theorem coerceAtoms_eq_error_iff {as : List Atom} (hnull : .null ∈ as → d.acceptsNull = true) :
    c.coerceAtoms d as = .error e ↔ c.FirstUndecodable d as e := by
  induction as with
  | nil => simp [coerceAtoms, FirstUndecodable]
  | cons a as ih =>
    have htail := ih fun h => hnull (List.mem_cons_of_mem a h)
    have hok {v : Option Scalar} (h : c.coerceAtom d a = .ok v) :
        c.coerceAtoms d (a :: as) = .error e ↔ c.FirstUndecodable d (a :: as) e := by
      rw [firstUndecodable_cons h, ← htail, coerceAtoms, h]
      cases c.coerceAtoms d as <;> simp [bind, Except.bind, pure, Except.pure]
    cases a with
    | null => exact hok (by rw [coerceAtom, if_pos (hnull List.mem_cons_self)])
    | text s =>
      cases hs : d.kind.decode s with
      | ok v =>
        have hv : c.coerceAtom d (.text s) = .ok (some v) := by simp only [coerceAtom, hs]
        exact hok hv
      | error f =>
        rw [firstUndecodable_error hs]
        simp [coerceAtoms, coerceAtom, hs, bind, Except.bind, eq_comm]

/-- Where absent values are allowed if there are any, only the text of a value can be at fault. -/
theorem coerce_eq_error_iff (h : c.rejectNull d = .ok ()) :
    c.coerce d = .error e ↔ c.FirstUndecodable d c.literal.atoms e := by
  rw [← coerceAtoms_eq_error_iff (rejectNull_eq_ok_iff.mp h), coerce]
  cases c.literal with
  | single a =>
    cases hv : c.coerceAtom d a <;>
      simp [Literal.atoms, coerceAtoms, hv, Except.map, bind, Except.bind, pure, Except.pure]
  | list as => cases hv : c.coerceAtoms d as <;> simp [Literal.atoms, hv, Except.map]

/-! ## The stages together -/

theorem Fits.literal_single (h : c.Fits d p) (hp : p = .direct ∨ p = .contains) :
    ∃ a, c.literal = .single a := by
  cases h with
  | equality _ hl | order _ hl | edge _ hl | contains _ hl => exact ⟨_, hl⟩
  | oneOf | sequenceEquals => simp at hp

theorem Fits.literal_list (h : c.Fits d p) (hp : p = .oneOf ∨ p = .sequenceEquals) :
    ∃ as, c.literal = .list as := by
  cases h with
  | oneOf _ hl | sequenceEquals _ hl => exact ⟨_, hl⟩
  | equality | order | edge | contains => simp at hp

theorem coerce_of_single {a : Atom} (hl : c.literal = .single a) :
    c.coerce d = (c.single d).map .single := by
  simp [coerce, single, hl]

theorem coerce_of_list {as : List Atom} (hl : c.literal = .list as) :
    c.coerce d = (c.many d).map .many := by
  simp [coerce, many, hl]

theorem single_some {a : Atom} {v : Option Scalar} (hnull : c.rejectNull d = .ok ())
    (hl : c.literal = .single a) (ha : a = .null → d.acceptsNull = false)
    (hv : c.single d = .ok v) : ∃ s x, a = .text s ∧ d.kind.decode s = .ok x ∧ v = some x := by
  rw [rejectNull_eq_ok_iff, hl] at hnull
  rw [single, hl] at hv
  have hdecodes := (coerceAtom_eq_ok_iff.mp hv).1
  cases a with
  | null =>
    have hd := hnull (List.mem_singleton.mpr rfl)
    rw [ha rfl] at hd
    cases hd
  | text s =>
    cases v with
    | some x => exact ⟨s, x, rfl, hdecodes, rfl⟩
    | none => exact hdecodes.elim

theorem Fits.direct {v : Option Scalar} (h : c.Fits d .direct) (hnull : c.rejectNull d = .ok ())
    (hv : c.single d = .ok v) :
    ∃ m, c.direct v = .ok m ∧ m.path = .direct ∧ m.operator = c.op ∧ m.value = .single v := by
  cases h with
  | equality _ _ hequality =>
    cases hop : c.op with
    | equal => exact ⟨.equals v false, by simp [Condition.direct, hop], rfl, rfl, rfl⟩
    | notEqual => exact ⟨.equals v true, by simp [Condition.direct, hop], rfl, rfl, rfl⟩
    | _ => simp [hop, Operator.isEquality] at hequality
  | @order a r _ hl hop _ ha =>
    obtain ⟨s, x, rfl, _, rfl⟩ := single_some hnull hl ha hv
    exact ⟨.order r x, by simp [Condition.direct, hop], rfl, hop.symm, rfl⟩
  | edge _ hl hedge hkind ha =>
    obtain ⟨s, x, rfl, hx, rfl⟩ := single_some hnull hl ha hv
    rw [hkind] at hx
    cases hx
    cases hop : c.op with
    | startsWith => exact ⟨.edge .leading s, by simp [Condition.direct, hop], rfl, rfl, rfl⟩
    | endsWith => exact ⟨.edge .trailing s, by simp [Condition.direct, hop], rfl, rfl, rfl⟩
    | _ => simp [hop, Operator.isEdge] at hedge

theorem comparison_rejectNull (h : c.rejectNull d = .error e) : c.comparison d = .error e := by
  simp [comparison, h, bind, Except.bind]

theorem comparison_path (hnull : c.rejectNull d = .ok ()) (h : c.path d = .error e) :
    c.comparison d = .error e := by
  simp [comparison, hnull, h, bind, Except.bind]

/-- What is left of a comparison after the first two stages. -/
theorem comparison_of_path (hnull : c.rejectNull d = .ok ()) (hpath : c.path d = .ok p) :
    c.comparison d =
      match p with
      | .direct => c.single d >>= c.direct
      | .contains => (c.single d).map .contains
      | .oneOf => (c.many d).map .oneOf
      | .sequenceEquals => (c.many d).map fun vs => .sequenceEquals vs (c.op == .notEqual) := by
  simp only [comparison, hnull, hpath, bind, Except.bind]
  cases p <;> rfl

theorem comparison_coerce (hnull : c.rejectNull d = .ok ()) (hpath : c.path d = .ok p)
    (h : c.coerce d = .error e) : c.comparison d = .error e := by
  have hfits := fits_of_path hpath
  rw [comparison_of_path hnull hpath]
  cases p with
  | direct =>
    obtain ⟨a, hl⟩ := hfits.literal_single (.inl rfl)
    rw [coerce_of_single hl, map_eq_error_iff] at h
    rw [h]
    rfl
  | contains =>
    obtain ⟨a, hl⟩ := hfits.literal_single (.inr rfl)
    rw [coerce_of_single hl, map_eq_error_iff] at h
    exact map_eq_error_iff.mpr h
  | oneOf =>
    obtain ⟨as, hl⟩ := hfits.literal_list (.inl rfl)
    rw [coerce_of_list hl, map_eq_error_iff] at h
    exact map_eq_error_iff.mpr h
  | sequenceEquals =>
    obtain ⟨as, hl⟩ := hfits.literal_list (.inr rfl)
    rw [coerce_of_list hl, map_eq_error_iff] at h
    exact map_eq_error_iff.mpr h

theorem comparison_ok {v : Coerced} (hnull : c.rejectNull d = .ok ()) (hpath : c.path d = .ok p)
    (h : c.coerce d = .ok v) :
    ∃ m, c.comparison d = .ok m ∧ m.path = p ∧ m.operator = c.op ∧ m.value = v := by
  have hfits := fits_of_path hpath
  rw [comparison_of_path hnull hpath]
  cases p with
  | direct =>
    obtain ⟨a, hl⟩ := hfits.literal_single (.inl rfl)
    rw [coerce_of_single hl, map_eq_ok_iff] at h
    obtain ⟨x, hx, rfl⟩ := h
    obtain ⟨m, hm, hpath, hop, hvalue⟩ := hfits.direct hnull hx
    exact ⟨m, by rw [hx]; exact hm, hpath, hop, hvalue⟩
  | contains =>
    obtain ⟨a, hl⟩ := hfits.literal_single (.inr rfl)
    rw [coerce_of_single hl, map_eq_ok_iff] at h
    obtain ⟨x, hx, rfl⟩ := h
    cases hfits with
    | contains _ _ hop => exact ⟨.contains x, by rw [hx]; rfl, rfl, hop.symm, rfl⟩
  | oneOf =>
    obtain ⟨as, hl⟩ := hfits.literal_list (.inl rfl)
    rw [coerce_of_list hl, map_eq_ok_iff] at h
    obtain ⟨xs, hxs, rfl⟩ := h
    cases hfits with
    | oneOf _ _ hop => exact ⟨.oneOf xs, by rw [hxs]; rfl, rfl, hop.symm, rfl⟩
  | sequenceEquals =>
    obtain ⟨as, hl⟩ := hfits.literal_list (.inr rfl)
    rw [coerce_of_list hl, map_eq_ok_iff] at h
    obtain ⟨xs, hxs, rfl⟩ := h
    cases hfits with
    | sequenceEquals _ _ hequality =>
      refine ⟨.sequenceEquals xs (c.op == .notEqual), by rw [hxs]; rfl, rfl, ?_, rfl⟩
      cases hop : c.op with
      | equal | notEqual => rfl
      | _ => simp [hop, Operator.isEquality] at hequality

/-- A comparison that is made has passed all stages, and they determine it. -/
theorem stages_of_comparison {m : Comparison} (h : c.comparison d = .ok m) :
    c.rejectNull d = .ok () ∧ c.path d = .ok m.path ∧ c.coerce d = .ok m.value ∧
      m.operator = c.op := by
  cases hnull : c.rejectNull d with
  | error e => simp [comparison_rejectNull hnull] at h
  | ok =>
    cases hpath : c.path d with
    | error e => simp [comparison_path hnull hpath] at h
    | ok p =>
      cases hcoerce : c.coerce d with
      | error e => simp [comparison_coerce hnull hpath hcoerce] at h
      | ok v =>
        obtain ⟨m', hm, rfl, hop, rfl⟩ := comparison_ok hnull hpath hcoerce
        rw [h] at hm
        cases hm
        exact ⟨rfl, rfl, rfl, hop⟩

/-- The stages of a comparison come one after the other: the first that fails gives its error, of
several values the first that cannot be decoded gives it, and what passes them all becomes the
comparison that they determine. No later stage repeats a check of an earlier one in vain: a list
is never met where a single value is read nor the other way round, and a single value that has
been decoded can always be compared. -/
theorem comparison_stages (c : Condition) (d : Descriptor) :
    (∀ e, c.comparison d = .error e ↔
      c.rejectNull d = .error e ∨
      c.rejectNull d = .ok () ∧ c.path d = .error e ∨
      c.rejectNull d = .ok () ∧ (∃ p, c.path d = .ok p) ∧ c.coerce d = .error e) ∧
    (∀ p v, c.rejectNull d = .ok () → c.path d = .ok p → c.coerce d = .ok v →
      ∃ m, c.comparison d = .ok m ∧ m.path = p ∧ m.operator = c.op ∧ m.value = v) ∧
    (c.rejectNull d = .ok () → ∀ e,
      c.coerce d = .error e ↔ c.FirstUndecodable d c.literal.atoms e) ∧
    (c.rejectNull d = .ok () → ∀ p, c.path d = .ok p →
      (p = .direct ∨ p = .contains → ∃ a, c.literal = .single a) ∧
      (p = .oneOf ∨ p = .sequenceEquals → ∃ as, c.literal = .list as) ∧
      (p = .direct → ∀ v, c.single d = .ok v → ∃ m, c.direct v = .ok m)) := by
  refine ⟨?_, ?_, ?_, ?_⟩
  · intro e
    cases hnull : c.rejectNull d with
    | error e' => simp [comparison_rejectNull hnull]
    | ok =>
      cases hpath : c.path d with
      | error e' => simp [comparison_path hnull hpath]
      | ok p =>
        cases hcoerce : c.coerce d with
        | error e' => simp [comparison_coerce hnull hpath hcoerce]
        | ok v =>
          obtain ⟨m, hm, _⟩ := comparison_ok hnull hpath hcoerce
          simp [hm]
  · intro p v hnull hpath hcoerce
    exact comparison_ok hnull hpath hcoerce
  · intro hnull e
    exact coerce_eq_error_iff hnull
  · intro hnull p hpath
    have hfits := fits_of_path hpath
    refine ⟨hfits.literal_single, hfits.literal_list, ?_⟩
    rintro rfl v hv
    obtain ⟨m, hm, _⟩ := hfits.direct hnull hv
    exact ⟨m, hm⟩

end Condition

end FilterQuery
