import FilterQuery.Proofs.Trichotomy

namespace FilterQuery

/-- Whether a written value is read as a single value, or as an element, of a declared type. -/
def Atom.Reads (d : Descriptor) (a : Atom) (v : Option Scalar) : Prop :=
  a.Decodes d.kind v ∧ d.Admits v

def Literal.Reads (d : Descriptor) (l : Literal) (v : Coerced) : Prop :=
  l.Decodes d.kind v ∧ ∀ x ∈ v.values, d.Admits x

/-- Whether a property holds a single value, and another one a sequence of such values. -/
structure Property.ElementOf {α : Type} (p q : Property α) : Prop where
  single : p.descriptor.shape.isSequence = false
  sequence : q.descriptor.shape.isSequence = true
  kind : p.descriptor.kind = q.descriptor.kind
  acceptsNull : p.descriptor.acceptsNull = q.descriptor.acceptsNull

/-! ## Lists -/

section Lists

variable {α β : Type} {R : α → β → Prop} {as : List α} {bs : List β}

theorem exists_forall₂_iff : (∃ bs, List.Forall₂ R as bs) ↔ ∀ a ∈ as, ∃ b, R a b := by
  induction as with
  | nil => simp
  | cons a as ih =>
    rw [List.forall_mem_cons, ← ih]
    apply Iff.intro
    · rintro ⟨_, h⟩
      cases h with
      | cons hab htail => exact ⟨⟨_, hab⟩, _, htail⟩
    · rintro ⟨⟨b, hab⟩, bs, htail⟩
      exact ⟨b :: bs, .cons hab htail⟩

theorem exists_mem_iff_of_forall₂ {A : α → Prop} {B : β → Prop} (h : List.Forall₂ R as bs)
    (hR : ∀ a b, R a b → (A a ↔ B b)) : (∃ a ∈ as, A a) ↔ ∃ b ∈ bs, B b := by
  induction h with
  | nil => simp
  | cons hab _ ih => simp only [List.exists_mem_cons_iff, hR _ _ hab, ih]

theorem forall₂_and_right_iff {P : β → Prop} :
    List.Forall₂ (fun a b => R a b ∧ P b) as bs ↔ List.Forall₂ R as bs ∧ ∀ b ∈ bs, P b := by
  induction as generalizing bs with
  | nil => cases bs <;> simp
  | cons a as ih =>
    cases bs with
    | nil => simp
    | cons b bs =>
      simp only [List.forall₂_cons, ih, List.forall_mem_cons]
      exact and_and_and_comm

theorem forall₂_iff_of_forall₂ {γ : Type} {A : γ → α → Prop} {B : γ → β → Prop} {cs : List γ}
    (h : List.Forall₂ R as bs) (hR : ∀ c ∈ cs, ∀ a b, R a b → (A c a ↔ B c b)) :
    List.Forall₂ A cs as ↔ List.Forall₂ B cs bs := by
  induction h generalizing cs with
  | nil => simp
  | cons hab _ ih =>
    cases cs with
    | nil => simp
    | cons c cs =>
      obtain ⟨hc, hcs⟩ := List.forall_mem_cons.mp hR
      simp only [List.forall₂_cons, hc _ _ hab, ih hcs]

end Lists

/-! ## Literals -/

section Literals

variable {d : Descriptor} {a : Atom} {as : List Atom}

theorem Atom.Reads.null_iff {v : Option Scalar} (h : a.Reads d v) : a = .null ↔ v = none := by
  obtain ⟨hdecodes, _⟩ := h
  cases a <;> cases v <;> simp_all [Decodes]

theorem Literal.reads_single_iff {v : Coerced} :
    (single a).Reads d v ↔ ∃ x, v = .single x ∧ a.Reads d x := by
  cases v <;> simp [Reads, Decodes, Coerced.values, Atom.Reads]

theorem Literal.reads_list_iff {v : Coerced} :
    (list as).Reads d v ↔ ∃ xs, v = .many xs ∧ List.Forall₂ (Atom.Reads d) as xs := by
  unfold Atom.Reads
  simp only [forall₂_and_right_iff]
  cases v <;> simp [Reads, Decodes, Coerced.values]

theorem Literal.Reads.atoms {l : Literal} {v : Coerced} (h : l.Reads d v) :
    List.Forall₂ (Atom.Reads d) l.atoms v.values := by
  cases l with
  | single a =>
    obtain ⟨x, rfl, hx⟩ := reads_single_iff.mp h
    exact .cons hx .nil
  | list as =>
    obtain ⟨xs, rfl, hxs⟩ := reads_list_iff.mp h
    exact hxs

end Literals

/-! ## Comparisons -/

/-- A comparison is no more than its operator and the values that it carries. -/
theorem Comparison.eq_of_operator {m n : Comparison} (hop : m.operator = n.operator)
    (hvalue : m.value = n.value) : m = n := by
  have hform := generation_of_operator hop
  cases n with
  | equals w negate | sequenceEquals ws negate =>
    cases negate <;> rcases hform with ⟨v, rfl⟩ | ⟨vs, rfl⟩ <;> cases hvalue <;> rfl
  | edge e text => cases e <;> obtain ⟨s, rfl⟩ := hform <;> cases hvalue <;> rfl
  | order r bound | oneOf ws | contains w =>
    obtain ⟨v, rfl⟩ := hform
    cases hvalue
    rfl

namespace Condition

variable {c : Condition} {d : Descriptor} {m : Comparison} {name : String}

theorem rejectNull_of_reads {v : Coerced} (h : c.literal.Reads d v) : c.rejectNull d = .ok () := by
  rw [rejectNull_eq_ok_iff]
  intro hnull
  obtain ⟨x, hx, rfl⟩ :=
    (exists_mem_iff_of_forall₂ h.atoms fun _ _ => Atom.Reads.null_iff).mp ⟨_, hnull, rfl⟩
  exact h.2 none hx

/-- A comparison is made if the operator and the literal fit the type and the literal is read as
values of it, and then it carries these values. -/
theorem comparison_eq_ok_iff :
    c.comparison d = .ok m ↔ c.Fits d m.path ∧ m.operator = c.op ∧ c.literal.Reads d m.value := by
  apply Iff.intro
  · intro h
    obtain ⟨_, hpath, hcoerce, hop⟩ := stages_of_comparison h
    exact ⟨fits_of_path hpath, hop, coerce_eq_ok_iff.mp hcoerce⟩
  · rintro ⟨hfits, hop, hreads⟩
    obtain ⟨n, hn, _, hop', hvalue⟩ := comparison_ok (rejectNull_of_reads hreads)
      (path_of_fits hfits) (coerce_eq_ok_iff.mpr hreads)
    rw [hn, Comparison.eq_of_operator (hop'.trans hop.symm) hvalue]

theorem comparison_equal_iff {a : Atom} :
    (Condition.mk .equal name (.single a)).comparison d = .ok m ↔
      d.shape.isSequence = false ∧ ∃ v, a.Reads d v ∧ m = .equals v false := by
  rw [comparison_eq_ok_iff]
  apply Iff.intro
  · rintro ⟨hfits, hop, hreads⟩
    obtain ⟨v, hvalue, hv⟩ := Literal.reads_single_iff.mp hreads
    rcases Comparison.generation_of_operator hop with ⟨w, rfl⟩ | ⟨ws, rfl⟩
    · cases hvalue
      cases hfits with
      | equality hshape => exact ⟨hshape, v, hv, rfl⟩
      | _ => contradiction
    · cases hvalue
  · rintro ⟨hshape, v, hv, rfl⟩
    exact ⟨.equality hshape rfl rfl, rfl, Literal.reads_single_iff.mpr ⟨v, rfl, hv⟩⟩

theorem comparison_oneOf_iff {as : List Atom} :
    (Condition.mk .oneOf name (.list as)).comparison d = .ok m ↔
      d.shape.isSequence = false ∧ ∃ vs, List.Forall₂ (Atom.Reads d) as vs ∧ m = .oneOf vs := by
  rw [comparison_eq_ok_iff]
  apply Iff.intro
  · rintro ⟨hfits, hop, hreads⟩
    obtain ⟨vs, hvalue, hvs⟩ := Literal.reads_list_iff.mp hreads
    obtain ⟨ws, rfl⟩ := Comparison.generation_of_operator hop
    cases hvalue
    cases hfits with
    | oneOf hshape => exact ⟨hshape, vs, hvs, rfl⟩
  · rintro ⟨hshape, vs, hvs, rfl⟩
    exact ⟨.oneOf hshape rfl rfl, rfl, Literal.reads_list_iff.mpr ⟨vs, rfl, hvs⟩⟩

theorem comparison_contains_iff {a : Atom} :
    (Condition.mk .contains name (.single a)).comparison d = .ok m ↔
      d.shape.isSequence = true ∧ ∃ v, a.Reads d v ∧ m = .contains v := by
  rw [comparison_eq_ok_iff]
  apply Iff.intro
  · rintro ⟨hfits, hop, hreads⟩
    obtain ⟨v, hvalue, hv⟩ := Literal.reads_single_iff.mp hreads
    obtain ⟨w, rfl⟩ := Comparison.generation_of_operator hop
    cases hvalue
    cases hfits with
    | contains hshape => exact ⟨hshape, v, hv, rfl⟩
  · rintro ⟨hshape, v, hv, rfl⟩
    exact ⟨.contains hshape rfl rfl, rfl, Literal.reads_single_iff.mpr ⟨v, rfl, hv⟩⟩

theorem comparison_sequenceEqual_iff {as : List Atom} :
    (Condition.mk .equal name (.list as)).comparison d = .ok m ↔
      d.shape.isSequence = true ∧
        ∃ vs, List.Forall₂ (Atom.Reads d) as vs ∧ m = .sequenceEquals vs false := by
  rw [comparison_eq_ok_iff]
  apply Iff.intro
  · rintro ⟨hfits, hop, hreads⟩
    obtain ⟨vs, hvalue, hvs⟩ := Literal.reads_list_iff.mp hreads
    rcases Comparison.generation_of_operator hop with ⟨w, rfl⟩ | ⟨ws, rfl⟩
    · cases hvalue
    · cases hvalue
      cases hfits with
      | sequenceEquals hshape => exact ⟨hshape, vs, hvs, rfl⟩
  · rintro ⟨hshape, vs, hvs, rfl⟩
    exact ⟨.sequenceEquals hshape rfl rfl, rfl, Literal.reads_list_iff.mpr ⟨vs, rfl, hvs⟩⟩

end Condition

/-! ## Records -/

namespace Property.ElementOf

variable {α : Type} {p q : Property α}

theorem reads_iff (h : p.ElementOf q) {a : Atom} {v : Option Scalar} :
    a.Reads q.descriptor v ↔ a.Reads p.descriptor v := by
  cases v <;> simp only [Atom.Reads, Descriptor.Admits, h.kind, h.acceptsNull]

end Property.ElementOf

namespace Options

variable {α : Type} {o : Options} {s : Schema α} {p q : Property α} {name one many : String}

theorem accepts_of_passes {c : Clause} {r : α} (h : o.Passes s c r) : o.Accepts s c := by
  obtain ⟨p, hp, _⟩ := h
  exact ⟨p, hp⟩

theorem accepts_equal_iff {a : Atom} (hp : s.resolve o.nameCase name = .ok p) :
    o.Accepts s (.first .equal name (.single a)) ↔
      p.descriptor.shape.isSequence = false ∧ ∃ v, a.Reads p.descriptor v := by
  refine (accepts_iff hp).trans ((exists_congr fun _ => Condition.comparison_equal_iff).trans ?_)
  simp

theorem passes_equal_iff {a : Atom} {v : Option Scalar} (hp : s.resolve o.nameCase name = .ok p)
    (hshape : p.descriptor.shape.isSequence = false) (hv : a.Reads p.descriptor v) (r : α) :
    o.Passes s (.first .equal name (.single a)) r ↔
      Scalar.optionalEquals (p.read r).scalar? v = true := by
  have hcomparison : (Condition.mk .equal name (.single a)).comparison p.descriptor =
      .ok (.equals v false) := Condition.comparison_equal_iff.mpr ⟨hshape, v, hv, rfl⟩
  refine (passes_of_comparison hp hcomparison).trans ?_
  simp [Comparison.holds]

/-! ### One of several values -/

theorem accepts_oneOf_iff (a : Atom) (as : List Atom) :
    o.Accepts s (.first .oneOf name (.list (a :: as))) ↔
      ∀ b ∈ a :: as, o.Accepts s (.first .equal name (.single b)) := by
  cases hp : s.resolve o.nameCase name with
  | error e =>
    apply iff_of_false (not_accepts hp)
    intro h
    exact not_accepts hp (h a List.mem_cons_self)
  | ok p =>
    refine (accepts_iff hp).trans ((exists_congr fun _ => Condition.comparison_oneOf_iff).trans ?_)
    simp only [accepts_equal_iff hp]
    cases p.descriptor.shape.isSequence with
    | true =>
      apply iff_of_false
      · simp
      · intro h
        exact Bool.noConfusion (h a List.mem_cons_self).1
    | false => simp [exists_forall₂_iff]

theorem passes_oneOf_iff {as : List Atom} (h : o.Accepts s (.first .oneOf name (.list as)))
    (r : α) :
    o.Passes s (.first .oneOf name (.list as)) r ↔
      ∃ a ∈ as, o.Passes s (.first .equal name (.single a)) r := by
  cases hp : s.resolve o.nameCase name with
  | error e => exact absurd h (not_accepts hp)
  | ok p =>
    obtain ⟨m, hm⟩ := (accepts_iff hp).mp h
    obtain ⟨hshape, vs, hvs, rfl⟩ := Condition.comparison_oneOf_iff.mp hm
    rw [passes_of_comparison hp hm,
      exists_mem_iff_of_forall₂ hvs fun a v hv => passes_equal_iff hp hshape hv r]
    simp [Comparison.holds]

theorem passes_oneOf_singleton_iff {a : Atom} {r : α} :
    o.Passes s (.first .oneOf name (.list [a])) r ↔
      o.Passes s (.first .equal name (.single a)) r := by
  by_cases h : o.Accepts s (.first .oneOf name (.list [a]))
  · simp [passes_oneOf_iff h]
  · apply iff_of_false (mt accepts_of_passes h)
    rw [accepts_oneOf_iff, List.forall_mem_singleton] at h
    exact mt accepts_of_passes h

/-! ### Elements of a sequence -/

section Element

variable (hp : s.resolve o.nameCase one = .ok p) (hq : s.resolve o.nameCase many = .ok q)
  (hpq : p.ElementOf q)

include hp hq hpq

theorem accepts_contains_iff (a : Atom) :
    o.Accepts s (.first .contains many (.single a)) ↔
      o.Accepts s (.first .equal one (.single a)) := by
  refine (accepts_iff hq).trans
    ((exists_congr fun _ => Condition.comparison_contains_iff).trans ?_)
  simp [accepts_equal_iff hp, hpq.reads_iff, hpq.single, hpq.sequence]

theorem accepts_sequence_iff (as : List Atom) :
    o.Accepts s (.first .equal many (.list as)) ↔
      ∀ a ∈ as, o.Accepts s (.first .equal one (.single a)) := by
  refine (accepts_iff hq).trans
    ((exists_congr fun _ => Condition.comparison_sequenceEqual_iff).trans ?_)
  simp [accepts_equal_iff hp, exists_forall₂_iff, hpq.reads_iff, hpq.single, hpq.sequence]

variable {r : α} {xs : List (Option Scalar)} {record : Option Scalar → α}
  (hr : q.read r = .sequence xs) (hrecord : ∀ x ∈ xs, p.read (record x) = .ofOption x)

include hr hrecord

omit hq hr in
theorem passes_element_iff {a : Atom} {v : Option Scalar} (hv : a.Reads q.descriptor v)
    {x : Option Scalar} (hx : x ∈ xs) :
    o.Passes s (.first .equal one (.single a)) (record x) ↔ Option.Rel Scalar.Equal x v := by
  rw [passes_equal_iff hp hpq.single (hpq.reads_iff.mp hv), hrecord x hx,
    FieldValue.scalar?_ofOption, Scalar.optionalEquals_iff]

theorem passes_contains_iff (a : Atom) :
    o.Passes s (.first .contains many (.single a)) r ↔
      ∃ x ∈ xs, o.Passes s (.first .equal one (.single a)) (record x) := by
  by_cases h : o.Accepts s (.first .contains many (.single a))
  · obtain ⟨m, hm⟩ := (accepts_iff hq).mp h
    obtain ⟨_, v, hv, rfl⟩ := Condition.comparison_contains_iff.mp hm
    rw [passes_of_comparison hq hm, hr, Comparison.holds_contains_iff]
    apply exists_congr
    intro x
    apply and_congr_right
    intro hx
    exact (passes_element_iff hp hpq hrecord hv hx).symm
  · apply iff_of_false (mt accepts_of_passes h)
    rintro ⟨x, _, hx⟩
    exact h ((accepts_contains_iff hp hq hpq a).mpr (accepts_of_passes hx))

theorem passes_sequence_iff (as : List Atom) :
    o.Passes s (.first .equal many (.list as)) r ↔
      List.Forall₂ (fun x a => o.Passes s (.first .equal one (.single a)) (record x)) xs as := by
  by_cases h : o.Accepts s (.first .equal many (.list as))
  · obtain ⟨m, hm⟩ := (accepts_iff hq).mp h
    obtain ⟨_, vs, hvs, rfl⟩ := Condition.comparison_sequenceEqual_iff.mp hm
    rw [passes_of_comparison hq hm, hr, Comparison.holds_sequenceEquals_iff,
      if_neg Bool.false_ne_true]
    have helement (x : Option Scalar) (hx : x ∈ xs) (a : Atom) (v : Option Scalar)
        (hv : a.Reads q.descriptor v) := passes_element_iff hp hpq hrecord hv hx
    exact (forall₂_iff_of_forall₂ hvs helement).symm
  · apply iff_of_false (mt accepts_of_passes h)
    intro hall
    have haccepts := forall₂_and_right_iff.mp (hall.imp fun x a hx => ⟨hx, accepts_of_passes hx⟩)
    exact h ((accepts_sequence_iff hp hq hpq as).mpr haccepts.2)

end Element

/-- Which elements a sequence has decides whether it contains a value, and neither their order nor
their number does. -/
theorem passes_contains_congr {a : Atom} {r r' : α} {xs ys : List (Option Scalar)}
    (hq : s.resolve o.nameCase many = .ok q) (hr : q.read r = .sequence xs)
    (hr' : q.read r' = .sequence ys) (h : ∀ x, x ∈ xs ↔ x ∈ ys) :
    o.Passes s (.first .contains many (.single a)) r ↔
      o.Passes s (.first .contains many (.single a)) r' := by
  refine (passes_iff_comparison hq).trans (Iff.trans ?_ (passes_iff_comparison hq).symm)
  apply exists_congr
  intro m
  apply and_congr_right
  intro hm
  obtain ⟨_, v, _, rfl⟩ := Condition.comparison_contains_iff.mp hm
  simp only [hr, hr', Comparison.holds_contains_iff, h]

/-- The operators on lists and sequences test each value as equality does alone. To be one of some
values is to equal one of them. For a property that holds single values and one that holds
sequences of them, to contain a value is to have an element that equals it, and a sequence equals
a list that has as many values and each of them equal to the element at its place; for an element
stands any record that holds it as its single value. -/
theorem lists_elementwise (o : Options) (s : Schema α) :
    (∀ name a as,
      (o.Accepts s (.first .oneOf name (.list (a :: as))) ↔
        ∀ b ∈ a :: as, o.Accepts s (.first .equal name (.single b))) ∧
      (o.Accepts s (.first .oneOf name (.list (a :: as))) → ∀ r,
        (o.Passes s (.first .oneOf name (.list (a :: as))) r ↔
          ∃ b ∈ a :: as, o.Passes s (.first .equal name (.single b)) r))) ∧
    ∀ one many p q, s.resolve o.nameCase one = .ok p → s.resolve o.nameCase many = .ok q →
      p.ElementOf q →
      (∀ a,
        (o.Accepts s (.first .contains many (.single a)) ↔
          o.Accepts s (.first .equal one (.single a))) ∧
        (∀ r x, q.read r = .sequence [x] → p.read r = .ofOption x →
          (o.Passes s (.first .contains many (.single a)) r ↔
            o.Passes s (.first .oneOf one (.list [a])) r)) ∧
        ∀ r r' xs ys, q.read r = .sequence xs → q.read r' = .sequence ys →
          (∀ x, x ∈ xs ↔ x ∈ ys) →
          (o.Passes s (.first .contains many (.single a)) r ↔
            o.Passes s (.first .contains many (.single a)) r')) ∧
      (∀ as, o.Accepts s (.first .equal many (.list as)) ↔
        ∀ a ∈ as, o.Accepts s (.first .equal one (.single a))) ∧
      ∀ r xs (record : Option Scalar → α), q.read r = .sequence xs →
        (∀ x ∈ xs, p.read (record x) = .ofOption x) →
        (∀ a, o.Passes s (.first .contains many (.single a)) r ↔
          ∃ x ∈ xs, o.Passes s (.first .equal one (.single a)) (record x)) ∧
        ∀ as, o.Passes s (.first .equal many (.list as)) r ↔
          List.Forall₂ (fun x a => o.Passes s (.first .equal one (.single a)) (record x))
            xs as := by
  apply And.intro
  · intro name a as
    exact ⟨accepts_oneOf_iff a as, passes_oneOf_iff⟩
  intro one many p q hp hq hpq
  refine ⟨?_, accepts_sequence_iff hp hq hpq, ?_⟩
  · intro a
    refine ⟨accepts_contains_iff hp hq hpq a, ?_, ?_⟩
    · intro r x hr hx
      have hrecord : ∀ y ∈ [x], p.read ((fun _ => r) y) = .ofOption y :=
        List.forall_mem_singleton.mpr hx
      rw [passes_oneOf_singleton_iff, passes_contains_iff hp hq hpq hr hrecord]
      simp
    · intro r r' xs ys hr hr' h
      exact passes_contains_congr hq hr hr' h
  · intro r xs record hr hrecord
    exact ⟨passes_contains_iff hp hq hpq hr hrecord, passes_sequence_iff hp hq hpq hr hrecord⟩

end Options

def sales : List Column :=
  [{ name := "paid", type := .optional .decimal },
    { name := "offered", type := .sequence .vector .decimal true }]

def paid : Property (Row sales) :=
  ⟨"paid", (FieldType.optional .decimal).descriptor,
    fun r => (FieldType.optional .decimal).fieldValue r.1⟩

def offered : Property (Row sales) :=
  ⟨"offered", (FieldType.sequence .vector .decimal true).descriptor,
    fun r => (FieldType.sequence .vector .decimal true).fieldValue r.2.1⟩

/-- Where 1.5 and no price are offered, the offers are tested against 1.50 and no price. -/
theorem Options.lists_elementwise_sales :
    let o : Options := {}
    let s := Schema.ofColumns sales
    let price : Kind.decimal.Value := ⟨.decimal ⟨15, 1⟩, by decide⟩
    let row (x : Option Kind.decimal.Value) : Row sales := (x, [some price, none], ())
    let record (x : Option Scalar) : Row sales := row (x.map fun _ => price)
    let written : List Atom := [.text "1.50", .null]
    s.resolve .insensitive "Paid" = .ok paid ∧ s.resolve .insensitive "Offered" = .ok offered ∧
    paid.ElementOf offered ∧
    (o.Accepts s (.first .oneOf "Paid" (.list written)) ↔
      ∀ a ∈ written, o.Accepts s (.first .equal "Paid" (.single a))) ∧
    (o.Passes s (.first .contains "Offered" (.single .null)) (row price) ↔
      ∃ x ∈ [some price.scalar, none],
        o.Passes s (.first .equal "Paid" (.single .null)) (record x)) ∧
    (o.Passes s (.first .equal "Offered" (.list written)) (row price) ↔
      List.Forall₂ (fun x a => o.Passes s (.first .equal "Paid" (.single a)) (record x))
        [some price.scalar, none] written) := by
  intro o s price row record written
  have hpaid : s.resolve .insensitive "Paid" = .ok paid := rfl
  have hoffered : s.resolve .insensitive "Offered" = .ok offered := rfl
  have helement : paid.ElementOf offered := ⟨rfl, rfl, rfl, rfl⟩
  have hrecord : ∀ x ∈ [some price.scalar, none], paid.read (record x) = .ofOption x := by
    intro x hx
    rcases List.mem_pair.mp hx with rfl | rfl <;> rfl
  obtain ⟨hone, hmany⟩ := Options.lists_elementwise o s
  obtain ⟨_, _, hpasses⟩ := hmany "Paid" "Offered" paid offered hpaid hoffered helement
  obtain ⟨hcontains, hsequence⟩ := hpasses (row price) _ record rfl hrecord
  exact ⟨hpaid, hoffered, helement, (hone "Paid" _ _).1, hcontains .null, hsequence written⟩

end FilterQuery
