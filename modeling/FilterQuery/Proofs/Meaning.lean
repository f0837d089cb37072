import FilterQuery.Filter.Compile
import FilterQuery.Proofs.Typing
import FilterQuery.Proofs.Value.Order
import FilterQuery.Record.Derivation

namespace FilterQuery

/-- Whether a relation holds between what two values stand for. -/
def Relation.Relates : Relation → Scalar → Scalar → Prop
  | .less, x, a => x.Less a
  | .lessOrEqual, x, a => x.Less a ∨ x.Equal a
  | .greater, x, a => a.Less x
  | .greaterOrEqual, x, a => a.Less x ∨ x.Equal a

/-- What an operator means for the value of a property and a decoded literal. -/
inductive Operator.Means : Operator → FieldValue → Coerced → Prop → Prop
  | equal (x a : Option Scalar) :
    Means .equal (.ofOption x) (.single a) (Option.Rel Scalar.Equal x a)
  | notEqual (x a : Option Scalar) :
    Means .notEqual (.ofOption x) (.single a) (¬ Option.Rel Scalar.Equal x a)
  | order (r : Relation) (x : Option Scalar) (a : Scalar) :
    Means (.order r) (.ofOption x) (.single (some a)) (∃ y, x = some y ∧ r.Relates y a)
  | startsWith (x : Option String) (a : String) :
    Means .startsWith (.ofOption (x.map .string)) (.single (some (.string a)))
      (∃ s, x = some s ∧ utf8 a <+: utf8 s)
  | endsWith (x : Option String) (a : String) :
    Means .endsWith (.ofOption (x.map .string)) (.single (some (.string a)))
      (∃ s, x = some s ∧ utf8 a <:+ utf8 s)
  | oneOf (x : Option Scalar) (as : List (Option Scalar)) :
    Means .oneOf (.ofOption x) (.many as) (∃ a ∈ as, Option.Rel Scalar.Equal x a)
  | contains (xs : List (Option Scalar)) (a : Option Scalar) :
    Means .contains (.sequence xs) (.single a) (∃ x ∈ xs, Option.Rel Scalar.Equal x a)
  | sequenceEqual (xs as : List (Option Scalar)) :
    Means .equal (.sequence xs) (.many as) (List.Forall₂ (Option.Rel Scalar.Equal) xs as)
  | sequenceNotEqual (xs as : List (Option Scalar)) :
    Means .notEqual (.sequence xs) (.many as) (¬ List.Forall₂ (Option.Rel Scalar.Equal) xs as)

/-! ## Comparisons -/

theorem Scalar.equals_iff {a b : Scalar} : a.equals b = true ↔ a.Equal b := by
  rw [equals, beq_iff_eq, compare_eq_eq_iff]

theorem Scalar.optionalEquals_iff {a b : Option Scalar} :
    optionalEquals a b = true ↔ Option.Rel Equal a b := by
  cases a <;> cases b <;> simp [optionalEquals, equals_iff]

theorem sameElements_iff {as bs : List (Option Scalar)} :
    sameElements as bs = true ↔ List.Forall₂ (Option.Rel Scalar.Equal) as bs := by
  induction as generalizing bs with
  | nil => cases bs <;> simp [sameElements]
  | cons a as ih => cases bs <;> simp [sameElements, Scalar.optionalEquals_iff, ih]

theorem Relation.relates_iff {r : Relation} {x a : Scalar} :
    r.Relates x a ↔ ∃ o, x.compare a = some o ∧ r.holds o = true := by
  have hlt := @Scalar.compare_eq_lt_iff x a
  have heq := @Scalar.compare_eq_eq_iff x a
  have hgt := @Scalar.compare_eq_gt_iff x a
  cases r <;> simp only [Relates, ← hlt, ← heq, ← hgt]
  all_goals
    cases x.compare a with
    | none => simp
    | some o => cases o <;> simp [holds]

namespace Comparison

variable {d : Descriptor} {m : Comparison} {v : FieldValue}

theorem holds_equals_iff {x a : Option Scalar} {negate : Bool} :
    (equals a negate).holds (.ofOption x) = true ↔
      if negate then ¬ Option.Rel Scalar.Equal x a else Option.Rel Scalar.Equal x a := by
  rw [holds, FieldValue.scalar?_ofOption, ← Scalar.optionalEquals_iff]
  cases negate <;> simp

theorem holds_order_iff {r : Relation} {x : Option Scalar} {a : Scalar} :
    (order r a).holds (.ofOption x) = true ↔ ∃ y, x = some y ∧ r.Relates y a := by
  cases x with
  | none => simp [holds]
  | some y =>
    simp only [holds, FieldValue.scalar?_ofOption, Option.bind_some, Option.some.injEq,
      exists_eq_left', Relation.relates_iff]
    cases y.compare a <;> simp

theorem holds_edge_iff {e : Edge} {x : Option String} {a : String} :
    (edge e a).holds (.ofOption (x.map .string)) = true ↔ ∃ s, x = some s ∧ e.holds a s = true := by
  cases x <;> simp [holds, Scalar.string?]

theorem holds_oneOf_iff {x : Option Scalar} {as : List (Option Scalar)} :
    (oneOf as).holds (.ofOption x) = true ↔ ∃ a ∈ as, Option.Rel Scalar.Equal x a := by
  simp [holds, Scalar.optionalEquals_iff]

theorem holds_contains_iff {xs : List (Option Scalar)} {a : Option Scalar} :
    (contains a).holds (.sequence xs) = true ↔ ∃ x ∈ xs, Option.Rel Scalar.Equal x a := by
  simp [holds, FieldValue.sequence?, Scalar.optionalEquals_iff]

theorem holds_sequenceEquals_iff {xs as : List (Option Scalar)} {negate : Bool} :
    (sequenceEquals as negate).holds (.sequence xs) = true ↔
      if negate then ¬ List.Forall₂ (Option.Rel Scalar.Equal) xs as
      else List.Forall₂ (Option.Rel Scalar.Equal) xs as := by
  rw [holds, FieldValue.sequence?, ← sameElements_iff]
  cases negate <;> simp

theorem exists_string {x : Option Scalar} (hd : d.kind = .string) (hx : d.Admits x) :
    ∃ s : Option String, x = s.map .string := by
  cases x with
  | none => exact ⟨none, rfl⟩
  | some y =>
    have hstring : Kind.string.Holds y := hd ▸ hx
    cases y with
    | string s => exact ⟨some s, rfl⟩
    | _ => exact hstring.elim

/-- A comparison of a declared type tests values of the type for what its operator means. -/
theorem Typed.means (hm : m.Typed d) (hv : v.Fits d) :
    ∃ meaning, m.operator.Means v m.value meaning ∧ (m.holds v = true ↔ meaning) := by
  cases m with
  | equals a negate =>
    obtain ⟨x, rfl, _⟩ := hv.single (hm.single (.inl rfl))
    cases negate with
    | false => exact ⟨_, .equal x a, holds_equals_iff⟩
    | true => exact ⟨_, .notEqual x a, holds_equals_iff⟩
  | order r a =>
    obtain ⟨x, rfl, _⟩ := hv.single (hm.single (.inl rfl))
    exact ⟨_, .order r x a, holds_order_iff⟩
  | edge e a =>
    obtain ⟨x, rfl, hx⟩ := hv.single (hm.single (.inl rfl))
    obtain ⟨s, rfl⟩ := exists_string (hm.edge e a rfl) hx
    cases e with
    | leading =>
      refine ⟨_, .startsWith s a, ?_⟩
      simp only [holds_edge_iff, Edge.holds, List.isPrefixOf_iff_prefix]
    | trailing =>
      refine ⟨_, .endsWith s a, ?_⟩
      simp only [holds_edge_iff, Edge.holds, List.isSuffixOf_iff_suffix]
  | oneOf as =>
    obtain ⟨x, rfl, _⟩ := hv.single (hm.single (.inr rfl))
    exact ⟨_, .oneOf x as, holds_oneOf_iff⟩
  | contains a =>
    obtain ⟨xs, rfl, _⟩ := hv.sequence (hm.sequence.mp (.inl rfl))
    exact ⟨_, .contains xs a, holds_contains_iff⟩
  | sequenceEquals as negate =>
    obtain ⟨xs, rfl, _⟩ := hv.sequence (hm.sequence.mp (.inr rfl))
    cases negate with
    | false => exact ⟨_, .sequenceEqual xs as, holds_sequenceEquals_iff⟩
    | true => exact ⟨_, .sequenceNotEqual xs as, holds_sequenceEquals_iff⟩

end Comparison

/-! ## Records -/

variable {α β : Type}

/-- Whether a property is read from a field of some type. -/
def Property.OfField (p : Property α) : Prop :=
  ∃ t : FieldType, p.descriptor = t.descriptor ∧ ∀ a, ∃ w, p.read a = t.fieldValue w

/-- Whether all properties of records are read from fields. -/
def Schema.OfFields (s : Schema α) : Prop :=
  ∀ name p, s.property? name = some p → p.OfField

namespace Schema

theorem OfFields.within {s : Schema α} (f : β → α) (hs : s.OfFields) : (s.within f).OfFields := by
  intro name p hp
  obtain ⟨q, hq, rfl⟩ := Option.map_eq_some_iff.mp hp
  obtain ⟨t, hd, hread⟩ := hs name q hq
  exact ⟨t, hd, fun b => hread (f b)⟩

theorem ofFields_ofColumns (cs : List Column) : (ofColumns cs).OfFields := by
  induction cs with
  | nil =>
    intro name p hp
    cases hp
  | cons c cs ih =>
    intro name p hp
    simp only [ofColumns, Row.property?] at hp
    split at hp
    · cases hp
      exact ⟨c.type, rfl, fun r => ⟨r.1, rfl⟩⟩
    · exact ih.within Prod.snd name p hp

theorem ofFields_ofProperties (ps : List (DerivedProperty (Member α))) :
    (ofProperties ps).OfFields := by
  intro name p hp
  obtain ⟨q, _, rfl⟩ := Option.map_eq_some_iff.mp hp
  exact ⟨q.field.member.type, rfl, fun a => ⟨q.field.member.read a, rfl⟩⟩

theorem property?_of_resolve {s : Schema α} {nameCase : NameCase} {name : String} {p : Property α}
    (h : s.resolve nameCase name = .ok p) : ∃ n, s.property? n = some p := by
  unfold resolve at h
  split at h
  · next q hq =>
    cases h
    exact ⟨name, hq⟩
  · cases h
  · split at h
    · next candidate _ =>
      split at h
      · next q hq =>
        cases h
        exact ⟨candidate, hq⟩
      · cases h
    · cases h

end Schema

/-- The predicate of a condition that compiles selects a record by what the operator means for the
property that the name stands for and the values that the literal decodes as. -/
theorem Options.compileCondition_meaning {o : Options} {s : Schema α} {c : Condition}
    {p : Predicate α} (hs : s.OfFields) (h : o.compileCondition s c = .ok p) :
    ∃ q v, s.resolve o.nameCase c.property = .ok q ∧ c.literal.Decodes q.descriptor.kind v ∧
      ∀ a, ∃ meaning, c.op.Means (q.read a) v meaning ∧ (p.holds a = true ↔ meaning) := by
  obtain ⟨q, hq, h⟩ := bind_eq_ok_iff.mp h
  obtain ⟨m, hm, h⟩ := bind_eq_ok_iff.mp h
  cases h
  obtain ⟨_, _, hcoerce, hop⟩ := Condition.stages_of_comparison hm
  refine ⟨q, m.value, hq, (Condition.coerce_eq_ok_iff.mp hcoerce).1, ?_⟩
  intro a
  obtain ⟨name, hname⟩ := Schema.property?_of_resolve hq
  obtain ⟨t, hd, hread⟩ := hs name q hname
  obtain ⟨w, hw⟩ := hread a
  have hfits : (q.read a).Fits q.descriptor := by
    rw [hw, hd]
    exact t.fits_fieldValue w
  rw [← hop]
  exact (Condition.typed_of_comparison hm).means hfits

def priced : List Column := [{ name := "prices", type := .sequence .vector .decimal true }]

def prices : Property (Row priced) :=
  ⟨"prices", (FieldType.sequence .vector .decimal true).descriptor,
    fun r => (FieldType.sequence .vector .decimal true).fieldValue r.1⟩

/-- A row with the prices 1.5 and none is asked whether they are 1.50 and none. -/
theorem Options.compileCondition_meaning_prices :
    let c : Condition := ⟨.equal, "Prices", .list [.text "1.50", .null]⟩
    let p := prices.test (.sequenceEquals [some (.decimal ⟨150, 2⟩), none] false)
    ({} : Options).compileCondition (.ofColumns priced) c = .ok p ∧
      p.holds ([some ⟨.decimal ⟨15, 1⟩, by decide⟩, none], ()) = true ∧
      ∃ q v, (Schema.ofColumns priced).resolve .insensitive c.property = .ok q ∧
        c.literal.Decodes q.descriptor.kind v ∧
        ∀ a, ∃ meaning, c.op.Means (q.read a) v meaning ∧ (p.holds a = true ↔ meaning) := by
  intro c p
  have hresolve : (Schema.ofColumns priced).resolve .insensitive "Prices" = .ok prices := rfl
  have h : ({} : Options).compileCondition (.ofColumns priced) c = .ok p :=
    bind_eq_ok_iff.mpr ⟨prices, hresolve, bind_eq_ok_iff.mpr ⟨_, rfl, rfl⟩⟩
  exact ⟨h, by decide +kernel,
    Options.compileCondition_meaning (Schema.ofFields_ofColumns priced) h⟩

end FilterQuery
