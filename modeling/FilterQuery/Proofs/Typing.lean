import FilterQuery.Filter.Match
import FilterQuery.Proofs.Validation
import FilterQuery.Proofs.Value.Decoding
import Mathlib.Data.List.Forall2

namespace FilterQuery

/-- The variety of a value, of which only two can be compared. -/
inductive Variety where
  | bool
  | char
  | int
  | uint
  | float (format : BinaryFormat)
  | decimal
  | string
  | dateTime
  | duration
  | uuid
  deriving DecidableEq, Repr

def Kind.variety : Kind → Variety
  | .bool => .bool
  | .char => .char
  | .integer t => if t.signed then .int else .uint
  | .float f => .float f
  | .decimal => .decimal
  | .string => .string
  | .dateTime => .dateTime
  | .duration => .duration
  | .uuid => .uuid

namespace Scalar

def variety : Scalar → Variety
  | .bool _ => .bool
  | .char _ => .char
  | .int _ => .int
  | .uint _ => .uint
  | .float f _ => .float f
  | .decimal _ => .decimal
  | .string _ => .string
  | .dateTime _ => .dateTime
  | .duration _ => .duration
  | .uuid _ => .uuid

def isNaN : Scalar → Bool
  | .float f x => x.isNaN f
  | _ => false

variable {a b : Scalar}

theorem compare_eq_none_iff :
    a.compare b = none ↔ a.variety ≠ b.variety ∨ a.isNaN = true ∨ b.isNaN = true := by
  cases a with
  | float f x =>
    cases b with
    | float g y =>
      by_cases hfg : f = g
      · subst hfg
        simp only [compare, variety, isNaN, Binary.compare, if_true]
        cases x.isNaN f <;> cases y.isNaN f <;> simp
      · simp [compare, variety, hfg]
    | _ => simp [compare, variety]
  | _ => cases b <;> simp [compare, variety, isNaN]

end Scalar

theorem Kind.Holds.variety {k : Kind} {v : Scalar} (h : k.Holds v) : v.variety = k.variety := by
  unfold Kind.Holds at h
  split at h
  case h_3 => simp [Scalar.variety, Kind.variety, h.1]
  case h_4 => simp [Scalar.variety, Kind.variety, h.1]
  case h_5 => exact congrArg Variety.float h.1.symm
  case h_11 => exact h.elim
  all_goals rfl

namespace ScalarType

theorem exists_carrier_int {t : IntegerType} {n : Int} (hs : t.signed = true) (h : t.Holds n) :
    ∃ c : (integer t).Carrier, (integer t).scalar c = .int n := by
  have hcast : ((2 ^ (t.width.bits - 1) : Nat) : Int) = 2 ^ (t.width.bits - 1) := by simp
  simp only [IntegerType.Holds, IntegerType.depth, IntegerType.height, hs, if_true, Nat.pow_eq] at h
  have hpos := Nat.two_pow_pos (t.width.bits - 1)
  have hbits : 0 < t.width.bits := by cases t.width <;> decide
  have hn : (BitVec.ofInt t.width.bits n).toInt = n :=
    BitVec.toInt_ofInt_eq_self hbits (by omega) (by omega)
  exact ⟨BitVec.ofInt t.width.bits n, by simp [scalar, hs, hn]⟩

theorem exists_carrier_uint {t : IntegerType} {n : Nat} (hs : t.signed = false) (h : t.Holds n) :
    ∃ c : (integer t).Carrier, (integer t).scalar c = .uint n := by
  simp only [IntegerType.Holds, IntegerType.depth, IntegerType.height, hs, Bool.false_eq_true,
    if_false, Nat.pow_eq] at h
  have hpos := Nat.two_pow_pos t.width.bits
  have hlt : n < 2 ^ t.width.bits := by omega
  exact ⟨BitVec.ofNat t.width.bits n, by simp [scalar, hs, Nat.mod_eq_of_lt hlt]⟩

theorem exists_carrier_float {f : BinaryFormat} {x : Binary}
    (h : x.magnitude < Nat.pow 2 f.magnitudeBits) :
    ∃ c : (float f).Carrier, (float f).scalar c = .float f x := by
  have hmod : x.magnitude % 2 ^ f.magnitudeBits = x.magnitude := Nat.mod_eq_of_lt h
  refine ⟨BitVec.cons x.negative (BitVec.ofNat f.magnitudeBits x.magnitude), ?_⟩
  simp [scalar, hmod]

end ScalarType

/-- The values of a kind are those of the types that are of the kind. -/
theorem Kind.holds_iff {k : Kind} {v : Scalar} :
    k.Holds v ↔ ∃ t : ScalarType, t.kind = k ∧ ∃ c : t.Carrier, t.scalar c = v := by
  apply Iff.intro
  · intro h
    unfold Kind.Holds at h
    split at h
    case h_1 b => exact ⟨.bool, rfl, b, rfl⟩
    case h_2 c => exact ⟨.char, rfl, c, rfl⟩
    case h_3 t n => exact ⟨.integer t, rfl, ScalarType.exists_carrier_int h.1 h.2⟩
    case h_4 t n => exact ⟨.integer t, rfl, ScalarType.exists_carrier_uint h.1 h.2⟩
    case h_5 f g x =>
      obtain ⟨rfl, hx⟩ := h
      exact ⟨.float f, rfl, ScalarType.exists_carrier_float hx⟩
    case h_6 d =>
      have hscale : (BitVec.ofInt 64 d.scale).toInt = d.scale := by
        simp only [Decimal.scaleInRange, Bool.and_eq_true, decide_eq_true_eq, Nat.pow_eq] at h
        exact BitVec.toInt_ofInt_eq_self (by decide) (by simpa using h.1) (by simpa using h.2)
      exact ⟨.decimal, rfl, (d.digits, .ofInt 64 d.scale), by simp [ScalarType.scalar, hscale]⟩
    case h_7 s => exact ⟨.string, rfl, s, rfl⟩
    case h_8 t => exact ⟨.offsetTime, rfl, (t.seconds, ⟨t.nanos, h.1⟩, ⟨t.offset, h.2⟩), rfl⟩
    case h_9 d => exact ⟨.duration, rfl, ⟨d.nanos, h⟩, rfl⟩
    case h_10 u =>
      have hu : (BitVec.ofNat 128 u.value).toNat = u.value :=
        (BitVec.toNat_ofNat u.value 128).trans (Nat.mod_eq_of_lt h)
      exact ⟨.uuid, rfl, .ofNat 128 u.value, congrArg (Scalar.uuid ∘ Uuid.mk) hu⟩
    case h_11 => exact h.elim
  · intro h
    obtain ⟨t, rfl, c, rfl⟩ := h
    exact t.holds c

/-- Whether a single value, or an element of a sequence, can be one of a declared type. -/
def Descriptor.Admits (d : Descriptor) : Option Scalar → Prop
  | some v => d.kind.Holds v
  | none => d.acceptsNull = true

/-- Whether what a record holds is of a declared type. -/
def FieldValue.Fits (d : Descriptor) : FieldValue → Prop
  | .null => d.shape.isSequence = false ∧ d.Admits none
  | .scalar v => d.shape.isSequence = false ∧ d.Admits (some v)
  | .sequence items => d.shape.isSequence = true ∧ ∀ item ∈ items, d.Admits item

/-- What a record holds for a property that is no sequence. -/
def FieldValue.ofOption : Option Scalar → FieldValue
  | some v => .scalar v
  | none => .null

namespace FieldValue

@[simp] theorem scalar?_ofOption (x : Option Scalar) : (ofOption x).scalar? = x := by
  cases x <;> rfl

variable {d : Descriptor} {v : FieldValue}

theorem Fits.single (hv : v.Fits d) (hd : d.shape.isSequence = false) :
    ∃ x, v = .ofOption x ∧ d.Admits x := by
  cases v with
  | null => exact ⟨none, rfl, hv.2⟩
  | scalar x => exact ⟨some x, rfl, hv.2⟩
  | sequence items =>
    have hsequence := hv.1
    rw [hd] at hsequence
    cases hsequence

theorem Fits.sequence (hv : v.Fits d) (hd : d.shape.isSequence = true) :
    ∃ items, v = .sequence items ∧ ∀ item ∈ items, d.Admits item := by
  cases v with
  | sequence items => exact ⟨items, rfl, hv.2⟩
  | _ =>
    have hsingle := hv.1
    rw [hd] at hsingle
    cases hsingle

end FieldValue

theorem FieldType.fits_fieldValue (t : FieldType) (w : t.Stored) :
    (t.fieldValue w).Fits t.descriptor := by
  have hsequence (c : Container) : c.shape.isSequence = true := by cases c <;> rfl
  cases t with
  | plain k => exact ⟨rfl, Kind.Value.holds w⟩
  | optional k =>
    cases w with
    | none => exact ⟨rfl, rfl⟩
    | some v => exact ⟨rfl, v.holds⟩
  | sequence c k nullable =>
    cases nullable with
    | false =>
      refine ⟨hsequence c, ?_⟩
      intro item hitem
      obtain ⟨v, _, rfl⟩ := List.mem_map.mp hitem
      exact v.holds
    | true =>
      refine ⟨hsequence c, ?_⟩
      intro item hitem
      obtain ⟨v, _, rfl⟩ := List.mem_map.mp hitem
      cases v with
      | none => cases c <;> rfl
      | some v => exact v.holds

/-! ## Literals -/

theorem Atom.Decodes.admits_iff {d : Descriptor} {a : Atom} {v : Option Scalar}
    (h : a.Decodes d.kind v) : (v = none → d.acceptsNull = true) ↔ d.Admits v := by
  cases v with
  | none => simp [Descriptor.Admits]
  | some x =>
    cases a with
    | text s =>
      have hx : d.kind.Holds x := Kind.holds_of_decode h
      simp [Descriptor.Admits, hx]
    | null => exact h.elim

def Literal.Decodes (k : Kind) : Literal → Coerced → Prop
  | .single a, .single v => a.Decodes k v
  | .list as, .many vs => List.Forall₂ (Atom.Decodes k) as vs
  | _, _ => False

def Coerced.values : Coerced → List (Option Scalar)
  | .single v => [v]
  | .many vs => vs

namespace Condition

variable {c : Condition} {d : Descriptor}

theorem coerceAtom_admits {a : Atom} {v : Option Scalar} :
    c.coerceAtom d a = .ok v ↔ a.Decodes d.kind v ∧ d.Admits v :=
  coerceAtom_eq_ok_iff.trans (and_congr_right Atom.Decodes.admits_iff)

theorem coerceAtoms_eq_ok_iff {as : List Atom} {vs : List (Option Scalar)} :
    c.coerceAtoms d as = .ok vs ↔
      List.Forall₂ (Atom.Decodes d.kind) as vs ∧ ∀ v ∈ vs, d.Admits v := by
  induction as generalizing vs with
  | nil =>
    cases vs <;> simp [coerceAtoms]
  | cons a as ih =>
    have hcons : c.coerceAtoms d (a :: as) = .ok vs ↔
        ∃ x, c.coerceAtom d a = .ok x ∧ ∃ xs, c.coerceAtoms d as = .ok xs ∧ x :: xs = vs := by
      simp [coerceAtoms, bind_eq_ok_iff, pure, Except.pure]
    rw [hcons]
    apply Iff.intro
    · intro h
      obtain ⟨x, hx, xs, hxs, rfl⟩ := h
      obtain ⟨hdecodes, hadmits⟩ := coerceAtom_admits.mp hx
      obtain ⟨htail, hall⟩ := ih.mp hxs
      exact ⟨.cons hdecodes htail, List.forall_mem_cons.mpr ⟨hadmits, hall⟩⟩
    · intro h
      obtain ⟨hdecodes, hadmits⟩ := h
      cases hdecodes with
      | cons hhead htail =>
        obtain ⟨hx, hxs⟩ := List.forall_mem_cons.mp hadmits
        exact ⟨_, coerceAtom_admits.mpr ⟨hhead, hx⟩, _, ih.mpr ⟨htail, hxs⟩, rfl⟩

theorem coerce_eq_ok_iff {v : Coerced} :
    c.coerce d = .ok v ↔ c.literal.Decodes d.kind v ∧ ∀ x ∈ v.values, d.Admits x := by
  rw [coerce]
  cases c.literal with
  | single a =>
    cases v <;> simp [map_eq_ok_iff, coerceAtom_admits, Literal.Decodes, Coerced.values]
  | list as =>
    cases v <;> simp [map_eq_ok_iff, coerceAtoms_eq_ok_iff, Literal.Decodes, Coerced.values]

end Condition

/-- Whether a comparison can be made of the values of a declared type. -/
structure Comparison.Typed (d : Descriptor) (m : Comparison) : Prop where
  admits : ∀ v ∈ m.value.values, d.Admits v
  sequence : m.path = .contains ∨ m.path = .sequenceEquals ↔ d.shape.isSequence = true
  order : ∀ r bound, m = .order r bound → d.kind.isOrderable = true
  edge : ∀ e text, m = .edge e text → d.kind = .string

theorem Condition.typed_of_comparison {c : Condition} {d : Descriptor} {m : Comparison}
    (h : c.comparison d = .ok m) : m.Typed d := by
  obtain ⟨_, hpath, hcoerce, hop⟩ := stages_of_comparison h
  have hfits := fits_of_path hpath
  constructor
  case admits => exact (coerce_eq_ok_iff.mp hcoerce).2
  case sequence =>
    generalize m.path = p at hfits
    cases hfits with
    | equality hshape | order hshape | edge hshape | oneOf hshape => simp [hshape]
    | contains hshape | sequenceEquals hshape => simp [hshape]
  case order =>
    rintro r bound rfl
    cases hfits with
    | order _ _ _ hkind => exact hkind
    | equality _ _ hequality => simp [← hop, Comparison.operator, Operator.isEquality] at hequality
    | edge _ _ hedge => simp [← hop, Comparison.operator, Operator.isEdge] at hedge
  case edge =>
    rintro e text rfl
    cases hfits with
    | edge _ _ _ hkind => exact hkind
    | equality _ _ hequality =>
      cases e <;> simp [← hop, Comparison.operator, Operator.isEquality] at hequality
    | order _ _ horder => cases e <;> simp [← hop, Comparison.operator] at horder

/-! ## What is done while a comparison is evaluated -/

/-- What a comparison does to reach its verdict: it compares two values, or it reads a value of
a form that it has no use for. -/
inductive Use where
  | compared (a b : Scalar)
  | sequenceAsSingle
  | singleAsSequence
  | valueAsString (v : Scalar)
  deriving DecidableEq, Repr

structure Traced (α : Type) where
  result : α
  uses : List Use
  deriving DecidableEq, Repr

namespace Traced

variable {α β : Type} {P : Use → Prop}

instance : Monad Traced where
  pure a := ⟨a, []⟩
  bind x f := ⟨(f x.result).result, x.uses ++ (f x.result).uses⟩

instance : LawfulMonad Traced :=
  .mk' Traced
    (fun x => congrArg (Traced.mk x.result) (List.append_nil x.uses))
    (fun _ _ => rfl)
    (fun x f g => congrArg (Traced.mk _) (List.append_assoc x.uses _ _))

@[simp] theorem result_pure (a : α) : (pure a : Traced α).result = a := rfl

@[simp] theorem result_bind (x : Traced α) (f : α → Traced β) :
    (x >>= f).result = (f x.result).result := rfl

@[simp] theorem result_map (f : α → β) (x : Traced α) : (f <$> x).result = f x.result := rfl

/-- Whether nothing else has been done than what is allowed. -/
def Within (P : Use → Prop) (x : Traced α) : Prop :=
  ∀ u ∈ x.uses, P u

theorem within_pure (a : α) : (pure a : Traced α).Within P :=
  List.forall_mem_nil P

theorem Within.bind {x : Traced α} {f : α → Traced β} (hx : x.Within P)
    (hf : (f x.result).Within P) : (x >>= f).Within P :=
  List.forall_mem_append.mpr ⟨hx, hf⟩

theorem result_anyM (f : α → Traced Bool) (as : List α) :
    (as.anyM f).result = as.any fun a => (f a).result := by
  induction as with
  | nil => rfl
  | cons a as ih =>
    rw [List.anyM, List.any_cons, result_bind, ← ih]
    cases (f a).result <;> rfl

theorem result_allM (f : α → Traced Bool) (as : List α) :
    (as.allM f).result = as.all fun a => (f a).result := by
  induction as with
  | nil => rfl
  | cons a as ih =>
    rw [List.allM, List.all_cons, result_bind, ← ih]
    cases (f a).result <;> rfl

theorem within_anyM {f : α → Traced Bool} {as : List α} (h : ∀ a ∈ as, (f a).Within P) :
    (as.anyM f).Within P := by
  induction as with
  | nil => exact within_pure false
  | cons a as ih =>
    obtain ⟨ha, has⟩ := List.forall_mem_cons.mp h
    refine ha.bind ?_
    cases (f a).result with
    | true => exact within_pure true
    | false => exact ih has

theorem within_allM {f : α → Traced Bool} {as : List α} (h : ∀ a ∈ as, (f a).Within P) :
    (as.allM f).Within P := by
  induction as with
  | nil => exact within_pure true
  | cons a as ih =>
    obtain ⟨ha, has⟩ := List.forall_mem_cons.mp h
    refine ha.bind ?_
    cases (f a).result with
    | true => exact ih has
    | false => exact within_pure false

def compare (a b : Scalar) : Traced (Option Ordering) :=
  ⟨a.compare b, [.compared a b]⟩

def optionalEquals : Option Scalar → Option Scalar → Traced Bool
  | none, none => pure true
  | some a, some b => return (← compare a b) == some .eq
  | _, _ => pure false

def string? : Scalar → Traced (Option String)
  | .string s => pure (some s)
  | v => ⟨none, [.valueAsString v]⟩

def scalar? : FieldValue → Traced (Option Scalar)
  | .null => pure none
  | .scalar v => pure (some v)
  | .sequence _ => ⟨none, [.sequenceAsSingle]⟩

def sequence? : FieldValue → Traced (Option (List (Option Scalar)))
  | .sequence items => pure (some items)
  | _ => ⟨none, [.singleAsSequence]⟩

@[simp] theorem result_compare (a b : Scalar) : (compare a b).result = a.compare b := rfl

@[simp] theorem result_optionalEquals (a b : Option Scalar) :
    (optionalEquals a b).result = Scalar.optionalEquals a b := by
  cases a <;> cases b <;> rfl

@[simp] theorem result_string? (v : Scalar) : (string? v).result = v.string? := by
  cases v <;> rfl

@[simp] theorem result_scalar? (v : FieldValue) : (scalar? v).result = v.scalar? := by
  cases v <;> rfl

theorem scalar?_ofOption (x : Option Scalar) : scalar? (.ofOption x) = pure x := by
  cases x <;> rfl

@[simp] theorem result_sequence? (v : FieldValue) : (sequence? v).result = v.sequence? := by
  cases v <;> rfl

end Traced

/-- The verdict of a comparison about a value and what is done for it, from left to right and no
longer than the verdict is open. -/
def Comparison.trace (m : Comparison) (v : FieldValue) : Traced Bool :=
  match m with
  | .equals expected negate => do
    let equal ← Traced.optionalEquals (← Traced.scalar? v) expected
    return equal != negate
  | .order r bound => do
    match ← Traced.scalar? v with
    | some a =>
      match ← Traced.compare a bound with
      | some o => return r.holds o
      | none => return false
    | none => return false
  | .edge e text => do
    match ← Traced.scalar? v with
    | some a =>
      match ← Traced.string? a with
      | some s => return e.holds text s
      | none => return false
    | none => return false
  | .oneOf candidates => do
    let actual ← Traced.scalar? v
    candidates.anyM (Traced.optionalEquals actual)
  | .contains needle => do
    match ← Traced.sequence? v with
    | some items => items.anyM (Traced.optionalEquals · needle)
    | none => return false
  | .sequenceEquals expected negate => do
    match ← Traced.sequence? v with
    | some items =>
      if items.length = expected.length then
        let equal ← (items.zip expected).allM fun pair => Traced.optionalEquals pair.1 pair.2
        return equal != negate
      else return false != negate
    | none => return false != negate

theorem sameElements_eq (as bs : List (Option Scalar)) :
    sameElements as bs = (as.length == bs.length &&
      (as.zip bs).all fun pair => Scalar.optionalEquals pair.1 pair.2) := by
  induction as generalizing bs with
  | nil => cases bs <;> simp [sameElements]
  | cons a as ih =>
    cases bs with
    | nil => simp [sameElements]
    | cons b bs => simp [sameElements, ih, Bool.and_left_comm]

theorem Comparison.result_trace (m : Comparison) (v : FieldValue) :
    (m.trace v).result = m.holds v := by
  cases m with
  | equals expected negate => simp [trace, holds]
  | order r bound =>
    simp only [trace, holds, Traced.result_bind, Traced.result_scalar?]
    cases v.scalar? with
    | none => rfl
    | some a => cases h : a.compare bound <;> simp [h]
  | edge e text =>
    simp only [trace, holds, Traced.result_bind, Traced.result_scalar?]
    cases v.scalar? with
    | none => rfl
    | some a => cases h : a.string? <;> simp [h]
  | oneOf candidates => simp [trace, holds, Traced.result_anyM]
  | contains needle =>
    simp only [trace, holds, Traced.result_bind, Traced.result_sequence?]
    cases v.sequence? with
    | none => rfl
    | some items => simp [Traced.result_anyM]
  | sequenceEquals expected negate =>
    simp only [trace, holds, Traced.result_bind, Traced.result_sequence?]
    cases v.sequence? with
    | none => rfl
    | some items =>
      simp only [sameElements_eq]
      by_cases h : items.length = expected.length
      · simp [h, Traced.result_allM]
      · simp [h, beq_eq_false_iff_ne.mpr h]

/-! ## Soundness -/

/-- What may be done with the values of a kind: only two of them are compared, and the result is
no order only if one of the two is not a number. -/
def Use.Sound (k : Kind) : Use → Prop
  | .compared a b =>
    k.Holds a ∧ k.Holds b ∧ a.variety = b.variety ∧
      (a.compare b = none → a.isNaN = true ∨ b.isNaN = true)
  | _ => False

namespace Traced

variable {d : Descriptor}

theorem within_compare {k : Kind} {a b : Scalar} (ha : k.Holds a) (hb : k.Holds b) :
    (compare a b).Within (Use.Sound k) := by
  have hvariety : a.variety = b.variety := ha.variety.trans hb.variety.symm
  refine List.forall_mem_singleton.mpr ⟨ha, hb, hvariety, ?_⟩
  intro h
  rcases Scalar.compare_eq_none_iff.mp h with h | h
  · exact absurd hvariety h
  · exact h

theorem within_optionalEquals {a b : Option Scalar} (ha : d.Admits a) (hb : d.Admits b) :
    (optionalEquals a b).Within (Use.Sound d.kind) := by
  cases a with
  | none => cases b <;> exact within_pure _
  | some a =>
    cases b with
    | none => exact within_pure false
    | some b => exact (within_compare ha hb).bind (within_pure _)

end Traced

namespace Comparison

variable {d : Descriptor} {m : Comparison} {v : FieldValue}

theorem Typed.single (h : m.Typed d) (hm : m.path = .direct ∨ m.path = .oneOf) :
    d.shape.isSequence = false := by
  rw [← Bool.not_eq_true, ← h.sequence]
  rcases hm with hm | hm <;> simp [hm]

theorem Typed.within_trace (hm : m.Typed d) (hv : v.Fits d) :
    (m.trace v).Within (Use.Sound d.kind) := by
  have hadmits := hm.admits
  cases m with
  | equals expected negate =>
    obtain ⟨a, rfl, ha⟩ := hv.single (hm.single (.inl rfl))
    have hexpected := hadmits expected (List.mem_singleton.mpr rfl)
    rw [trace, Traced.scalar?_ofOption, pure_bind]
    exact (Traced.within_optionalEquals ha hexpected).bind (Traced.within_pure _)
  | order r bound =>
    obtain ⟨a, rfl, ha⟩ := hv.single (hm.single (.inl rfl))
    have hbound : d.kind.Holds bound := hadmits (some bound) (List.mem_singleton.mpr rfl)
    rw [trace, Traced.scalar?_ofOption, pure_bind]
    cases a with
    | none => exact Traced.within_pure false
    | some a =>
      refine (Traced.within_compare ha hbound).bind ?_
      cases (Traced.compare a bound).result <;> exact Traced.within_pure _
  | edge e text =>
    obtain ⟨a, rfl, ha⟩ := hv.single (hm.single (.inl rfl))
    rw [trace, Traced.scalar?_ofOption, pure_bind]
    cases a with
    | none => exact Traced.within_pure false
    | some a =>
      have hstring : Kind.string.Holds a := hm.edge e text rfl ▸ ha
      cases a with
      | string s => exact Traced.within_pure _
      | _ => exact hstring.elim
  | oneOf candidates =>
    obtain ⟨a, rfl, ha⟩ := hv.single (hm.single (.inr rfl))
    rw [trace, Traced.scalar?_ofOption, pure_bind]
    refine Traced.within_anyM ?_
    intro candidate hcandidate
    exact Traced.within_optionalEquals ha (hadmits candidate hcandidate)
  | contains needle =>
    obtain ⟨items, rfl, hitems⟩ := hv.sequence (hm.sequence.mp (.inl rfl))
    have hneedle := hadmits needle (List.mem_singleton.mpr rfl)
    rw [trace, Traced.sequence?, pure_bind]
    refine Traced.within_anyM ?_
    intro item hitem
    exact Traced.within_optionalEquals (hitems item hitem) hneedle
  | sequenceEquals expected negate =>
    obtain ⟨items, rfl, hitems⟩ := hv.sequence (hm.sequence.mp (.inr rfl))
    have hpairs : ((items.zip expected).allM fun pair =>
        Traced.optionalEquals pair.1 pair.2).Within (Use.Sound d.kind) := by
      refine Traced.within_allM ?_
      rintro ⟨item, want⟩ hpair
      obtain ⟨hitem, hwant⟩ := List.of_mem_zip hpair
      exact Traced.within_optionalEquals (hitems item hitem) (hadmits want hwant)
    rw [trace, Traced.sequence?, pure_bind]
    -- Only sequences of one length are compared at all, so the pairs leave no element out.
    by_cases hlength : items.length = expected.length
    · simp only [hlength, if_true]
      exact hpairs.bind (Traced.within_pure _)
    · simp only [hlength, if_false]
      exact Traced.within_pure _

end Comparison

/-- A comparison that is made for the type of a field fits what the field holds, whatever that is:
its literal is of the type, and for its verdict only values of one variety are compared, with no
order between them only if one is not a number. -/
theorem FieldType.comparison_sound (t : FieldType) (w : t.Stored) {c : Condition} {m : Comparison}
    (h : c.comparison t.descriptor = .ok m) :
    m.Typed t.descriptor ∧ (t.fieldValue w).Fits t.descriptor ∧
      (∀ (α : Type) (p : Property α) (a : α), p.read a = t.fieldValue w →
        (p.test m).holds a = (m.trace (t.fieldValue w)).result) ∧
      (m.trace (t.fieldValue w)).Within (Use.Sound t.descriptor.kind) := by
  have htyped := Condition.typed_of_comparison h
  have hfits := t.fits_fieldValue w
  refine ⟨htyped, hfits, ?_, htyped.within_trace hfits⟩
  intro α p a hread
  rw [Comparison.result_trace, ← hread]
  rfl

/-- The scores 3, none, -7 and 5 are searched for -7. -/
theorem FieldType.comparison_sound_scores :
    let k : Kind := .integer ⟨true, .w16⟩
    let t : FieldType := .sequence .vector k true
    let w : List (Option k.Value) :=
      [some ⟨.int 3, by decide⟩, none, some ⟨.int (-7), by decide⟩, some ⟨.int 5, by decide⟩]
    let m : Comparison := .contains (some (.int (-7)))
    (Condition.mk .contains "scores" (.single (.text "-7"))).comparison t.descriptor = .ok m ∧
      m.trace (t.fieldValue w) =
        ⟨true, [.compared (.int 3) (.int (-7)), .compared (.int (-7)) (.int (-7))]⟩ ∧
      m.Typed t.descriptor ∧ (t.fieldValue w).Fits t.descriptor ∧
      (∀ (α : Type) (p : Property α) (a : α), p.read a = t.fieldValue w →
        (p.test m).holds a = (m.trace (t.fieldValue w)).result) ∧
      (m.trace (t.fieldValue w)).Within (Use.Sound k) := by
  intro k t w m
  have h : (Condition.mk .contains "scores" (.single (.text "-7"))).comparison t.descriptor =
      .ok m := by rfl
  exact ⟨h, by decide, FieldType.comparison_sound t w h⟩

end FilterQuery
