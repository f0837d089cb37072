import FilterQuery.Proofs.Joining
import FilterQuery.Proofs.Meaning
import FilterQuery.Proofs.Value.Congruence

namespace FilterQuery

/-- Whether a single value is there and neither it nor a bound is NaN. -/
def FieldValue.Ordered (x : FieldValue) (bound : Scalar) : Prop :=
  ∃ y, x = .scalar y ∧ y.isNaN = false ∧ bound.isNaN = false

theorem FieldValue.eq_scalar_of_scalar? {x : FieldValue} {y : Scalar} (h : x.scalar? = some y) :
    x = .scalar y := by
  cases x with
  | scalar => exact congrArg scalar (Option.some.inj h)
  | _ => cases h

/-! ## Thresholds -/

namespace Relation.Relates

variable {x v w : Scalar}

theorem less_mono (hx : less.Relates x v) (h : lessOrEqual.Relates v w) : less.Relates x w := by
  rcases h with hvw | hvw
  · exact hx.trans hvw
  · exact hx.trans_equal hvw

theorem lessOrEqual_mono (hx : lessOrEqual.Relates x v) (h : lessOrEqual.Relates v w) :
    lessOrEqual.Relates x w := by
  rcases hx with hxv | hxv
  · exact .inl (less_mono hxv h)
  · rcases h with hvw | hvw
    · exact .inl (hxv.trans_less hvw)
    · exact .inr (hxv.trans hvw)

theorem greater_anti (hx : greater.Relates x w) (h : lessOrEqual.Relates v w) :
    greater.Relates x v := by
  rcases h with hvw | hvw
  · exact hvw.trans hx
  · exact hvw.trans_less hx

theorem greaterOrEqual_anti (hx : greaterOrEqual.Relates x w) (h : lessOrEqual.Relates v w) :
    greaterOrEqual.Relates x v := by
  rcases hx with hxw | hxw
  · exact .inl (greater_anti hxw h)
  · rcases h with hvw | hvw
    · exact .inl (hvw.trans_equal hxw.symm)
    · exact .inr (hxw.trans hvw.symm)

end Relation.Relates

/-! ## Comparisons -/

namespace Comparison

variable {x : FieldValue} {v : Scalar}

theorem holds_order_scalar? {r : Relation} :
    (order r v).holds x = true ↔ ∃ y, x.scalar? = some y ∧ r.Relates y v := by
  rw [← holds_order_iff, holds, holds, FieldValue.scalar?_ofOption]

theorem holds_equals_scalar? :
    (equals (some v) false).holds x = true ↔ ∃ y, x.scalar? = some y ∧ y.Equal v := by
  have hholds : (equals (some v) false).holds x =
      (equals (some v) false).holds (.ofOption x.scalar?) := by
    rw [holds, holds, FieldValue.scalar?_ofOption]
  rw [hholds, holds_equals_iff]
  cases x.scalar? <;> simp

theorem holds_notEqual {m n : Comparison} (hm : m.operator = .equal) (hn : n.operator = .notEqual)
    (hpath : n.path = m.path) (hvalue : n.value = m.value) (x : FieldValue) :
    n.holds x = !m.holds x := by
  rcases generation_of_operator hm with ⟨v, rfl⟩ | ⟨vs, rfl⟩
  · rcases generation_of_operator hn with ⟨w, rfl⟩ | ⟨ws, rfl⟩
    · cases hvalue
      simp [holds]
    · cases hpath
  · rcases generation_of_operator hn with ⟨w, rfl⟩ | ⟨ws, rfl⟩
    · cases hpath
    · cases hvalue
      simp [holds]

end Comparison

namespace Condition

variable {d : Descriptor} {name : String} {l : Literal}

theorem comparison_equality {op : Operator} {m : Comparison} (hop : op.isEquality = true)
    (op' : Operator) (hop' : op'.isEquality = true)
    (h : (Condition.mk op name l).comparison d = .ok m) :
    ∃ n, (Condition.mk op' name l).comparison d = .ok n ∧ n.path = m.path ∧ n.operator = op' ∧
      n.value = m.value := by
  obtain ⟨hnull, hpath, hcoerce, _⟩ := stages_of_comparison h
  have hfits : (Condition.mk op' name l).Fits d m.path := by
    have hfits := fits_of_path hpath
    generalize m.path = p at hfits
    cases hfits with
    | equality hshape hl => exact .equality hshape hl hop'
    | sequenceEquals hshape hl => exact .sequenceEquals hshape hl hop'
    | order _ _ horder | oneOf _ _ horder | contains _ _ horder =>
      cases horder
      cases hop
    | edge _ _ hedge => cases op <;> cases hop <;> cases hedge
  have hmentions := rejectNull_eq_ok_iff.mp hnull
  have hdecodes := coerce_eq_ok_iff.mp hcoerce
  exact comparison_ok (rejectNull_eq_ok_iff.mpr hmentions) (path_of_fits hfits)
    (coerce_eq_ok_iff.mpr hdecodes)

/-- An order is tested of single values of an ordered kind against a value that is there. -/
theorem comparison_order_iff {r : Relation} {m : Comparison} :
    (Condition.mk (.order r) name l).comparison d = .ok m ↔
      d.shape.isSequence = false ∧ d.kind.isOrderable = true ∧
        ∃ t v, l = .single (.text t) ∧ d.kind.decode t = .ok v ∧ m = .order r v := by
  apply Iff.intro
  · intro h
    obtain ⟨hnull, hpath, hcoerce, hop⟩ := stages_of_comparison h
    have hfits := fits_of_path hpath
    generalize m.path = p at hfits
    cases hfits with
    | @order a _ hshape hl _ hkind =>
      cases hl
      obtain ⟨v, rfl⟩ := Comparison.generation_of_operator hop
      have hdecodes := (coerce_eq_ok_iff.mp hcoerce).1
      cases a with
      | null => exact hdecodes.elim
      | text t => exact ⟨hshape, hkind, t, v, rfl, hdecodes, rfl⟩
    | equality _ _ hequality | sequenceEquals _ _ hequality => cases hequality
    | edge _ _ hedge => cases hedge
    | oneOf _ _ hother | contains _ _ hother => cases hother
  · rintro ⟨hshape, hkind, t, v, rfl, ht, rfl⟩
    simp [comparison, rejectNull, path, single, coerceAtom, direct, hshape, hkind, ht,
      Literal.mentionsNull, Literal.isList, Literal.isNull, Operator.isOrdering, Operator.relation?,
      bind, Except.bind]

theorem comparison_equal_text {t : String} {v : Scalar} (hd : d.shape.isSequence = false)
    (ht : d.kind.decode t = .ok v) :
    (Condition.mk .equal name (.single (.text t))).comparison d = .ok (.equals (some v) false) := by
  simp [comparison, rejectNull, path, single, coerceAtom, direct, hd, ht, Literal.mentionsNull,
    Literal.isList, Operator.isOrdering, Operator.relation?, Operator.isEdge, Operator.isEquality,
    bind, Except.bind]

end Condition

/-! ## Records -/

/-- A test of a property as the first clause of a query. -/
def Clause.first (op : Operator) (property : String) (l : Literal) : Clause :=
  ⟨⟨op, property, l⟩, none⟩

namespace Options

variable {α : Type} {o : Options} {s : Schema α}

/-- Whether a clause compiles when it stands alone. -/
def Accepts (o : Options) (s : Schema α) (c : Clause) : Prop :=
  ∃ p, o.compileClauses s [c.alone] = .ok p

/-- Whether a record passes the test of a property against one written value. -/
def Meets (o : Options) (s : Schema α) (name : String) (op : Operator) (t : String) (a : α) :
    Prop :=
  o.Passes s (.first op name (.single (.text t))) a

theorem compileCondition_of_resolve {c : Condition} {q : Property α}
    (hq : s.resolve o.nameCase c.property = .ok q) :
    o.compileCondition s c = (c.comparison q.descriptor).map q.test := by
  simp only [compileCondition, hq, bind, Except.bind]
  cases c.comparison q.descriptor <;> rfl

theorem accepts_iff {c : Clause} {q : Property α}
    (hq : s.resolve o.nameCase c.property = .ok q) :
    o.Accepts s c ↔ ∃ m, c.comparison q.descriptor = .ok m := by
  rw [Accepts, compileClauses_alone, compileCondition_of_resolve hq]
  cases c.comparison q.descriptor <;> simp [Except.map]

theorem passes_iff_comparison {c : Clause} {q : Property α} {a : α}
    (hq : s.resolve o.nameCase c.property = .ok q) :
    o.Passes s c a ↔ ∃ m, c.comparison q.descriptor = .ok m ∧ m.holds (q.read a) = true := by
  rw [Passes, compileClauses_alone, compileCondition_of_resolve hq]
  cases c.comparison q.descriptor <;> simp [Except.map, Property.test]

theorem passes_of_comparison {c : Clause} {q : Property α} {m : Comparison} {a : α}
    (hq : s.resolve o.nameCase c.property = .ok q) (hm : c.comparison q.descriptor = .ok m) :
    o.Passes s c a ↔ m.holds (q.read a) = true := by
  simp [passes_iff_comparison hq, hm]

theorem not_accepts {c : Clause} {e : QueryError}
    (hq : s.resolve o.nameCase c.property = .error e) : ¬ o.Accepts s c := by
  rw [Accepts, compileClauses_alone, compileCondition, hq]
  simp [bind, Except.bind]

theorem accepts_equality {op op' : Operator} {name : String} {l : Literal}
    (hop : op.isEquality = true) (hop' : op'.isEquality = true)
    (h : o.Accepts s (.first op name l)) : o.Accepts s (.first op' name l) := by
  cases hq : s.resolve o.nameCase name with
  | error e => exact absurd h (not_accepts hq)
  | ok q =>
    obtain ⟨m, hm⟩ := (accepts_iff hq).mp h
    obtain ⟨n, hn, _⟩ := Condition.comparison_equality hop op' hop' hm
    exact (accepts_iff hq).mpr ⟨n, hn⟩

theorem passes_notEqual_iff {name : String} {l : Literal} (h : o.Accepts s (.first .equal name l))
    (a : α) : o.Passes s (.first .notEqual name l) a ↔ ¬ o.Passes s (.first .equal name l) a := by
  cases hq : s.resolve o.nameCase name with
  | error e => exact absurd h (not_accepts hq)
  | ok q =>
    obtain ⟨m, hm⟩ := (accepts_iff hq).mp h
    obtain ⟨_, _, _, hequal⟩ := Condition.stages_of_comparison hm
    obtain ⟨n, hn, hpath, hnotEqual, hvalue⟩ := Condition.comparison_equality rfl .notEqual rfl hm
    have hnegation := Comparison.holds_notEqual hequal hnotEqual hpath hvalue (q.read a)
    rw [passes_of_comparison hq hn, passes_of_comparison hq hm, hnegation]
    simp

variable {q : Property α} {name t : String} {v : Scalar} {a : α}

theorem meets_order_iff {r : Relation} (hq : s.resolve o.nameCase name = .ok q)
    (ht : q.descriptor.kind.decode t = .ok v) :
    o.Meets s name (.order r) t a ↔
      q.descriptor.shape.isSequence = false ∧ q.descriptor.kind.isOrderable = true ∧
        ∃ y, (q.read a).scalar? = some y ∧ r.Relates y v := by
  rw [Meets, passes_iff_comparison hq]
  apply Iff.intro
  · rintro ⟨m, hm, hholds⟩
    obtain ⟨hshape, hkind, t', w, hl, hw, rfl⟩ := Condition.comparison_order_iff.mp hm
    cases hl
    cases ht.symm.trans hw
    exact ⟨hshape, hkind, Comparison.holds_order_scalar?.mp hholds⟩
  · rintro ⟨hshape, hkind, hrelates⟩
    exact ⟨.order r v, Condition.comparison_order_iff.mpr ⟨hshape, hkind, t, v, rfl, ht, rfl⟩,
      Comparison.holds_order_scalar?.mpr hrelates⟩

theorem meets_equal_iff (hq : s.resolve o.nameCase name = .ok q)
    (hd : q.descriptor.shape.isSequence = false) (ht : q.descriptor.kind.decode t = .ok v) :
    o.Meets s name .equal t a ↔ ∃ y, (q.read a).scalar? = some y ∧ y.Equal v := by
  rw [Meets, passes_of_comparison hq (Condition.comparison_equal_text hd ht),
    Comparison.holds_equals_scalar?]

/-- What is in a relation to one bound and so in another relation to another bound passes both
tests. -/
theorem meets_order_imp {r r' : Relation} {u : String} {w : Scalar}
    (hq : s.resolve o.nameCase name = .ok q) (ht : q.descriptor.kind.decode t = .ok v)
    (hu : q.descriptor.kind.decode u = .ok w) (h : ∀ y, r.Relates y v → r'.Relates y w)
    (ha : o.Meets s name (.order r) t a) : o.Meets s name (.order r') u a := by
  obtain ⟨hd, hk, y, hy, hyv⟩ := (meets_order_iff hq ht).mp ha
  exact (meets_order_iff hq hu).mpr ⟨hd, hk, y, hy, h y hyv⟩

section Bound

variable (hq : s.resolve o.nameCase name = .ok q) (hd : q.descriptor.shape.isSequence = false)
  (hk : q.descriptor.kind.isOrderable = true) (ht : q.descriptor.kind.decode t = .ok v)

include hq hd hk ht

theorem meets_bound_iff {r : Relation} :
    o.Meets s name (.order r) t a ↔ ∃ y, (q.read a).scalar? = some y ∧ r.Relates y v := by
  simp only [meets_order_iff hq ht, hd, hk, true_and]

theorem accepts_order (r : Relation) :
    o.Accepts s (.first (.order r) name (.single (.text t))) :=
  (accepts_iff hq).mpr ⟨_, Condition.comparison_order_iff.mpr ⟨hd, hk, t, v, rfl, ht, rfl⟩⟩

theorem meets_lessOrEqual_iff :
    o.Meets s name (.order .lessOrEqual) t a ↔
      o.Meets s name (.order .less) t a ∨ o.Meets s name .equal t a := by
  simp only [meets_bound_iff hq hd hk ht, meets_equal_iff hq hd ht, Relation.Relates, and_or_left,
    exists_or]

theorem meets_greaterOrEqual_iff :
    o.Meets s name (.order .greaterOrEqual) t a ↔
      o.Meets s name (.order .greater) t a ∨ o.Meets s name .equal t a := by
  simp only [meets_bound_iff hq hd hk ht, meets_equal_iff hq hd ht, Relation.Relates, and_or_left,
    exists_or]

theorem meets_exactlyOne (hfits : (q.read a).Fits q.descriptor) (h : (q.read a).Ordered v) :
    ExactlyOne (o.Meets s name (.order .less) t a) (o.Meets s name .equal t a)
      (o.Meets s name (.order .greater) t a) := by
  obtain ⟨y, hy, hyNaN, hvNaN⟩ := h
  rw [hy] at hfits
  have hvariety : y.variety = v.variety := by
    rw [Kind.Holds.variety hfits.2, Kind.Holds.variety (Kind.holds_of_decode ht)]
  have hcompare : y.compare v ≠ none := by
    rw [Ne, Scalar.compare_eq_none_iff]
    simp [hvariety, hyNaN, hvNaN]
  simp only [meets_bound_iff hq hd hk ht, meets_equal_iff hq hd ht, hy, FieldValue.scalar?,
    Option.some.injEq, exists_eq_left']
  exact Scalar.exactlyOne hcompare

theorem not_meets (h : ¬ (q.read a).Ordered v) :
    ¬ o.Meets s name (.order .less) t a ∧ ¬ o.Meets s name .equal t a ∧
      ¬ o.Meets s name (.order .greater) t a := by
  have hnone (y : Scalar) (hy : (q.read a).scalar? = some y) : y.compare v = none := by
    by_contra hcompare
    rw [Scalar.compare_eq_none_iff] at hcompare
    simp only [not_or, Bool.not_eq_true] at hcompare
    exact h ⟨y, FieldValue.eq_scalar_of_scalar? hy, hcompare.2⟩
  simp only [meets_bound_iff hq hd hk ht, meets_equal_iff hq hd ht, Relation.Relates, not_exists,
    not_and]
  exact ⟨fun y hy => (Scalar.not_related (hnone y hy)).1,
    fun y hy => (Scalar.not_related (hnone y hy)).2.1,
    fun y hy => (Scalar.not_related (hnone y hy)).2.2⟩

end Bound

/-- The tests for equality and order agree with one another. Of equality and inequality exactly
one holds wherever one of the two can be asked. Against a bound of an ordered kind every relation
can be asked; the weak relations are the strict ones or equality, and of the strict ones and
equality exactly one holds if there is a value of the declared type, as what a field holds always
is, and no NaN, else none. A greater bound has more values below it, a smaller one more above it. -/
theorem comparisons_consistent (o : Options) (s : Schema α) (name : String) :
    (∀ l,
      (o.Accepts s (.first .equal name l) ↔ o.Accepts s (.first .notEqual name l)) ∧
      (o.Accepts s (.first .equal name l) → ∀ a,
        (o.Passes s (.first .notEqual name l) a ↔ ¬ o.Passes s (.first .equal name l) a))) ∧
    ∀ q, s.resolve o.nameCase name = .ok q →
      (∀ t v, q.descriptor.shape.isSequence = false → q.descriptor.kind.isOrderable = true →
        q.descriptor.kind.decode t = .ok v →
        (∀ r, o.Accepts s (.first (.order r) name (.single (.text t)))) ∧ ∀ a,
          (o.Meets s name (.order .lessOrEqual) t a ↔
            o.Meets s name (.order .less) t a ∨ o.Meets s name .equal t a) ∧
          (o.Meets s name (.order .greaterOrEqual) t a ↔
            o.Meets s name (.order .greater) t a ∨ o.Meets s name .equal t a) ∧
          ((q.read a).Fits q.descriptor → (q.read a).Ordered v →
            ExactlyOne (o.Meets s name (.order .less) t a) (o.Meets s name .equal t a)
              (o.Meets s name (.order .greater) t a)) ∧
          (¬ (q.read a).Ordered v →
            ¬ o.Meets s name (.order .less) t a ∧ ¬ o.Meets s name .equal t a ∧
              ¬ o.Meets s name (.order .greater) t a)) ∧
      ∀ t u v w, q.descriptor.kind.decode t = .ok v → q.descriptor.kind.decode u = .ok w →
        Relation.lessOrEqual.Relates v w → ∀ a,
          (o.Meets s name (.order .less) t a → o.Meets s name (.order .less) u a) ∧
          (o.Meets s name (.order .lessOrEqual) t a → o.Meets s name (.order .lessOrEqual) u a) ∧
          (o.Meets s name (.order .greater) u a → o.Meets s name (.order .greater) t a) ∧
          (o.Meets s name (.order .greaterOrEqual) u a →
            o.Meets s name (.order .greaterOrEqual) t a) := by
  apply And.intro
  · intro l
    exact ⟨⟨accepts_equality rfl rfl, accepts_equality rfl rfl⟩, passes_notEqual_iff⟩
  intro q hq
  apply And.intro
  · intro t v hd hk ht
    refine ⟨accepts_order hq hd hk ht, ?_⟩
    intro a
    exact ⟨meets_lessOrEqual_iff hq hd hk ht, meets_greaterOrEqual_iff hq hd hk ht,
      meets_exactlyOne hq hd hk ht, not_meets hq hd hk ht⟩
  · intro t u v w ht hu hvw a
    exact ⟨meets_order_imp hq ht hu fun _ h => h.less_mono hvw,
      meets_order_imp hq ht hu fun _ h => h.lessOrEqual_mono hvw,
      meets_order_imp hq hu ht fun _ h => h.greater_anti hvw,
      meets_order_imp hq hu ht fun _ h => h.greaterOrEqual_anti hvw⟩

end Options

def leveled : List Column := [{ name := "level", type := .optional (.float .binary32) }]

def level : Property (Row leveled) :=
  ⟨"level", (FieldType.optional (.float .binary32)).descriptor,
    fun r => (FieldType.optional (.float .binary32)).fieldValue r.1⟩

/-- A row with the level 1.5, one with NaN and one with no level are asked for levels about 1.5
and 2. -/
theorem Options.comparisons_consistent_leveled :
    let o : Options := {}
    let s := Schema.ofColumns leveled
    let row (magnitude : Nat)
        (h : Kind.Holds (.float .binary32) (.float .binary32 ⟨false, magnitude⟩)) : Row leveled :=
      (some ⟨_, h⟩, ())
    let a := row 1069547520 (by decide)
    let b := row 2143289344 (by decide)
    let c : Row leveled := (none, ())
    ExactlyOne (o.Meets s "Level" (.order .less) "1.5" a) (o.Meets s "Level" .equal "1.5" a)
      (o.Meets s "Level" (.order .greater) "1.5" a) ∧
    ¬ o.Meets s "Level" .equal "1.5" b ∧ ¬ o.Meets s "Level" .equal "1.5" c ∧
    (o.Passes s (.first .notEqual "Level" (.single .null)) c ↔
      ¬ o.Passes s (.first .equal "Level" (.single .null)) c) ∧
    (o.Meets s "Level" (.order .lessOrEqual) "1.5" a →
      o.Meets s "Level" (.order .lessOrEqual) "2" a) := by
  intro o s row a b c
  have hresolve : s.resolve .insensitive "Level" = .ok level := rfl
  have ht : level.descriptor.kind.decode "1.5" = .ok (.float .binary32 ⟨false, 1069547520⟩) := by
    decide +kernel
  have hu : level.descriptor.kind.decode "2" = .ok (.float .binary32 ⟨false, 1073741824⟩) := by
    decide +kernel
  have hless : Relation.lessOrEqual.Relates (.float .binary32 ⟨false, 1069547520⟩)
      (.float .binary32 ⟨false, 1073741824⟩) :=
    .inl (Scalar.compare_eq_lt_iff.mp (by decide +kernel))
  have hnull : o.Accepts s (.first .equal "Level" (.single .null)) :=
    (accepts_iff hresolve).mpr ⟨.equals none false, rfl⟩
  obtain ⟨hequality, hbounds⟩ := Options.comparisons_consistent o s "Level"
  obtain ⟨hbound, hthresholds⟩ := hbounds level hresolve
  obtain ⟨_, hlaws⟩ := hbound "1.5" _ rfl rfl ht
  have hordered : (level.read a).Ordered (.float .binary32 ⟨false, 1069547520⟩) :=
    ⟨_, rfl, by decide, by decide⟩
  have hNaN : ¬ (level.read b).Ordered (.float .binary32 ⟨false, 1069547520⟩) := by
    rintro ⟨y, hy, hyNaN, _⟩
    cases hy
    revert hyNaN
    decide
  have hnone : ¬ (level.read c).Ordered (.float .binary32 ⟨false, 1069547520⟩) := by
    rintro ⟨y, hy, _⟩
    cases hy
  refine ⟨(hlaws a).2.2.1 ?_ hordered, ((hlaws b).2.2.2 hNaN).2.1, ((hlaws c).2.2.2 hnone).2.1,
    (hequality _).2 hnull c, (hthresholds "1.5" "2" _ _ ht hu hless a).2.1⟩
  exact FieldType.fits_fieldValue (.optional (.float .binary32)) a.1

end FilterQuery
