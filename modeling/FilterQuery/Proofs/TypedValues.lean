import FilterQuery.Proofs.Joining
import FilterQuery.Proofs.Printing
import FilterQuery.Proofs.Value.Exact
import FilterQuery.Record.Written

namespace FilterQuery

/-! ## What is written for a value -/

theorem Kind.decode_nullText {k : Kind} (hk : k.isExact = true) (hs : k ≠ .string) :
    ∃ e, k.decode nullText = .error e := by
  cases k with
  | float => cases hk
  | decimal => cases hk
  | dateTime => cases hk
  | string => exact absurd rfl hs
  | _ => exact ⟨_, rfl⟩

/-- Of the values of an exact kind only the reserved text itself is written as that text. -/
theorem Kind.Holds.encode_eq_nullText_iff {k : Kind} {v : Scalar} (hk : k.isExact = true)
    (h : k.Holds v) : v.encode = nullText ↔ v = .string nullText := by
  apply Iff.intro
  · intro he
    have hdecode := h.decode_encode hk
    rw [he] at hdecode
    by_cases hs : k = .string
    · subst hs
      exact (Except.ok.inj hdecode).symm
    · obtain ⟨e, herror⟩ := Kind.decode_nullText hk hs
      rw [herror] at hdecode
      cases hdecode
  · intro hv
    rw [hv]
    rfl

theorem Kind.Value.eq_of_scalar {k : Kind} {x y : k.Value} (h : x.scalar = y.scalar) : x = y := by
  cases x
  cases y
  cases h
  rfl

namespace FieldType

variable {t : FieldType} {v w : t.Stored}

/-- Whether the type is one of single values each of which equals itself alone. -/
def isExact : FieldType → Bool
  | .plain k | .optional k => k.isExact
  | .sequence .. => false

def atom (t : FieldType) (v : t.Stored) : Atom :=
  Scalar.toAtom (t.fieldValue v).scalar?

def listLiteral (t : FieldType) (vs : List t.Stored) : Literal :=
  .list (vs.map t.atom)

/-- Whether a value is the text that is reserved for absent ones. -/
def Reserved (t : FieldType) (v : t.Stored) : Prop :=
  t.fieldValue v = .scalar (.string nullText)

instance : Decidable (t.Reserved v) :=
  inferInstanceAs (Decidable (_ = _))

def taken (t : FieldType) (v : t.Stored) : Option Scalar :=
  if t.Reserved v then none else (t.fieldValue v).scalar?

theorem listLiteral_plain {k : Kind} (c : Container) (vs : List k.Value) :
    (plain k).listLiteral vs = (sequence c k false).literal vs :=
  rfl

theorem listLiteral_optional {k : Kind} (c : Container) (vs : List (Option k.Value)) :
    (optional k).listLiteral vs = (sequence c k true).literal vs := by
  have hatom (v : Option k.Value) : (optional k).atom v = Scalar.toAtom (v.map (·.scalar)) := by
    cases v <;> rfl
  exact congrArg Literal.list (List.map_congr_left fun v _ => hatom v)

theorem literal_eq (ht : t.isExact = true) : t.literal v = .single (t.atom v) := by
  cases t with
  | plain k => rfl
  | optional k => cases v <;> rfl
  | sequence => cases ht

theorem fieldValue_inj (ht : t.isExact = true) : t.fieldValue v = t.fieldValue w ↔ v = w := by
  apply Iff.intro
  · intro h
    cases t with
    | plain k => exact Kind.Value.eq_of_scalar (FieldValue.scalar.inj h)
    | optional k =>
      cases v with
      | none =>
        cases w with
        | none => rfl
        | some y => cases h
      | some x =>
        cases w with
        | none => cases h
        | some y => exact congrArg some (Kind.Value.eq_of_scalar (FieldValue.scalar.inj h))
    | sequence => cases ht
  · exact congrArg t.fieldValue

/-- A field of an exact type holds nothing, or a value of an exact kind. -/
theorem fieldValue_cases (ht : t.isExact = true) (v : t.Stored) :
    t.fieldValue v = .null ∧ t.descriptor.acceptsNull = true ∨
      ∃ x, t.fieldValue v = .scalar x ∧ t.descriptor.kind.isExact = true ∧
        t.descriptor.kind.Holds x := by
  cases t with
  | plain k => exact .inr ⟨v.scalar, rfl, ht, v.holds⟩
  | optional k =>
    cases v with
    | none => exact .inl ⟨rfl, rfl⟩
    | some x => exact .inr ⟨x.scalar, rfl, ht, x.holds⟩
  | sequence => cases ht

theorem readBack_atom_of_reserved (h : t.Reserved v) : (t.atom v).readBack = .null := by
  rw [atom, h]
  rfl

/-- What is written for any other value is read back as the value, absent or not. -/
theorem readBack_atom (ht : t.isExact = true) (h : ¬ t.Reserved v) :
    t.fieldValue v = .null ∧ t.descriptor.acceptsNull = true ∧ (t.atom v).readBack = .null ∨
      ∃ x, t.fieldValue v = .scalar x ∧ (t.atom v).readBack = .text x.encode ∧
        t.descriptor.kind.decode x.encode = .ok x := by
  rcases fieldValue_cases ht v with ⟨hnull, hd⟩ | ⟨x, hx, hk, hholds⟩
  · refine .inl ⟨hnull, hd, ?_⟩
    rw [atom, hnull]
    rfl
  · have hne : x.encode ≠ nullText := by
      intro he
      rw [hholds.encode_eq_nullText_iff hk] at he
      exact h (hx.trans (congrArg FieldValue.scalar he))
    refine .inr ⟨x, hx, ?_, hholds.decode_encode hk⟩
    rw [atom, hx]
    exact if_neg hne

theorem acceptsNull_of_readBack_atom (ht : t.isExact = true)
    (hv : t.Reserved v → t.descriptor.acceptsNull = true) (h : (t.atom v).readBack = .null) :
    t.descriptor.acceptsNull = true := by
  by_cases hr : t.Reserved v
  · exact hv hr
  · rcases readBack_atom ht hr with ⟨_, hd, _⟩ | ⟨x, _, htext, _⟩
    · exact hd
    · rw [htext] at h
      cases h

theorem isSequence_descriptor (ht : t.isExact = true) :
    t.descriptor.shape.isSequence = false := by
  cases t with
  | sequence => cases ht
  | _ => rfl

theorem optionalEquals_fieldValue (ht : t.isExact = true) (o : Option Scalar) :
    Scalar.optionalEquals (t.fieldValue w).scalar? o = true ↔ (t.fieldValue w).scalar? = o := by
  rcases fieldValue_cases ht w with ⟨hnull, _⟩ | ⟨x, hx, hk, hholds⟩
  · rw [hnull]
    cases o <;> simp [FieldValue.scalar?, Scalar.optionalEquals]
  · rw [hx]
    cases o with
    | none => simp [FieldValue.scalar?, Scalar.optionalEquals]
    | some y => simp [FieldValue.scalar?, Scalar.optionalEquals, hholds.equals_iff_eq hk]

theorem scalar?_eq_none_iff (ht : t.isExact = true) :
    (t.fieldValue w).scalar? = none ↔ t.fieldValue w = .null := by
  rcases fieldValue_cases ht w with ⟨hnull, _⟩ | ⟨x, hx, _⟩
  · simp [hnull, FieldValue.scalar?]
  · simp [hx, FieldValue.scalar?]

theorem scalar?_inj (ht : t.isExact = true) :
    (t.fieldValue w).scalar? = (t.fieldValue v).scalar? ↔ w = v := by
  rw [← fieldValue_inj ht]
  rcases fieldValue_cases ht v with ⟨hnull, _⟩ | ⟨x, hx, _⟩
  · rw [hnull]
    exact scalar?_eq_none_iff ht
  · rw [hx]
    rcases fieldValue_cases ht w with ⟨hnull, _⟩ | ⟨y, hy, _⟩
    · simp [hnull, FieldValue.scalar?]
    · simp [hy, FieldValue.scalar?]

theorem equals_taken_iff (ht : t.isExact = true) :
    Scalar.optionalEquals (t.fieldValue w).scalar? (t.taken v) = true ↔
      t.Reserved v ∧ t.fieldValue w = .null ∨ ¬ t.Reserved v ∧ w = v := by
  rw [optionalEquals_fieldValue ht, taken]
  by_cases hr : t.Reserved v
  · simp [hr, scalar?_eq_none_iff ht]
  · simp [hr, scalar?_inj ht]

end FieldType

namespace Condition

variable {c : Condition} {d : Descriptor} {t : FieldType} {v : t.Stored}

theorem coerceAtom_atom (ht : t.isExact = true)
    (hv : t.Reserved v → t.descriptor.acceptsNull = true) :
    c.coerceAtom t.descriptor (t.atom v).readBack = .ok (t.taken v) := by
  by_cases hr : t.Reserved v
  · rw [FieldType.readBack_atom_of_reserved hr, FieldType.taken, if_pos hr, coerceAtom,
      if_pos (hv hr)]
  · rw [FieldType.taken, if_neg hr]
    rcases FieldType.readBack_atom ht hr with ⟨hnull, hd, hread⟩ | ⟨x, hx, hread, hdecode⟩
    · rw [hread, hnull, coerceAtom, if_pos hd]
      rfl
    · rw [hread, hx, coerceAtom, hdecode]
      rfl

theorem coerceAtoms_atoms (ht : t.isExact = true) {vs : List t.Stored}
    (hvs : ∀ v ∈ vs, t.Reserved v → t.descriptor.acceptsNull = true) :
    c.coerceAtoms t.descriptor ((vs.map t.atom).map Atom.readBack) =
      .ok (vs.map t.taken) := by
  induction vs with
  | nil => rfl
  | cons v vs ih =>
    have hhead := coerceAtom_atom (c := c) ht (hvs v List.mem_cons_self)
    have htail := ih fun u hu => hvs u (List.mem_cons_of_mem v hu)
    simp only [List.map_cons, coerceAtoms, hhead, htail]
    rfl

theorem rejectNull_eq_ok (hn : c.literal.mentionsNull = true → d.acceptsNull = true) :
    c.rejectNull d = .ok () := by
  cases hm : c.literal.mentionsNull with
  | false => simp [rejectNull, hm]
  | true => simp [rejectNull, hn hm]

theorem comparison_equal {name : String} {a : Atom} (hd : d.shape.isSequence = false)
    (hn : a = .null → d.acceptsNull = true) :
    (⟨.equal, name, .single a⟩ : Condition).comparison d =
      ((⟨.equal, name, .single a⟩ : Condition).coerceAtom d a).map fun v => .equals v false := by
  have hreject : (⟨.equal, name, .single a⟩ : Condition).rejectNull d = .ok () :=
    rejectNull_eq_ok fun hm => hn (by simpa [Literal.mentionsNull] using hm)
  have hpath : (⟨.equal, name, .single a⟩ : Condition).path d = .ok .direct := by
    rw [path, hd]
    rfl
  simp only [comparison, hreject, hpath, single, bind, Except.bind]
  cases coerceAtom ⟨.equal, name, .single a⟩ d a <;> rfl

theorem comparison_oneOf {name : String} {as : List Atom} (hd : d.shape.isSequence = false)
    (hn : .null ∈ as → d.acceptsNull = true) :
    (⟨.oneOf, name, .list as⟩ : Condition).comparison d =
      ((⟨.oneOf, name, .list as⟩ : Condition).coerceAtoms d as).map .oneOf := by
  have hreject : (⟨.oneOf, name, .list as⟩ : Condition).rejectNull d = .ok () :=
    rejectNull_eq_ok fun hm => hn (by simpa [Literal.mentionsNull] using hm)
  have hpath : (⟨.oneOf, name, .list as⟩ : Condition).path d = .ok .oneOf := by
    rw [path, hd]
    rfl
  simp only [comparison, hreject, hpath, many, bind, Except.bind]

theorem comparison_nullNotAllowed (hc : c.literal.mentionsNull = true)
    (hd : d.acceptsNull = false) :
    c.comparison d = .error (.coercion c.property nullText d .nullNotAllowed) := by
  simp [comparison, rejectNull, hc, hd, nullNotAllowed, bind, Except.bind]

end Condition

/-! ## From a value to the records that are matched -/

variable {α : Type} {s : Schema α} {p : Property α} {t : FieldType}

theorem Draft.compile_single {c : Condition} {j : Joiner} (hc : c.Readable)
    (hp : s.resolve .insensitive c.property = .ok p) :
    (({} : Draft).add ⟨c, j⟩).compile s = (c.readBack.comparison p.descriptor).map p.test := by
  have hparse : parse (({} : Draft).add ⟨c, j⟩).render = .ok [⟨c.readBack, none⟩] := by
    rw [parse_render_eq_ok_iff]
    refine ⟨?_, rfl⟩
    intro t ht
    rw [List.mem_singleton.mp ht]
    exact hc
  have hcompile : (({} : Draft).add ⟨c, j⟩).compile s =
      ({} : Options).compileClauses s [(⟨c.readBack, none⟩ : Clause).alone] := by
    simp only [Draft.compile, Options.compile, hparse]
    rfl
  have hresolve : s.resolve ({} : Options).nameCase c.readBack.property = .ok p := hp
  rw [hcompile, Options.compileClauses_alone, Options.compileCondition, hresolve]
  simp only [bind, Except.bind]
  cases c.readBack.comparison p.descriptor <;> rfl

theorem Property.holds_equals_taken {a : α} {v w : t.Stored} (ht : t.isExact = true)
    (ha : p.read a = t.fieldValue w) :
    (p.test (.equals (t.taken v) false)).holds a = true ↔
      t.Reserved v ∧ t.fieldValue w = .null ∨ ¬ t.Reserved v ∧ w = v := by
  rw [← FieldType.equals_taken_iff ht]
  simp [Property.test, Comparison.holds, ha]

theorem Property.holds_oneOf_taken {a : α} {vs : List t.Stored} {w : t.Stored}
    (ht : t.isExact = true) (ha : p.read a = t.fieldValue w) :
    (p.test (.oneOf (vs.map t.taken))).holds a = true ↔
      ∃ v ∈ vs, t.Reserved v ∧ t.fieldValue w = .null ∨ ¬ t.Reserved v ∧ w = v := by
  simp only [← FieldType.equals_taken_iff ht]
  simp [Property.test, Comparison.holds, ha]

def Draft.equal (name : String) (l : Literal) : Draft :=
  ({} : Draft).add ⟨⟨.equal, name, l⟩, .and⟩

/-- The draft of a test for being one of the values of a list, however it is joined. -/
def Draft.oneOf (j : Joiner) (name : String) (l : Literal) : Draft :=
  ({} : Draft).add ⟨⟨.oneOf, name, l⟩, j⟩

/-- Whether a draft compiles to a predicate that passes just the records whose field holds a
wanted value. -/
def Draft.Finds (d : Draft) (s : Schema α) (p : Property α) (t : FieldType)
    (Wanted : t.Stored → Prop) : Prop :=
  ∃ q, d.compile s = .ok q ∧ ∀ a w, p.read a = t.fieldValue w → (q.holds a = true ↔ Wanted w)

section

variable {name : String} {j : Joiner} {v : t.Stored} {vs : List t.Stored}
  (hp : s.resolve .insensitive name = .ok p) (hd : p.descriptor = t.descriptor)
  (hblank : Text.Blank name = false) (hname : name ≠ nullText)

include hp hd hblank hname

theorem Draft.compile_equal (ht : t.isExact = true)
    (hv : t.Reserved v → t.descriptor.acceptsNull = true) :
    (Draft.equal name (t.literal v)).compile s = .ok (p.test (.equals (t.taken v) false)) := by
  have hc : (⟨.equal, name, .single (t.atom v)⟩ : Condition).Readable :=
    ⟨hblank, hname, by simp⟩
  have hcomparison := @Condition.comparison_equal t.descriptor name _
    (FieldType.isSequence_descriptor ht) (FieldType.acceptsNull_of_readBack_atom ht hv)
  rw [Condition.coerceAtom_atom ht hv] at hcomparison
  rw [Draft.equal, FieldType.literal_eq ht, Draft.compile_single hc hp, hd]
  exact congrArg (Except.map p.test) hcomparison

theorem Draft.compile_oneOf (ht : t.isExact = true) (hne : vs ≠ [])
    (hvs : ∀ v ∈ vs, t.Reserved v → t.descriptor.acceptsNull = true) :
    (Draft.oneOf j name (t.listLiteral vs)).compile s =
      .ok (p.test (.oneOf (vs.map t.taken))) := by
  have hc : (⟨.oneOf, name, t.listLiteral vs⟩ : Condition).Readable :=
    ⟨hblank, hname, by simpa [FieldType.listLiteral] using hne⟩
  have hnull : .null ∈ (vs.map t.atom).map Atom.readBack → t.descriptor.acceptsNull = true := by
    intro hmem
    simp only [List.map_map, List.mem_map, Function.comp_apply] at hmem
    obtain ⟨v, hv, hread⟩ := hmem
    exact FieldType.acceptsNull_of_readBack_atom ht (hvs v hv) hread
  have hcomparison := @Condition.comparison_oneOf t.descriptor name _
    (FieldType.isSequence_descriptor ht) hnull
  rw [Condition.coerceAtoms_atoms ht hvs] at hcomparison
  rw [Draft.oneOf, Draft.compile_single hc hp, hd]
  exact congrArg (Except.map p.test) hcomparison

theorem Draft.compile_equal_error (ht : t.isExact = true) (hv : t.Reserved v)
    (hnull : t.descriptor.acceptsNull = false) :
    (Draft.equal name (t.literal v)).compile s =
      .error (.coercion name nullText t.descriptor .nullNotAllowed) := by
  have hc : (⟨.equal, name, .single (t.atom v)⟩ : Condition).Readable :=
    ⟨hblank, hname, by simp⟩
  have hmentions : (Literal.single (t.atom v)).readBack.mentionsNull = true := by
    rw [Literal.readBack, FieldType.readBack_atom_of_reserved hv]
    rfl
  rw [Draft.equal, FieldType.literal_eq ht, Draft.compile_single hc hp, hd,
    Condition.comparison_nullNotAllowed hmentions hnull]
  rfl

theorem Draft.compile_oneOf_error (hmem : v ∈ vs) (hv : t.Reserved v)
    (hnull : t.descriptor.acceptsNull = false) :
    (Draft.oneOf j name (t.listLiteral vs)).compile s =
      .error (.coercion name nullText t.descriptor .nullNotAllowed) := by
  have hc : (⟨.oneOf, name, t.listLiteral vs⟩ : Condition).Readable :=
    ⟨hblank, hname, by simpa [FieldType.listLiteral] using List.ne_nil_of_mem hmem⟩
  have hmentions : (t.listLiteral vs).readBack.mentionsNull = true := by
    have hatom := List.mem_map_of_mem (f := Atom.readBack) (List.mem_map_of_mem (f := t.atom) hmem)
    rw [FieldType.readBack_atom_of_reserved hv] at hatom
    simpa [FieldType.listLiteral, Literal.readBack, Literal.mentionsNull] using hatom
  rw [Draft.oneOf, Draft.compile_single hc hp, hd,
    Condition.comparison_nullNotAllowed hmentions hnull]
  rfl

end

/-- The value that is written is the value that is matched, alone or in a list, unless it is the
reserved text. That text is taken for an absent value, which is an error where none can be. -/
theorem Draft.finds_written {name : String} (ht : t.isExact = true)
    (hp : s.resolve .insensitive name = .ok p) (hd : p.descriptor = t.descriptor)
    (hblank : Text.Blank name = false) (hname : name ≠ nullText) :
    (∀ v, ¬ t.Reserved v → (Draft.equal name (t.literal v)).Finds s p t (· = v)) ∧
    (∀ j vs, vs ≠ [] → (∀ v ∈ vs, ¬ t.Reserved v) →
      (Draft.oneOf j name (t.listLiteral vs)).Finds s p t (· ∈ vs)) ∧
    (∀ v, t.Reserved v →
      if t.descriptor.acceptsNull then
        (Draft.equal name (t.literal v)).Finds s p t (t.fieldValue · = .null)
      else
        (Draft.equal name (t.literal v)).compile s =
          .error (.coercion name nullText t.descriptor .nullNotAllowed)) ∧
    ∀ j vs v, v ∈ vs → t.Reserved v →
      if t.descriptor.acceptsNull then
        (Draft.oneOf j name (t.listLiteral vs)).Finds s p t fun w =>
          t.fieldValue w = .null ∨ w ∈ vs ∧ ¬ t.Reserved w
      else
        (Draft.oneOf j name (t.listLiteral vs)).compile s =
          .error (.coercion name nullText t.descriptor .nullNotAllowed) := by
  refine ⟨?_, ?_, ?_, ?_⟩
  · intro v hv
    refine ⟨_, Draft.compile_equal hp hd hblank hname ht fun h => absurd h hv, ?_⟩
    intro a w ha
    rw [Property.holds_equals_taken ht ha]
    simp [hv]
  · intro j vs hne hvs
    refine ⟨_, Draft.compile_oneOf hp hd hblank hname ht hne fun v hv h => absurd h (hvs v hv), ?_⟩
    intro a w ha
    rw [Property.holds_oneOf_taken ht ha]
    apply Iff.intro
    · intro h
      obtain ⟨v, hv, ⟨hr, _⟩ | ⟨_, rfl⟩⟩ := h
      · exact absurd hr (hvs v hv)
      · exact hv
    · intro h
      exact ⟨w, h, .inr ⟨hvs w h, rfl⟩⟩
  · intro v hv
    split
    · next hnull =>
      refine ⟨_, Draft.compile_equal hp hd hblank hname ht fun _ => hnull, ?_⟩
      intro a w ha
      rw [Property.holds_equals_taken ht ha]
      simp [hv]
    · next hnull =>
      exact Draft.compile_equal_error hp hd hblank hname ht hv (Bool.eq_false_iff.mpr hnull)
  · intro j vs v hmem hv
    split
    · next hnull =>
      refine ⟨_, Draft.compile_oneOf hp hd hblank hname ht (List.ne_nil_of_mem hmem)
        fun _ _ _ => hnull, ?_⟩
      intro a w ha
      rw [Property.holds_oneOf_taken ht ha]
      apply Iff.intro
      · intro h
        obtain ⟨u, hu, ⟨_, hw⟩ | ⟨hr, rfl⟩⟩ := h
        · exact .inl hw
        · exact .inr ⟨hu, hr⟩
      · intro h
        rcases h with hw | ⟨hw, hr⟩
        · exact ⟨v, hmem, .inl ⟨hv, hw⟩⟩
        · exact ⟨w, hw, .inr ⟨hr, rfl⟩⟩
    · next hnull =>
      exact Draft.compile_oneOf_error hp hd hblank hname hmem hv (Bool.eq_false_iff.mpr hnull)

def nicknames : List Column := [{ name := "Nickname", type := .optional .string }]

def nickname : Property (Row nicknames) :=
  ⟨"Nickname", (FieldType.optional .string).descriptor,
    fun r => (FieldType.optional .string).fieldValue r.1⟩

theorem Draft.finds_written_nickname :
    (Schema.ofColumns nicknames).resolve .insensitive "NICKNAME" = .ok nickname ∧
    (Draft.equal "NICKNAME"
        ((FieldType.optional .string).literal (some ⟨.string "O'Neil", trivial⟩))).Finds
      (.ofColumns nicknames) nickname (.optional .string)
      (· = some ⟨.string "O'Neil", trivial⟩) ∧
    (Draft.oneOf .or "NICKNAME" ((FieldType.optional .string).listLiteral
        [some ⟨.string "O'Neil", trivial⟩, none])).Finds
      (.ofColumns nicknames) nickname (.optional .string)
      (· ∈ [some ⟨.string "O'Neil", trivial⟩, none]) ∧
    (Draft.equal "NICKNAME"
        ((FieldType.optional .string).literal (some ⟨.string nullText, trivial⟩))).Finds
      (.ofColumns nicknames) nickname (.optional .string)
      ((FieldType.optional .string).fieldValue · = .null) := by
  have hresolve : (Schema.ofColumns nicknames).resolve .insensitive "NICKNAME" = .ok nickname := rfl
  have hname : ¬ (FieldType.optional .string).Reserved (some ⟨.string "O'Neil", trivial⟩) := by
    intro h
    exact absurd (Scalar.string.inj (FieldValue.scalar.inj h)) (by decide)
  obtain ⟨hequal, honeOf, hreserved, _⟩ :=
    @Draft.finds_written _ _ _ (.optional .string) _ rfl hresolve rfl (by decide) (by decide)
  refine ⟨hresolve, hequal _ hname, honeOf .or _ (by simp) ?_, hreserved _ rfl⟩
  intro v hv
  rcases List.mem_cons.mp hv with rfl | hnone
  · exact hname
  · rw [List.mem_singleton.mp hnone]
    intro h
    cases h

/-- The reserved text does not find the record that holds it. -/
theorem Draft.not_finds_reserved :
    ¬ (Draft.equal "Nickname"
        ((FieldType.optional .string).literal (some ⟨.string nullText, trivial⟩))).Finds
      (.ofColumns nicknames) nickname (.optional .string)
      (· = some ⟨.string nullText, trivial⟩) := by
  intro h
  obtain ⟨q, hq, hholds⟩ := h
  have hcompile : (Draft.equal "Nickname"
        ((FieldType.optional .string).literal (some ⟨.string nullText, trivial⟩))).compile
      (.ofColumns nicknames) = .ok (nickname.test (.equals none false)) :=
    Draft.compile_equal rfl rfl (by decide) (by decide) rfl fun _ => rfl
  rw [hcompile] at hq
  cases hq
  have hrow := hholds (some ⟨.string nullText, trivial⟩, ()) (some ⟨.string nullText, trivial⟩) rfl
  exact absurd (hrow.mpr rfl) (by decide)

end FilterQuery
