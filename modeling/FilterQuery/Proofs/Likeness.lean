import FilterQuery.Proofs.Joining
import FilterQuery.Proofs.Value.Congruence

namespace FilterQuery

/-! ## What a query cannot tell apart -/

/-- Whether two values are the same or compare as equal. -/
def Scalar.Alike (a b : Scalar) : Prop := a = b ∨ a.compare b = some .eq

/-- Whether what two records hold for a property is alike, element by element if need be. -/
inductive FieldValue.Alike : FieldValue → FieldValue → Prop
  | null : Alike .null .null
  | scalar {a b : Scalar} : a.Alike b → Alike (.scalar a) (.scalar b)
  | sequence {as bs : List (Option Scalar)} :
      List.Forall₂ (Option.Rel Scalar.Alike) as bs → Alike (.sequence as) (.sequence bs)

/-- Whether two written values are the same or decode as alike values of a kind. -/
inductive Atom.Alike (k : Kind) : Atom → Atom → Prop
  | refl (a : Atom) : Alike k a a
  | text {s t : String} {v w : Scalar} : k.decode s = .ok v → k.decode t = .ok w → v.Alike w →
      Alike k (.text s) (.text t)

inductive Literal.Alike (k : Kind) : Literal → Literal → Prop
  | single {a b : Atom} : a.Alike k b → Alike k (.single a) (.single b)
  | list {as bs : List Atom} : List.Forall₂ (Atom.Alike k) as bs → Alike k (.list as) (.list bs)

inductive Coerced.Alike : Coerced → Coerced → Prop
  | single {v w : Option Scalar} : Option.Rel Scalar.Alike v w → Alike (.single v) (.single w)
  | many {vs ws : List (Option Scalar)} :
      List.Forall₂ (Option.Rel Scalar.Alike) vs ws → Alike (.many vs) (.many ws)

inductive Comparison.Alike : Comparison → Comparison → Prop
  | equals {v w : Option Scalar} {negate : Bool} : Option.Rel Scalar.Alike v w →
      Alike (.equals v negate) (.equals w negate)
  | order {r : Relation} {a b : Scalar} : a.Alike b → Alike (.order r a) (.order r b)
  | edge {e : Edge} {text : String} : Alike (.edge e text) (.edge e text)
  | oneOf {vs ws : List (Option Scalar)} : List.Forall₂ (Option.Rel Scalar.Alike) vs ws →
      Alike (.oneOf vs) (.oneOf ws)
  | contains {v w : Option Scalar} : Option.Rel Scalar.Alike v w →
      Alike (.contains v) (.contains w)
  | sequenceEquals {vs ws : List (Option Scalar)} {negate : Bool} :
      List.Forall₂ (Option.Rel Scalar.Alike) vs ws →
      Alike (.sequenceEquals vs negate) (.sequenceEquals ws negate)

namespace Scalar.Alike

variable {a b : Scalar}

protected theorem refl (a : Scalar) : a.Alike a := .inl rfl

theorem option_refl (v : Option Scalar) : Option.Rel Alike v v := by
  cases v with
  | none => exact .none
  | some a => exact .some (.refl a)

theorem compare_left (h : a.Alike b) (c : Scalar) : a.compare c = b.compare c := by
  rcases h with rfl | h
  · rfl
  · exact (compare_eq_eq_iff.mp h).compare_left c

theorem compare_right (h : a.Alike b) (c : Scalar) : c.compare a = c.compare b := by
  rcases h with rfl | h
  · rfl
  · exact (compare_eq_eq_iff.mp h).compare_right c

theorem string?_eq (h : a.Alike b) : a.string? = b.string? := by
  rcases h with rfl | h
  · rfl
  · have hequal := compare_eq_eq_iff.mp h
    cases a <;> cases b <;> first | rfl | exact congrArg some hequal | cases hequal

end Scalar.Alike

theorem Scalar.optionalEquals_congr {a b c d : Option Scalar} (h : Option.Rel Alike a b)
    (h' : Option.Rel Alike c d) : optionalEquals a c = optionalEquals b d := by
  cases h with
  | none => cases h' <;> rfl
  | some h =>
    cases h' with
    | none => rfl
    | some h' => simp only [optionalEquals, equals, h.compare_left, h'.compare_right]

theorem any_congr {β γ : Type} {r : β → γ → Prop} {f : β → Bool} {g : γ → Bool} {bs : List β}
    {cs : List γ} (h : List.Forall₂ r bs cs) (hfg : ∀ b c, r b c → f b = g c) :
    bs.any f = cs.any g := by
  induction h with
  | nil => rfl
  | cons hr _ ih => rw [List.any_cons, List.any_cons, hfg _ _ hr, ih]

theorem sameElements_congr {as bs cs ds : List (Option Scalar)}
    (h : List.Forall₂ (Option.Rel Scalar.Alike) as bs)
    (h' : List.Forall₂ (Option.Rel Scalar.Alike) cs ds) :
    sameElements as cs = sameElements bs ds := by
  induction h generalizing cs ds with
  | nil => cases h' <;> rfl
  | cons hab _ ih =>
    cases h' with
    | nil => rfl
    | cons hcd htail =>
      simp only [sameElements, Scalar.optionalEquals_congr hab hcd, ih htail]

namespace FieldValue.Alike

variable {x y : FieldValue}

protected theorem refl (x : FieldValue) : x.Alike x := by
  cases x with
  | null => exact .null
  | scalar a => exact .scalar (.refl a)
  | sequence items =>
    exact .sequence (List.forall₂_same.mpr fun item _ => Scalar.Alike.option_refl item)

theorem scalar?_rel (h : x.Alike y) : Option.Rel Scalar.Alike x.scalar? y.scalar? := by
  cases h with
  | scalar h => exact .some h
  | _ => exact .none

theorem sequence?_rel (h : x.Alike y) :
    Option.Rel (List.Forall₂ (Option.Rel Scalar.Alike)) x.sequence? y.sequence? := by
  cases h with
  | sequence h => exact .some h
  | _ => exact .none

end FieldValue.Alike

/-- A comparison is as good as its path, its operator and the values that it carries. -/
theorem Comparison.alike_of {m n : Comparison} (hpath : m.path = n.path)
    (hop : m.operator = n.operator) (hvalue : m.value.Alike n.value) : m.Alike n := by
  have hn := generation_of_operator hop.symm
  cases m with
  | equals v negate =>
    have hn : (∃ w, n = .equals w negate) ∨ ∃ ws, n = .sequenceEquals ws negate := by
      cases negate <;> exact hn
    rcases hn with ⟨w, rfl⟩ | ⟨ws, rfl⟩
    · cases hvalue with
      | single h => exact .equals h
    · cases hpath
  | order r a =>
    obtain ⟨b, rfl⟩ := hn
    cases hvalue with
    | single h =>
      cases h with
      | some h => exact .order h
  | edge e s =>
    have hn : ∃ t, n = .edge e t := by cases e <;> exact hn
    obtain ⟨t, rfl⟩ := hn
    cases hvalue with
    | single h =>
      cases h with
      | some h =>
        cases Option.some.inj h.string?_eq
        exact .edge
  | oneOf vs =>
    obtain ⟨ws, rfl⟩ := hn
    cases hvalue with
    | many h => exact .oneOf h
  | contains v =>
    obtain ⟨w, rfl⟩ := hn
    cases hvalue with
    | single h => exact .contains h
  | sequenceEquals vs negate =>
    have hn : (∃ w, n = .equals w negate) ∨ ∃ ws, n = .sequenceEquals ws negate := by
      cases negate <;> exact hn
    rcases hn with ⟨w, rfl⟩ | ⟨ws, rfl⟩
    · cases hpath
    · cases hvalue with
      | many h => exact .sequenceEquals h

/-- Alike comparisons agree on alike values. -/
theorem Comparison.Alike.holds_eq {m n : Comparison} {x y : FieldValue} (hmn : m.Alike n)
    (h : x.Alike y) : m.holds x = n.holds y := by
  have hscalar := h.scalar?_rel
  have hsequence := h.sequence?_rel
  unfold holds
  generalize x.scalar? = u at hscalar ⊢
  generalize y.scalar? = v at hscalar ⊢
  generalize x.sequence? = us at hsequence ⊢
  generalize y.sequence? = vs at hsequence ⊢
  cases hmn with
  | equals hvalue => simp only [Scalar.optionalEquals_congr hscalar hvalue]
  | order hvalue =>
    cases hscalar with
    | none => rfl
    | some huv => simp only [Option.bind_some, huv.compare_left, hvalue.compare_right]
  | edge =>
    cases hscalar with
    | none => rfl
    | some huv => simp only [Option.bind_some, huv.string?_eq]
  | oneOf hvalues => exact any_congr hvalues fun _ _ => Scalar.optionalEquals_congr hscalar
  | contains hvalue =>
    cases hsequence with
    | none => rfl
    | some huv => exact any_congr huv fun _ _ h => Scalar.optionalEquals_congr h hvalue
  | sequenceEquals hvalues =>
    cases hsequence with
    | none => rfl
    | some huv => simp only [sameElements_congr huv hvalues]

/-! ## Alike conditions -/

namespace Literal.Alike

variable {k : Kind} {l l' : Literal}

protected theorem refl (l : Literal) : l.Alike k l := by
  cases l with
  | single a => exact .single (.refl a)
  | list as => exact .list (List.forall₂_same.mpr fun a _ => .refl a)

theorem isList_eq (h : l.Alike k l') : l'.isList = l.isList := by
  cases h <;> rfl

theorem isNull_eq (h : l.Alike k l') : l'.isNull = l.isNull := by
  cases h with
  | single h => cases h <;> rfl
  | list h => rfl

theorem mentionsNull_eq (h : l.Alike k l') : l'.mentionsNull = l.mentionsNull := by
  have hatom {a b : Atom} (h : a.Alike k b) : (b == .null) = (a == .null) := by cases h <;> rfl
  cases h with
  | single h => exact hatom h
  | list h =>
    simp only [mentionsNull]
    induction h with
    | nil => rfl
    | cons hab _ ih =>
      rw [List.contains_cons, List.contains_cons, ih, Bool.beq_comm, hatom hab, Bool.beq_comm]

end Literal.Alike

namespace Condition

variable {c c' : Condition} {d : Descriptor}

theorem path_alike (hop : c'.op = c.op) (hproperty : c'.property = c.property)
    (hliteral : c.literal.Alike d.kind c'.literal) : c'.path d = c.path d := by
  simp only [path, unsupported, hop, hproperty, hliteral.isList_eq, hliteral.isNull_eq]

theorem rejectNull_alike (hproperty : c'.property = c.property)
    (hliteral : c.literal.Alike d.kind c'.literal) : c'.rejectNull d = c.rejectNull d := by
  simp only [rejectNull, nullNotAllowed, hproperty, hliteral.mentionsNull_eq]

theorem coerceAtom_alike {a b : Atom} {v : Option Scalar} (hab : a.Alike d.kind b)
    (h : c.coerceAtom d a = .ok v) :
    ∃ w, c'.coerceAtom d b = .ok w ∧ Option.Rel Scalar.Alike v w := by
  obtain ⟨hdecodes, hnone⟩ := coerceAtom_eq_ok_iff.mp h
  cases hab with
  | refl => exact ⟨v, coerceAtom_eq_ok_iff.mpr ⟨hdecodes, hnone⟩, Scalar.Alike.option_refl v⟩
  | @text s t x y hs ht hxy =>
    cases v with
    | none => exact hdecodes.elim
    | some v =>
      cases hs.symm.trans hdecodes
      exact ⟨some y, coerceAtom_eq_ok_iff.mpr ⟨ht, nofun⟩, .some hxy⟩

theorem coerceAtoms_alike {as bs : List Atom} {vs : List (Option Scalar)}
    (hab : List.Forall₂ (Atom.Alike d.kind) as bs) (h : c.coerceAtoms d as = .ok vs) :
    ∃ ws, c'.coerceAtoms d bs = .ok ws ∧ List.Forall₂ (Option.Rel Scalar.Alike) vs ws := by
  induction hab generalizing vs with
  | nil =>
    cases h
    exact ⟨[], rfl, .nil⟩
  | cons hab _ ih =>
    obtain ⟨v, hv, h⟩ := bind_eq_ok_iff.mp h
    obtain ⟨vs, hvs, h⟩ := bind_eq_ok_iff.mp h
    cases h
    obtain ⟨w, hw, hvw⟩ := coerceAtom_alike hab hv
    obtain ⟨ws, hws, htail⟩ := ih hvs
    exact ⟨w :: ws, bind_eq_ok_iff.mpr ⟨w, hw, bind_eq_ok_iff.mpr ⟨ws, hws, rfl⟩⟩, .cons hvw htail⟩

theorem coerce_alike {v : Coerced} (hliteral : c.literal.Alike d.kind c'.literal)
    (h : c.coerce d = .ok v) : ∃ w, c'.coerce d = .ok w ∧ v.Alike w := by
  unfold coerce at h ⊢
  generalize c.literal = l at hliteral h
  generalize c'.literal = l' at hliteral ⊢
  cases hliteral with
  | single hab =>
    obtain ⟨x, hx, rfl⟩ := map_eq_ok_iff.mp h
    obtain ⟨y, hy, hxy⟩ := coerceAtom_alike hab hx
    exact ⟨.single y, map_eq_ok_iff.mpr ⟨y, hy, rfl⟩, .single hxy⟩
  | list hab =>
    obtain ⟨xs, hxs, rfl⟩ := map_eq_ok_iff.mp h
    obtain ⟨ys, hys, hxy⟩ := coerceAtoms_alike hab hxs
    exact ⟨.many ys, map_eq_ok_iff.mpr ⟨ys, hys, rfl⟩, .many hxy⟩

theorem comparison_alike {m : Comparison} (hop : c'.op = c.op)
    (hproperty : c'.property = c.property) (hliteral : c.literal.Alike d.kind c'.literal)
    (h : c.comparison d = .ok m) :
    ∃ n, c'.comparison d = .ok n ∧ m.Alike n := by
  obtain ⟨hnull, hpath, hcoerce, hmop⟩ := stages_of_comparison h
  obtain ⟨w, hw, hvalue⟩ := coerce_alike hliteral hcoerce
  obtain ⟨n, hn, hnpath, hnop, rfl⟩ := comparison_ok
    ((rejectNull_alike hproperty hliteral).trans hnull)
    ((path_alike hop hproperty hliteral).trans hpath) hw
  exact ⟨n, hn, Comparison.alike_of hnpath.symm ((hmop.trans hop.symm).trans hnop.symm) hvalue⟩

end Condition

/-! ## Alike queries -/

def Predicate.Agree {α : Type} (R : α → α → Prop) (p q : Predicate α) : Prop :=
  ∀ a b, R a b → p.holds a = q.holds b

namespace Predicate.Agree

variable {α : Type} {R : α → α → Prop} {p p' q q' : Predicate α}

theorem combine (j : Joiner) (hp : p.Agree R p') (hq : q.Agree R q') :
    (Options.combine j p q).Agree R (Options.combine j p' q') := by
  intro a b h
  cases j with
  | and => exact congrArg₂ Bool.and (hp a b h) (hq a b h)
  | or => exact congrArg₂ Bool.or (hp a b h) (hq a b h)

end Predicate.Agree

namespace Options

variable {α : Type} {o o' : Options} {s : Schema α}

/-- Whether two records hold alike values for the property that a condition names. -/
def AlikeFor (o : Options) (s : Schema α) (c : Condition) (a b : α) : Prop :=
  ∀ q, s.resolve o.nameCase c.property = .ok q → (q.read a).Alike (q.read b)

/-- Whether a clause is another one up to how its values are written. -/
structure Rephrases (o : Options) (s : Schema α) (c c' : Clause) : Prop where
  joiner : c'.joiner = c.joiner
  op : c'.op = c.op
  property : c'.property = c.property
  literal : ∀ q, s.resolve o.nameCase c.property = .ok q →
    c.literal.Alike q.descriptor.kind c'.literal

theorem compileCondition_alike {R : α → α → Prop} {c c' : Clause} {p : Predicate α}
    (hc : o.Rephrases s c c') (hR : ∀ a b, R a b → o.AlikeFor s c.toCondition a b)
    (h : o.compileCondition s c.toCondition = .ok p) :
    ∃ p', o.compileCondition s c'.toCondition = .ok p' ∧ p.Agree R p' := by
  obtain ⟨q, hq, h⟩ := bind_eq_ok_iff.mp h
  obtain ⟨m, hm, h⟩ := bind_eq_ok_iff.mp h
  cases h
  obtain ⟨n, hn, hmn⟩ := Condition.comparison_alike hc.op hc.property (hc.literal q hq) hm
  refine ⟨q.test n, ?_, fun a b hab => hmn.holds_eq (hR a b hab q hq)⟩
  exact bind_eq_ok_iff.mpr ⟨q, hc.property ▸ hq, bind_eq_ok_iff.mpr ⟨n, hn, rfl⟩⟩

/-- Whether a clause, perhaps with other options, is joined as another one and agrees with it
wherever that one has a predicate. -/
structure Follows (o o' : Options) (s : Schema α) (R : α → α → Prop) (c c' : Clause) : Prop where
  joiner : c'.joiner = c.joiner
  condition : ∀ p, o.compileCondition s c.toCondition = .ok p →
    ∃ p', o'.compileCondition s c'.toCondition = .ok p' ∧ p.Agree R p'

theorem compileJoined_agree {R : α → α → Prop} {cs cs' : List Clause} {n : Nat}
    {sofar sofar' p : Predicate α} (hcs : List.Forall₂ (o.Follows o' s R) cs cs')
    (hsofar : sofar.Agree R sofar') (h : o.compileJoined s n sofar cs = .ok p) :
    ∃ p', o'.compileJoined s n sofar' cs' = .ok p' ∧ p.Agree R p' := by
  induction hcs generalizing n sofar sofar' with
  | nil =>
    cases h
    exact ⟨sofar', rfl, hsofar⟩
  | @cons c c' cs cs' hc _ ih =>
    obtain ⟨j, q, hj, hq, h⟩ := compileJoined_cons_eq_ok_iff.mp h
    obtain ⟨q', hq', hqq'⟩ := hc.condition q hq
    obtain ⟨p', hp', hpp'⟩ := ih (hqq'.combine j hsofar) h
    exact ⟨p', compileJoined_cons_eq_ok_iff.mpr ⟨j, q', hc.joiner.trans hj, hq', hp'⟩, hpp'⟩

theorem compileClauses_agree {R : α → α → Prop} {cs cs' : List Clause} {p : Predicate α}
    (hcs : List.Forall₂ (o.Follows o' s R) cs cs') (h : o.compileClauses s cs = .ok p) :
    ∃ p', o'.compileClauses s cs' = .ok p' ∧ p.Agree R p' := by
  cases hcs with
  | nil => cases h
  | @cons c c' cs cs' hc hcs =>
    obtain ⟨hj, q, hq, h⟩ := compileClauses_cons_eq_ok_iff.mp h
    obtain ⟨q', hq', hqq'⟩ := hc.condition q hq
    obtain ⟨p', hp', hpp'⟩ := compileJoined_agree hcs hqq' h
    exact ⟨p', compileClauses_cons_eq_ok_iff.mpr ⟨hc.joiner.trans hj, q', hq', hp'⟩, hpp'⟩

theorem compileClauses_alike {R : α → α → Prop} {cs cs' : List Clause} {p : Predicate α}
    (hcs : List.Forall₂ (o.Rephrases s) cs cs')
    (hR : ∀ c ∈ cs, ∀ a b, R a b → o.AlikeFor s c.toCondition a b)
    (h : o.compileClauses s cs = .ok p) :
    ∃ p', o.compileClauses s cs' = .ok p' ∧ p.Agree R p' := by
  refine compileClauses_agree (((List.forall₂_and_left _ _).mpr ⟨hR, hcs⟩).imp ?_) h
  intro c c' hc
  exact ⟨hc.2.joiner, fun q hq => compileCondition_alike hc.2 hc.1 hq⟩

/-- A predicate sees of a record only the properties that its clauses name, and of these only what
their values stand for. Nor does it see how the values in the clauses are written. -/
theorem compileClauses_congr {cs : List Clause} {p : Predicate α}
    (h : o.compileClauses s cs = .ok p) :
    (∀ a b, (∀ c ∈ cs, o.AlikeFor s c.toCondition a b) → p.holds a = p.holds b) ∧
    ∀ cs', List.Forall₂ (o.Rephrases s) cs cs' →
      ∃ p', o.compileClauses s cs' = .ok p' ∧ ∀ a, p'.holds a = p.holds a := by
  apply And.intro
  · intro a b hab
    have hsame (c : Clause) : o.Rephrases s c c :=
      ⟨rfl, rfl, rfl, fun q _ => .refl c.literal⟩
    obtain ⟨p', hp', hpp'⟩ := compileClauses_alike
      (R := fun a b => ∀ c ∈ cs, o.AlikeFor s c.toCondition a b)
      (List.forall₂_same.mpr fun c _ => hsame c) (fun c hc a b hab => hab c hc) h
    cases h.symm.trans hp'
    exact hpp' a b hab
  · intro cs' hcs
    have hread (c : Clause) (a b : α) (hab : a = b) : o.AlikeFor s c.toCondition a b := by
      subst hab
      exact fun q _ => .refl (q.read a)
    obtain ⟨p', hp', hpp'⟩ := compileClauses_alike hcs (fun c _ => hread c) h
    exact ⟨p', hp', fun a => (hpp' a a rfl).symm⟩

end Options

def noted : List Column :=
  [{ name := "price", type := .plain .decimal }, { name := "note", type := .optional .string }]

def notedPrice : Property (Row noted) :=
  ⟨"price", (FieldType.plain .decimal).descriptor,
    fun r => (FieldType.plain .decimal).fieldValue r.1⟩

/-- A row with the price 1.5 and a row with the price 1.50 and another note are asked whether the
price is at most 1.5, or at most 1.500. -/
theorem Options.compileClauses_congr_noted :
    let atMost (s : String) : Clause := ⟨⟨.order .lessOrEqual, "Price", .single (.text s)⟩, none⟩
    let a : Row noted := (⟨.decimal ⟨15, 1⟩, by decide⟩, some ⟨.string "new", trivial⟩, ())
    let b : Row noted := (⟨.decimal ⟨150, 2⟩, by decide⟩, none, ())
    ∃ p p', ({} : Options).compileClauses (.ofColumns noted) [atMost "1.5"] = .ok p ∧
      ({} : Options).compileClauses (.ofColumns noted) [atMost "1.500"] = .ok p' ∧
      p.holds a = true ∧ p.holds a = p.holds b ∧ ∀ a, p'.holds a = p.holds a := by
  intro atMost a b
  have hresolve : (Schema.ofColumns noted).resolve .insensitive "Price" = .ok notedPrice := rfl
  have hcondition : ({} : Options).compileCondition (.ofColumns noted) (atMost "1.5").toCondition =
      .ok (notedPrice.test (.order .lessOrEqual (.decimal ⟨15, 1⟩))) :=
    bind_eq_ok_iff.mpr ⟨notedPrice, hresolve, bind_eq_ok_iff.mpr ⟨_, rfl, rfl⟩⟩
  have h : ({} : Options).compileClauses (.ofColumns noted) [atMost "1.5"] =
      .ok (notedPrice.test (.order .lessOrEqual (.decimal ⟨15, 1⟩))) :=
    bind_eq_ok_iff.mpr ⟨_, hcondition, rfl⟩
  obtain ⟨hrecords, hclauses⟩ := Options.compileClauses_congr h
  have hrephrases :
      ({} : Options).Rephrases (.ofColumns noted) (atMost "1.5") (atMost "1.500") := by
    refine ⟨rfl, rfl, rfl, ?_⟩
    intro q hq
    cases hresolve.symm.trans hq
    have hvalues : (Scalar.decimal ⟨15, 1⟩).compare (.decimal ⟨1500, 3⟩) = some .eq := by
      decide +kernel
    exact .single (.text rfl rfl (.inr hvalues))
  obtain ⟨p', hp', hagree⟩ := hclauses [atMost "1.500"] (.cons hrephrases .nil)
  have hprices : (Scalar.decimal ⟨15, 1⟩).compare (.decimal ⟨150, 2⟩) = some .eq := by
    decide +kernel
  refine ⟨_, p', h, hp', by decide +kernel, hrecords a b ?_, hagree⟩
  intro c hc q hq
  cases List.mem_singleton.mp hc
  cases hresolve.symm.trans hq
  exact .scalar (.inr hprices)

end FilterQuery
