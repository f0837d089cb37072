import FilterQuery.Filter.Compile
import FilterQuery.Proofs.Derivation
import FilterQuery.Proofs.Layout
import FilterQuery.Proofs.Printing
import Mathlib.Data.List.Forall2

namespace FilterQuery

/-! ## Names with a constant are not blank -/

def blankPoints : List Nat :=
  List.range' 9 5 ++ List.range' 0x2000 11 ++
    [0x20, 0x85, 0xA0, 0x1680, 0x2028, 0x2029, 0x202F, 0x205F, 0x3000]

theorem toNat_mem_blankPoints {c : Char} (h : Text.isBlank c = true) : c.toNat ∈ blankPoints := by
  simp only [Text.isBlank, Bool.or_eq_true, Bool.and_eq_true, decide_eq_true_eq,
    beq_iff_eq] at h
  simp only [blankPoints, List.mem_append, List.mem_range'_1, List.mem_cons, List.not_mem_nil,
    or_false]
  omega

theorem not_isUppercase_of_isBlank {c : Char} (h : Text.isBlank c = true) :
    Text.isUppercase c = false := by
  have hall : ∀ n ∈ blankPoints, Text.isUppercase (Char.ofNat n) = false := by
    decide +kernel
  have hc := hall c.toNat (toNat_mem_blankPoints h)
  rwa [Char.ofNat_toNat] at hc

theorem not_isAlphanum_of_isBlank {c : Char} (h : Text.isBlank c = true) :
    c.isAlphanum = false := by
  have hword := isWordChar_of_isBlank h
  rw [isWordChar, Bool.or_eq_false_iff] at hword
  exact hword.1

theorem constantChars_of_allBlank {cs : List Char} (h : AllBlank cs) (before : Preceding) :
    ∀ c ∈ constantChars before cs, c = '_' := by
  induction cs generalizing before with
  | nil => simp [constantChars]
  | cons b cs ih =>
    have hb := h b List.mem_cons_self
    have hrest := ih (fun c hc => h c (List.mem_cons_of_mem b hc)) .underscore
    rw [constantChars, if_neg (by simp [not_isUppercase_of_isBlank hb]),
      if_neg (by simp [not_isAlphanum_of_isBlank hb])]
    intro c hc
    rcases List.mem_append.mp hc with hc | hc
    · split at hc
      · cases hc
      · exact List.mem_singleton.mp hc
    · exact hrest c hc

theorem mem_guardDigit {c : Char} {cs : List Char} (h : c ∈ guardDigit cs) :
    c = '_' ∨ c ∈ cs := by
  cases cs with
  | nil => exact .inr h
  | cons d cs =>
    rw [guardDigit] at h
    split at h
    · exact List.mem_cons.mp h
    · exact .inr h

theorem not_blank_of_constantName {name : String}
    (h : ∃ c ∈ (constantName name).toList, c ≠ '_') : Text.Blank name = false := by
  cases hblank : Text.Blank name with
  | false => rfl
  | true =>
    obtain ⟨c, hc, hne⟩ := h
    rw [constantName, String.toList_ofList] at hc
    rcases mem_guardDigit hc with hc | hc
    · exact absurd hc hne
    · rw [Text.Blank, List.all_eq_true] at hblank
      exact absurd (constantChars_of_allBlank hblank .other c hc) hne

/-! ## Derived properties as a schema -/

variable {α : Type}

theorem mem_derivedProperties {μ : Type} {rule? : Option NamingRule} {fs : List (DeclaredField μ)}
    {p : DerivedProperty μ} (h : p ∈ derivedProperties rule? fs) :
    ∃ f ∈ fs, p = f.derived rule? := by
  obtain ⟨f, hf, rfl⟩ := List.mem_map.mp h
  exact ⟨f, List.mem_of_mem_filter hf, rfl⟩

theorem not_blank_of_unambiguous {μ : Type} {rule? : Option NamingRule}
    {fs : List (DeclaredField μ)} (h : Unambiguous rule? fs) {p : DerivedProperty μ}
    (hp : p ∈ derivedProperties rule? fs) : Text.Blank p.name = false := by
  have hletter := h.distinct.lettered p hp
  obtain ⟨f, _, rfl⟩ := mem_derivedProperties hp
  exact not_blank_of_constantName hletter

/-- Whether a property has the name and the type of a field, and reads that field. -/
structure DerivedProperty.Yields (p : DerivedProperty (Member α)) (q : Property α) : Prop where
  name : q.name = p.name
  descriptor : q.descriptor = p.field.member.type.descriptor
  read : ∀ a, q.read a = p.field.member.type.fieldValue (p.field.member.read a)

theorem DerivedProperty.yields_iff {p : DerivedProperty (Member α)} {q : Property α} :
    p.Yields q ↔ p.toProperty = q := by
  apply Iff.intro
  · intro h
    obtain ⟨name, descriptor, read⟩ := q
    rw [toProperty, ← h.name, ← h.descriptor]
    exact congrArg (Property.mk name descriptor) (funext fun a => (h.read a).symm)
  · rintro rfl
    exact ⟨rfl, rfl, fun _ => rfl⟩

namespace Schema

variable {s : Schema α} {ps : List (DerivedProperty (Member α))} {name : String} {q : Property α}

/-- A name that resolves as it is does so whatever names are like it. -/
theorem resolve_of_property? (h : s.property? name = some q) (nameCase : NameCase) :
    s.resolve nameCase name = .ok q := by
  cases nameCase <;> simp only [resolve, h]

theorem property?_ofProperties_eq_some_iff (hps : (ps.map (·.name)).Nodup) :
    (ofProperties ps).property? name = some q ↔ ∃ p ∈ ps, p.name = name ∧ p.Yields q := by
  simp only [ofProperties, Option.map_eq_some_iff, DerivedProperty.yields_iff]
  apply Iff.intro
  · intro h
    obtain ⟨p, hfind, hq⟩ := h
    exact ⟨p, List.mem_of_find?_eq_some hfind, by simpa using List.find?_some hfind, hq⟩
  · intro h
    obtain ⟨p, hp, rfl, hq⟩ := h
    have hsome : (ps.find? (·.name == p.name)).isSome := by
      rw [List.find?_isSome]
      exact ⟨p, hp, beq_self_eq_true p.name⟩
    obtain ⟨p', hfind⟩ := Option.isSome_iff_exists.mp hsome
    have hname : p'.name = p.name := by simpa using List.find?_some hfind
    have hsame := List.inj_on_of_nodup_map hps (List.mem_of_find?_eq_some hfind) hp hname
    exact ⟨p, hsame ▸ hfind, hq⟩

theorem exists_property?_ofProperties_iff :
    (∃ q, (ofProperties ps).property? name = some q) ↔ name ∈ (ofProperties ps).names := by
  rw [← Option.isSome_iff_exists]
  simp [ofProperties]

end Schema

/-! ## Drafts for derived properties -/

/-- The clauses that a draft is read back as are those of its terms, one for each. -/
theorem Draft.forall₂_readBack (d : Draft) :
    List.Forall₂ (fun t c => c.toCondition = t.toCondition.readBack) d.terms d.readBack := by
  rw [List.forall₂_iff_get]
  apply And.intro
  · simp [Draft.readBack]
  · simp [Draft.readBack]

/-- The names that the schema of a declaration lists are those that it resolves, each to a property
that reads the field with that name. What a draft says of them is read, and each of its clauses
asks for the property that is named, whatever other names are like it and whatever the name
contains. -/
theorem Declaration.queryable {d : Declaration (Member α)} {ps : List (DerivedProperty (Member α))}
    (h : d.properties = .ok ps) :
    (∀ name, (∃ q, (Schema.ofProperties ps).property? name = some q) ↔
      name ∈ (Schema.ofProperties ps).names) ∧
    (∀ name q, (Schema.ofProperties ps).property? name = some q ↔
      ∃ p ∈ ps, p.name = name ∧ p.Yields q) ∧
    (∀ p ∈ ps, p.field ∈ d.fields ∧ p.name = p.field.queryName d.rule?) ∧
    ∀ draft : Draft,
      (∀ t ∈ draft.terms, t.property ∈ (Schema.ofProperties ps).names ∧ t.property ≠ nullText ∧
        t.literal ≠ .list []) →
      ∃ cs, parse draft.render = .ok cs ∧
        List.Forall₂ (fun t c => c.toCondition = t.toCondition.readBack ∧
          ∃ p ∈ ps, p.name = t.property ∧ ∃ q, p.Yields q ∧ ∀ nameCase,
            (Schema.ofProperties ps).resolve nameCase c.property = .ok q)
          draft.terms cs := by
  obtain ⟨-, hfields, rfl⟩ := properties_eq_ok_iff.mp h
  have hproperty {name : String} {q : Property α} :=
    @Schema.property?_ofProperties_eq_some_iff α _ name q hfields.distinct.names
  refine ⟨fun _ => Schema.exists_property?_ofProperties_iff, fun _ _ => hproperty, ?_, ?_⟩
  · intro p hp
    obtain ⟨f, hf, rfl⟩ := mem_derivedProperties hp
    exact ⟨hf, rfl⟩
  · intro draft hdraft
    have hnamed {t : Term} (ht : t ∈ draft.terms) :
        ∃ p ∈ derivedProperties d.rule? d.fields, p.name = t.property :=
      List.mem_map.mp (hdraft t ht).1
    have hparse : parse draft.render = .ok draft.readBack := by
      rw [parse_render_eq_ok_iff]
      refine ⟨?_, rfl⟩
      intro t ht
      obtain ⟨p, hp, hname⟩ := hnamed ht
      exact ⟨hname ▸ not_blank_of_unambiguous hfields hp, (hdraft t ht).2⟩
    have hclauses := (List.forall₂_and_left _ _).mpr ⟨fun t ht => hnamed ht, draft.forall₂_readBack⟩
    refine ⟨draft.readBack, hparse, hclauses.imp ?_⟩
    intro t c htc
    obtain ⟨⟨p, hp, hname⟩, hc⟩ := htc
    have hcname : c.property = p.name := by rw [hc, hname, Condition.readBack]
    have hyields : p.Yields p.toProperty := DerivedProperty.yields_iff.mpr rfl
    refine ⟨hc, p, hp, hname, p.toProperty, hyields, ?_⟩
    intro nameCase
    exact Schema.resolve_of_property? (hproperty.mpr ⟨p, hp, hcname.symm, hyields⟩) nameCase

def switch (name : String) (attributes : List Attribute) (read : Bool × Bool → Bool) :
    DeclaredField (Member (Bool × Bool)) :=
  ⟨name, attributes, ⟨.plain .bool, fun a => ScalarType.bool.value (read a)⟩⟩

/-- Two switches with names that differ in case only, and one with a name full of marks. -/
def switches : Declaration (Member (Bool × Bool)) where
  fields :=
    [switch "isOn" [] (·.1), switch "ison" [] (·.2),
      switch "both" [⟨"sift", [⟨"rename", .text " 'on', \"\\on "⟩]⟩] fun a => a.1 && a.2]

/-- Of two switches only the first is on, and each property reads its own. -/
theorem Declaration.queryable_switches :
    let ps := derivedProperties none switches.fields
    let draft : Draft :=
      ⟨[⟨⟨.notEqual, "ison", .single (.text "true")⟩, .or⟩,
        ⟨⟨.oneOf, " 'on', \"\\on ", .list [.text "'", .null]⟩, .and⟩]⟩
    let reads (name : String) (b : Bool) : Prop :=
      ∃ q, (Schema.ofProperties ps).resolve .insensitive name = .ok q ∧ q.name = name ∧
        q.descriptor = ⟨.scalar, .bool, false⟩ ∧ q.read (true, false) = .scalar (.bool b)
    switches.properties = .ok ps ∧
      reads "isOn" true ∧ reads "ison" false ∧ reads " 'on', \"\\on " false ∧
      ∃ cs, parse draft.render = .ok cs ∧
        List.Forall₂ (fun t c => c.toCondition = t.toCondition.readBack ∧
          ∃ p ∈ ps, p.name = t.property ∧ ∃ q, p.Yields q ∧ ∀ nameCase,
            (Schema.ofProperties ps).resolve nameCase c.property = .ok q)
          draft.terms cs := by
  intro ps draft reads
  have hps : switches.properties = .ok ps :=
    properties_eq_ok_iff.mpr ⟨⟨rfl, rfl, by decide⟩, by decide +kernel, rfl⟩
  obtain ⟨_, hproperty, _, hread⟩ := queryable hps
  have hreads {name : String} {attributes : List Attribute} {read : Bool × Bool → Bool}
      (hf : switch name attributes read ∈ switches.fields.filter (!·.skipped)) :
      reads ((switch name attributes read).queryName none) (read (true, false)) := by
    let p := (switch name attributes read).derived none
    have hp := (hproperty p.name p.toProperty).mpr
      ⟨p, List.mem_map_of_mem hf, rfl, DerivedProperty.yields_iff.mpr rfl⟩
    exact ⟨p.toProperty, Schema.resolve_of_property? hp .insensitive, rfl, rfl, rfl⟩
  have hkept : switches.fields.filter (!·.skipped) = switches.fields := rfl
  have hdraft : ∀ t ∈ draft.terms, t.property ∈ (Schema.ofProperties ps).names ∧
      t.property ≠ nullText ∧ t.literal ≠ .list [] := by
    decide +kernel
  rw [hkept] at hreads
  exact ⟨hps, hreads (.head _), hreads (.tail _ (.head _)), hreads (.tail _ (.tail _ (.head _))),
    hread draft hdraft⟩

end FilterQuery
