import FilterQuery.Outcome
import FilterQuery.Record.Derivation
import Mathlib.Data.List.Induction
import Mathlib.Data.List.Nodup

namespace FilterQuery

variable {μ : Type}

/-! ## What a declaration says -/

namespace Argument

def skip : Argument := ⟨"skip", .nothing⟩

def fieldFault? (a : Argument) : Option DerivationError :=
  match a.path, a.content with
  | "skip", .nothing => none
  | "rename", .text name => if Text.Blank name then some .blankRename else none
  | "rename", .expression _ => some (.notText "rename")
  | _, _ => some .unknownFieldArgument

def rename? : Argument → Option String
  | ⟨"rename", .text name⟩ => some name
  | _ => none

def rule? : Argument → Option NamingRule
  | ⟨"rename_all", .text name⟩ => NamingRule.ofName? name
  | _ => none

theorem fieldFault?_eq_none_iff {a : Argument} :
    a.fieldFault? = none ↔
      a = skip ∨ ∃ name, Text.Blank name = false ∧ a = ⟨"rename", .text name⟩ := by
  obtain ⟨path, content⟩ := a
  apply Iff.intro
  · intro h
    simp only [fieldFault?] at h
    split at h
    · exact .inl rfl
    · next name =>
      split at h
      · cases h
      · next hblank => exact .inr ⟨name, by simpa using hblank, rfl⟩
    · cases h
    · cases h
  · rintro (h | ⟨name, hblank, h⟩)
    · cases h
      rfl
    · cases h
      simp [fieldFault?, hblank]

end Argument

namespace DeclaredField

variable (f : DeclaredField μ) (rule? : Option NamingRule)

def skipped : Bool := (arguments f.attributes).any (· == .skip)

/-- The last name that the attributes give to the field. -/
def rename? : Option String := ((arguments f.attributes).filterMap Argument.rename?).getLast?

/-- Whether each argument leaves the field out or gives it a name that is not blank. -/
def WellFormed : Prop :=
  ∀ a ∈ arguments f.attributes,
    a = .skip ∨ ∃ name, Text.Blank name = false ∧ a = ⟨"rename", .text name⟩

def fault? : Option DerivationError := (arguments f.attributes).findSome? Argument.fieldFault?

/-- The field's name without the mark of a reserved word. -/
def plain : String := String.ofList (plainName f.name.toList)

/-- The name for queries: the one given to the field, or else its own as the rule has it. -/
def queryName : String :=
  match f.rename?, rule? with
  | some name, _ => name
  | none, some rule => rule.apply f.plain
  | none, none => f.plain

def derived : DerivedProperty μ :=
  ⟨f.queryName rule?, constantName (f.queryName rule?), f⟩

end DeclaredField

/-- The properties that fields give which are not left out, in the order of the fields. -/
def derivedProperties (rule? : Option NamingRule) (fs : List (DeclaredField μ)) :
    List (DerivedProperty μ) :=
  (fs.filter (!·.skipped)).map (·.derived rule?)

/-- Whether no two properties share a name or a constant, and each constant is more than
underscores. -/
structure Distinct (ps : List (DerivedProperty μ)) : Prop where
  names : (ps.map (·.name)).Nodup
  constants : (ps.map (·.constant)).Nodup
  lettered : ∀ p ∈ ps, ∃ c ∈ p.constant.toList, c ≠ '_'

/-- Whether all attributes of fields are well formed and their properties can be told apart. -/
structure Unambiguous (rule? : Option NamingRule) (fs : List (DeclaredField μ)) : Prop where
  wellFormed : ∀ f ∈ fs, f.WellFormed
  distinct : Distinct (derivedProperties rule? fs)

instance {ps : List (DerivedProperty μ)} : Decidable (Distinct ps) :=
  decidable_of_iff
    ((ps.map (·.name)).Nodup ∧ (ps.map (·.constant)).Nodup ∧
      ps.all (·.constant.toList.any (· != '_')) = true)
    ⟨fun h => ⟨h.1, h.2.1, by simpa using h.2.2⟩,
      fun h => ⟨h.names, h.constants, by simpa using h.lettered⟩⟩

/-- Whether a property has a name and a constant that no earlier one has, and the constant is more
than underscores. -/
structure DerivedProperty.Fresh (earlier : List (DerivedProperty μ)) (p : DerivedProperty μ) :
    Prop where
  name : p.name ∉ earlier.map (·.name)
  constant : p.constant ∉ earlier.map (·.constant)
  lettered : ∃ c ∈ p.constant.toList, c ≠ '_'

/-- How a property clashes with earlier ones. -/
inductive DerivedProperty.Clash (earlier : List (DerivedProperty μ)) (p : DerivedProperty μ) :
    DerivationError → Prop
  | name : p.name ∈ earlier.map (·.name) → Clash earlier p (.duplicateName p.name)
  | blank : p.name ∉ earlier.map (·.name) → (∀ c ∈ p.constant.toList, c = '_') →
      Clash earlier p (.noConstant p.name)
  | constant : p.name ∉ earlier.map (·.name) → (∃ c ∈ p.constant.toList, c ≠ '_') →
      p.constant ∈ earlier.map (·.constant) → Clash earlier p (.takenConstant p.name p.constant)

/-- What is wrong with a field that comes after others. -/
inductive DeclaredField.Fault (rule? : Option NamingRule) (before : List (DeclaredField μ))
    (f : DeclaredField μ) : DerivationError → Prop
  | argument {e : DerivationError} : f.fault? = some e → Fault rule? before f e
  | clash {e : DerivationError} : f.WellFormed → f.skipped = false →
      (f.derived rule?).Clash (derivedProperties rule? before) e → Fault rule? before f e

/-! ## One field -/

def FieldSettings.add (s : FieldSettings) (a : Argument) : FieldSettings :=
  ⟨s.skip || a == .skip, a.rename?.or s.rename⟩

theorem FieldSettings.read_cons (s : FieldSettings) (a : Argument) (as : List Argument) :
    s.read (a :: as) =
      match a.fieldFault? with
      | some e => .error e
      | none => (s.add a).read as := by
  obtain ⟨path, content⟩ := a
  simp only [FieldSettings.read, Argument.fieldFault?]
  split
  · simp [add, Argument.skip, Argument.rename?]
  · next name =>
    have hskip : ((⟨"rename", .text name⟩ : Argument) == .skip) = false :=
      beq_false_of_ne (by simp [Argument.skip])
    by_cases hblank : Text.Blank name <;> simp [hblank, add, hskip, Argument.rename?]
  · simp
  · grind

theorem FieldSettings.read_eq (s : FieldSettings) (as : List Argument) :
    s.read as =
      match as.findSome? Argument.fieldFault? with
      | some e => .error e
      | none => .ok ⟨s.skip || as.any (· == .skip),
          (as.filterMap Argument.rename?).getLast?.or s.rename⟩ := by
  induction as generalizing s with
  | nil => simp [FieldSettings.read]
  | cons a as ih =>
    rw [read_cons, List.findSome?_cons]
    cases a.fieldFault? with
    | some e => rfl
    | none =>
      rw [ih (s.add a)]
      cases as.findSome? Argument.fieldFault? with
      | some e => rfl
      | none =>
        cases hname : a.rename? <;>
          simp [add, hname, Bool.or_assoc, List.getLast?_cons, Option.or_some]

namespace DeclaredField

variable {f : DeclaredField μ} {rule? : Option NamingRule}

theorem fault?_eq_none_iff : f.fault? = none ↔ f.WellFormed := by
  simp only [fault?, List.findSome?_eq_none_iff, Argument.fieldFault?_eq_none_iff, WellFormed]

instance : Decidable f.WellFormed := decidable_of_iff _ fault?_eq_none_iff

theorem read_arguments :
    ({} : FieldSettings).read (arguments f.attributes) =
      match f.fault? with
      | some e => .error e
      | none => .ok ⟨f.skipped, f.rename?⟩ := by
  have hread := FieldSettings.read_eq {} (arguments f.attributes)
  rw [Bool.false_or, Option.or_none] at hread
  exact hread

theorem propertyName_eq (skip : Bool) :
    f.propertyName rule? ⟨skip, f.rename?⟩ = f.queryName rule? := by
  unfold propertyName queryName plain
  cases f.rename? <;> cases rule? <;> rfl

theorem property?_of_fault {e : DerivationError} (h : f.fault? = some e) :
    f.property? rule? = .error e := by
  rw [property?, read_arguments, h]
  rfl

theorem property?_of_wellFormed (h : f.WellFormed) :
    f.property? rule? = .ok (if f.skipped then none else some (f.derived rule?)) := by
  rw [property?, read_arguments, fault?_eq_none_iff.mpr h]
  simp only [bind, Except.bind, propertyName_eq]
  rfl

end DeclaredField

namespace DerivedProperty

variable {p : DerivedProperty μ} {earlier : List (DerivedProperty μ)}

theorem any_name_iff : earlier.any (·.name == p.name) = true ↔ p.name ∈ earlier.map (·.name) := by
  simp

theorem any_constant_iff :
    earlier.any (·.constant == p.constant) = true ↔ p.constant ∈ earlier.map (·.constant) := by
  simp

theorem check_of_clash {e : DerivationError} (h : p.Clash earlier e) :
    p.check earlier = .error e := by
  cases h with
  | name hname => rw [check, if_pos (any_name_iff.mpr hname)]
  | blank hname hblank =>
    rw [check, if_neg (mt any_name_iff.mp hname), if_pos (by simpa using hblank)]
  | constant hname hletter hconstant =>
    rw [check, if_neg (mt any_name_iff.mp hname), if_neg (by simpa using hletter),
      if_pos (any_constant_iff.mpr hconstant)]

theorem check_of_fresh (h : p.Fresh earlier) : p.check earlier = .ok () := by
  rw [check, if_neg (mt any_name_iff.mp h.name), if_neg (by simpa using h.lettered),
    if_neg (mt any_constant_iff.mp h.constant)]

theorem exists_clash (h : ¬ p.Fresh earlier) : ∃ e, p.Clash earlier e := by
  by_cases hname : p.name ∈ earlier.map (·.name)
  · exact ⟨_, .name hname⟩
  by_cases hletter : ∃ c ∈ p.constant.toList, c ≠ '_'
  · by_cases hconstant : p.constant ∈ earlier.map (·.constant)
    · exact ⟨_, .constant hname hletter hconstant⟩
    · exact absurd ⟨hname, hconstant, hletter⟩ h
  · exact ⟨_, .blank hname (by simpa using hletter)⟩

end DerivedProperty

theorem distinct_concat_iff {ps : List (DerivedProperty μ)} {p : DerivedProperty μ} :
    Distinct (ps ++ [p]) ↔ Distinct ps ∧ p.Fresh ps := by
  have hnodup (g : DerivedProperty μ → String) :
      ((ps ++ [p]).map g).Nodup ↔ (ps.map g).Nodup ∧ g p ∉ ps.map g := by
    rw [List.map_append, List.map_singleton, ← List.concat_eq_append, List.nodup_concat, and_comm]
  have hlettered : (∀ q ∈ ps ++ [p], ∃ c ∈ q.constant.toList, c ≠ '_') ↔
      (∀ q ∈ ps, ∃ c ∈ q.constant.toList, c ≠ '_') ∧ ∃ c ∈ p.constant.toList, c ≠ '_' := by
    simp only [List.forall_mem_append, List.forall_mem_singleton]
  apply Iff.intro
  · intro h
    obtain ⟨hnames, hname⟩ := (hnodup _).mp h.names
    obtain ⟨hconstants, hconstant⟩ := (hnodup _).mp h.constants
    obtain ⟨hothers, hletter⟩ := hlettered.mp h.lettered
    exact ⟨⟨hnames, hconstants, hothers⟩, hname, hconstant, hletter⟩
  · intro h
    obtain ⟨hps, hp⟩ := h
    exact ⟨(hnodup _).mpr ⟨hps.names, hp.name⟩, (hnodup _).mpr ⟨hps.constants, hp.constant⟩,
      hlettered.mpr ⟨hps.lettered, hp.lettered⟩⟩

/-! ## One field after others -/

section

variable {rule? : Option NamingRule} {before fs : List (DeclaredField μ)} {f : DeclaredField μ}

instance : Decidable (Unambiguous rule? fs) :=
  decidable_of_iff ((∀ f ∈ fs, f.WellFormed) ∧ Distinct (derivedProperties rule? fs))
    ⟨fun h => ⟨h.1, h.2⟩, fun h => ⟨h.wellFormed, h.distinct⟩⟩

theorem derivedProperties_concat :
    derivedProperties rule? (before ++ [f]) =
      derivedProperties rule? before ++ if f.skipped then [] else [f.derived rule?] := by
  cases h : f.skipped <;> simp [derivedProperties, h]

theorem unambiguous_nil : Unambiguous rule? ([] : List (DeclaredField μ)) :=
  ⟨by simp, .nil, .nil, by simp [derivedProperties]⟩

theorem unambiguous_concat_iff :
    Unambiguous rule? (before ++ [f]) ↔
      Unambiguous rule? before ∧ f.WellFormed ∧
        (f.skipped = false → (f.derived rule?).Fresh (derivedProperties rule? before)) := by
  have hwf : (∀ g ∈ before ++ [f], g.WellFormed) ↔ (∀ g ∈ before, g.WellFormed) ∧ f.WellFormed := by
    simp only [List.forall_mem_append, List.forall_mem_singleton]
  have hdistinct : Distinct (derivedProperties rule? (before ++ [f])) ↔
      Distinct (derivedProperties rule? before) ∧
        (f.skipped = false → (f.derived rule?).Fresh (derivedProperties rule? before)) := by
    rw [derivedProperties_concat]
    cases f.skipped with
    | true => simp
    | false => simpa using distinct_concat_iff
  apply Iff.intro
  · intro h
    obtain ⟨hothers, hf⟩ := hwf.mp h.wellFormed
    obtain ⟨hbefore, hfresh⟩ := hdistinct.mp h.distinct
    exact ⟨⟨hothers, hbefore⟩, hf, hfresh⟩
  · intro h
    obtain ⟨hbefore, hf, hfresh⟩ := h
    exact ⟨hwf.mpr ⟨hbefore.wellFormed, hf⟩, hdistinct.mpr ⟨hbefore.distinct, hfresh⟩⟩

theorem Unambiguous.of_append (h : Unambiguous rule? (before ++ fs)) :
    Unambiguous rule? before := by
  induction fs using List.reverseRecOn with
  | nil => simpa using h
  | append_singleton fs g ih =>
    rw [← List.append_assoc] at h
    exact ih (unambiguous_concat_iff.mp h).1

theorem deriveFields_step (h : Unambiguous rule? (before ++ [f])) :
    deriveFields rule? (derivedProperties rule? before) (f :: fs) =
      deriveFields rule? (derivedProperties rule? (before ++ [f])) fs := by
  obtain ⟨-, hwf, hfresh⟩ := unambiguous_concat_iff.mp h
  rw [deriveFields, DeclaredField.property?_of_wellFormed hwf, derivedProperties_concat]
  cases hskip : f.skipped with
  | true =>
    simp only [if_pos, List.append_nil]
    rfl
  | false =>
    simp only [Bool.false_eq_true, if_false, bind, Except.bind,
      DerivedProperty.check_of_fresh (hfresh hskip)]

theorem deriveFields_of_fault {e : DerivationError} (h : f.Fault rule? before e) :
    deriveFields rule? (derivedProperties rule? before) (f :: fs) = .error e := by
  rw [deriveFields]
  cases h with
  | argument hfault =>
    rw [DeclaredField.property?_of_fault hfault]
    rfl
  | clash hwf hskip hclash =>
    rw [DeclaredField.property?_of_wellFormed hwf, hskip]
    simp only [Bool.false_eq_true, if_false, bind, Except.bind,
      DerivedProperty.check_of_clash hclash]

/-- A field adds an ambiguity exactly if it is at fault. -/
theorem exists_fault_iff (h : Unambiguous rule? before) :
    (∃ e, f.Fault rule? before e) ↔ ¬ Unambiguous rule? (before ++ [f]) := by
  apply Iff.intro
  · intro hfault hf
    obtain ⟨e, he⟩ := hfault
    have hstep := @deriveFields_step μ rule? before [] f hf
    rw [deriveFields_of_fault he, deriveFields] at hstep
    cases hstep
  · intro hf
    cases hfault : f.fault? with
    | some e => exact ⟨e, .argument hfault⟩
    | none =>
      have hwf := DeclaredField.fault?_eq_none_iff.mp hfault
      have hclash :
          ¬ (f.skipped = false → (f.derived rule?).Fresh (derivedProperties rule? before)) :=
        fun hfresh => hf (unambiguous_concat_iff.mpr ⟨h, hwf, hfresh⟩)
      simp only [Classical.not_imp] at hclash
      obtain ⟨e, he⟩ := DerivedProperty.exists_clash hclash.2
      exact ⟨e, .clash hwf hclash.1 he⟩

/-! ## All fields -/

theorem deriveFields_append (h : Unambiguous rule? (before ++ fs)) (gs : List (DeclaredField μ)) :
    deriveFields rule? (derivedProperties rule? before) (fs ++ gs) =
      deriveFields rule? (derivedProperties rule? (before ++ fs)) gs := by
  induction fs generalizing before with
  | nil => rw [List.nil_append, List.append_nil]
  | cons f fs ih =>
    have hsplit : before ++ f :: fs = before ++ [f] ++ fs := by simp
    rw [hsplit] at h ⊢
    rw [List.cons_append, deriveFields_step h.of_append, ih h]

theorem exists_first_fault (hbefore : Unambiguous rule? before)
    (h : ¬ Unambiguous rule? (before ++ fs)) :
    ∃ mid f after e, fs = mid ++ f :: after ∧ Unambiguous rule? (before ++ mid) ∧
      f.Fault rule? (before ++ mid) e := by
  -- each field in turn either joins those before it or is the one at fault
  induction fs generalizing before with
  | nil =>
    rw [List.append_nil] at h
    exact absurd hbefore h
  | cons f fs ih =>
    have hsplit : before ++ f :: fs = before ++ [f] ++ fs := by simp
    by_cases hf : Unambiguous rule? (before ++ [f])
    · rw [hsplit] at h
      obtain ⟨mid, g, after, e, hfs, hmid, he⟩ := ih hf h
      rw [List.append_assoc, List.singleton_append] at hmid he
      exact ⟨f :: mid, g, after, e, by rw [hfs, List.cons_append], hmid, he⟩
    · obtain ⟨e, he⟩ := (exists_fault_iff hbefore).mpr hf
      rw [← before.append_nil] at hbefore he
      exact ⟨[], f, fs, e, rfl, hbefore, he⟩

theorem deriveFields_of_unambiguous (h : Unambiguous rule? fs) :
    deriveFields rule? [] fs = .ok (derivedProperties rule? fs) := by
  have hrun := @deriveFields_append μ rule? [] fs h []
  rw [List.append_nil] at hrun
  exact hrun

theorem deriveFields_of_first_fault {e : DerivationError} (h : Unambiguous rule? before)
    (he : f.Fault rule? before e) : deriveFields rule? [] (before ++ f :: fs) = .error e := by
  have hrun := @deriveFields_append μ rule? [] before h (f :: fs)
  rw [List.nil_append, deriveFields_of_fault he] at hrun
  exact hrun

theorem deriveFields_eq_ok_iff {ps : List (DerivedProperty μ)} :
    deriveFields rule? [] fs = .ok ps ↔
      Unambiguous rule? fs ∧ ps = derivedProperties rule? fs := by
  apply Iff.intro
  · intro h
    by_cases hfs : Unambiguous rule? fs
    · rw [deriveFields_of_unambiguous hfs, Except.ok.injEq] at h
      exact ⟨hfs, h.symm⟩
    · obtain ⟨before, f, after, e, rfl, hbefore, he⟩ := exists_first_fault unambiguous_nil hfs
      rw [List.nil_append] at hbefore he
      rw [deriveFields_of_first_fault hbefore he] at h
      cases h
  · intro h
    rw [deriveFields_of_unambiguous h.1, h.2]

theorem deriveFields_eq_error_iff {e : DerivationError} :
    deriveFields rule? [] fs = .error e ↔
      ∃ before f after, fs = before ++ f :: after ∧ Unambiguous rule? before ∧
        f.Fault rule? before e := by
  apply Iff.intro
  · intro h
    by_cases hfs : Unambiguous rule? fs
    · rw [deriveFields_of_unambiguous hfs] at h
      cases h
    · obtain ⟨before, f, after, e', rfl, hbefore, he⟩ := exists_first_fault unambiguous_nil hfs
      rw [List.nil_append] at hbefore he
      rw [deriveFields_of_first_fault hbefore he, Except.error.injEq] at h
      exact ⟨before, f, after, rfl, hbefore, h ▸ he⟩
  · intro h
    obtain ⟨before, f, after, rfl, hbefore, he⟩ := h
    exact deriveFields_of_first_fault hbefore he

end

/-! ## The declaration as a whole -/

theorem readRule_of_rule {a : Argument} {rule : NamingRule} (h : a.rule? = some rule)
    (rule? : Option NamingRule) (as : List Argument) :
    readRule rule? (a :: as) = readRule (some rule) as := by
  simp only [Argument.rule?] at h
  split at h
  · simp only [readRule, h]
  · cases h

theorem readRule_of_no_rule {a : Argument} (h : a.rule? = none) (rule? : Option NamingRule)
    (as : List Argument) : ∃ e, readRule rule? (a :: as) = .error e := by
  obtain ⟨path, content⟩ := a
  simp only [Argument.rule?] at h
  rw [readRule]
  split
  · next name hpath hcontent =>
    replace h : NamingRule.ofName? name = none := by grind
    exact ⟨_, by rw [h]⟩
  · exact ⟨_, rfl⟩
  · exact ⟨_, rfl⟩

theorem readRule_eq_ok_iff {first rule? : Option NamingRule} {as : List Argument} :
    readRule first as = .ok rule? ↔
      (∀ a ∈ as, a.rule?.isSome) ∧ rule? = (as.filterMap Argument.rule?).getLast?.or first := by
  induction as generalizing first with
  | nil =>
    rw [readRule, Except.ok.injEq, eq_comm]
    simp
  | cons a as ih =>
    cases hrule : a.rule? with
    | some rule =>
      rw [readRule_of_rule hrule, ih]
      simp [hrule, List.getLast?_cons, Option.or_some]
    | none =>
      obtain ⟨e, he⟩ := readRule_of_no_rule hrule first as
      simp [he, hrule]

namespace Declaration

/-- The last rule that the attributes give for the names of properties. -/
def rule? (d : Declaration μ) : Option NamingRule :=
  ((arguments d.attributes).filterMap Argument.rule?).getLast?

/-- Whether the type has named fields and no parameters, and each of its arguments gives a rule. -/
structure Derivable (d : Declaration μ) : Prop where
  named : d.form = .named
  plain : d.generic = false
  ruled : ∀ a ∈ arguments d.attributes, a.rule?.isSome

variable {d : Declaration μ} {ps : List (DerivedProperty μ)}

theorem checkForm_eq_ok_iff : d.checkForm = .ok () ↔ d.form = .named ∧ d.generic = false := by
  rw [checkForm]
  cases d.generic <;> cases d.form <;> simp

theorem properties_of_derivable (h : d.Derivable) :
    d.properties = deriveFields d.rule? [] d.fields := by
  have hrule : readRule none (arguments d.attributes) = .ok d.rule? :=
    readRule_eq_ok_iff.mpr ⟨h.ruled, by rw [Option.or_none, rule?]⟩
  rw [properties, checkForm_eq_ok_iff.mpr ⟨h.named, h.plain⟩, hrule]
  rfl

theorem derivable_of_properties (h : d.properties = .ok ps) : d.Derivable := by
  obtain ⟨⟨⟩, hform, h⟩ := bind_eq_ok_iff.mp h
  obtain ⟨rule?, hrule, -⟩ := bind_eq_ok_iff.mp h
  obtain ⟨hnamed, hplain⟩ := checkForm_eq_ok_iff.mp hform
  exact ⟨hnamed, hplain, (readRule_eq_ok_iff.mp hrule).1⟩

theorem properties_eq_ok_iff :
    d.properties = .ok ps ↔
      d.Derivable ∧ Unambiguous d.rule? d.fields ∧ ps = derivedProperties d.rule? d.fields := by
  apply Iff.intro
  · intro h
    have hd := derivable_of_properties h
    rw [properties_of_derivable hd] at h
    exact ⟨hd, deriveFields_eq_ok_iff.mp h⟩
  · intro h
    rw [properties_of_derivable h.1]
    exact deriveFields_eq_ok_iff.mpr h.2

/-- Properties can be derived exactly if the fields are unambiguous, and they are those of the
fields that are not left out; otherwise the error is that of the first field at fault. -/
theorem properties_iff_unambiguous (h : d.Derivable) :
    (∀ ps, d.properties = .ok ps ↔
      Unambiguous d.rule? d.fields ∧ ps = derivedProperties d.rule? d.fields) ∧
    ∀ e, d.properties = .error e ↔
      ∃ before f after, d.fields = before ++ f :: after ∧ Unambiguous d.rule? before ∧
        f.Fault d.rule? before e := by
  rw [properties_of_derivable h]
  apply And.intro
  · intro ps
    exact deriveFields_eq_ok_iff
  · intro e
    exact deriveFields_eq_error_iff

/-- One declaration with a rule, a reserved word, a field left out and one with a name of its own,
and one whose last field would take a constant. -/
theorem properties_iff_unambiguous_camel :
    (⟨.named, false, [⟨"sift", [⟨"rename_all", .text "camelCase"⟩]⟩],
        [⟨"r#type", [], ()⟩, ⟨"created_at", [], ()⟩, ⟨"secret", [⟨"sift", [.skip]⟩], ()⟩,
          ⟨"mail", [⟨"sift", [⟨"rename", .text "e-mail"⟩]⟩], ()⟩]⟩ :
        Declaration Unit).properties.map (·.map (·.name)) =
      .ok ["type", "createdAt", "e-mail"] ∧
    (⟨.named, false, [], [⟨"a_b", [], ()⟩, ⟨"aB", [], ()⟩]⟩ : Declaration Unit).properties =
      .error (.takenConstant "aB" "A_B") := by
  apply And.intro
  · rw [((properties_iff_unambiguous ⟨rfl, rfl, by decide +kernel⟩).1 _).mpr
      ⟨by decide +kernel, rfl⟩]
    decide +kernel
  · apply ((properties_iff_unambiguous ⟨rfl, rfl, by decide⟩).2 _).mpr
    exact ⟨[⟨"a_b", [], ()⟩], ⟨"aB", [], ()⟩, [], rfl, by decide +kernel,
      .clash (by decide +kernel) (by decide +kernel)
        (.constant (by decide +kernel) ⟨'A', by decide +kernel⟩ (by decide +kernel))⟩

end Declaration

end FilterQuery
