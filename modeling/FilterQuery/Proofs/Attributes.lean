import FilterQuery.Proofs.Derivation

namespace FilterQuery

variable {μ : Type}

/-! ## What a derivation shows -/

/-- A property without the attributes of its field, which code cannot see. -/
def DerivedProperty.bare (p : DerivedProperty μ) : DerivedProperty μ :=
  { p with field := { p.field with attributes := [] } }

theorem Schema.ofProperties_bare {α : Type} (ps : List (DerivedProperty (Member α))) :
    Schema.ofProperties (ps.map (·.bare)) = Schema.ofProperties ps := by
  have hnames : (ps.map (·.bare)).map (·.name) = ps.map (·.name) := by
    rw [List.map_map]
    rfl
  have hfind (name : String) : ((ps.map (·.bare)).find? (·.name == name)).map (·.toProperty) =
      (ps.find? (·.name == name)).map (·.toProperty) := by
    rw [List.find?_map, Option.map_map]
    rfl
  simp only [ofProperties, hnames, hfind]

/-- The properties of a declared type, as far as code can tell them apart. -/
def Declaration.results (d : Declaration μ) : Except DerivationError (List (DerivedProperty μ)) :=
  d.properties.map (·.map (·.bare))

namespace DerivedProperty

theorem check_bare (p : DerivedProperty μ) (earlier : List (DerivedProperty μ)) :
    p.bare.check (earlier.map (·.bare)) = p.check earlier := by
  simp only [check, List.any_map]
  rfl

theorem check_nil (p : DerivedProperty μ) :
    p.check [] = if p.constant.toList.all (· == '_') then .error (.noConstant p.name)
      else .ok () := by
  simp only [check, List.any_nil, Bool.false_eq_true, if_false]

end DerivedProperty

namespace DeclaredField

variable (f : DeclaredField μ) (rule? : Option NamingRule)

def outcome : Except DerivationError (Option (DerivedProperty μ)) :=
  (f.property? rule?).map (·.map (·.bare))

variable {f rule?}

theorem outcome_of_fault {e : DerivationError} (h : f.fault? = some e) :
    f.outcome rule? = .error e := by
  rw [outcome, property?_of_fault h]
  rfl

theorem outcome_of_skipped (h : f.fault? = none) (hskip : f.skipped = true) :
    f.outcome rule? = .ok none := by
  rw [outcome, property?_of_wellFormed (fault?_eq_none_iff.mp h), if_pos hskip]
  rfl

theorem outcome_of_not_skipped (h : f.fault? = none) (hskip : f.skipped = false) :
    f.outcome rule? = .ok (some (f.derived rule?).bare) := by
  rw [outcome, property?_of_wellFormed (fault?_eq_none_iff.mp h), hskip,
    if_neg Bool.false_ne_true]
  rfl

theorem property?_getD : f.property? (some (rule?.getD .snake)) = f.property? rule? := by
  have hname (s : FieldSettings) :
      f.propertyName (some (rule?.getD .snake)) s = f.propertyName rule? s := by
    unfold propertyName
    cases s.rename with
    | some name => rfl
    | none =>
      cases rule? with
      | some rule => rfl
      | none => simp [NamingRule.apply, NamingRule.applyChars]
  simp only [property?, hname]

end DeclaredField

theorem deriveFields_getD {rule? : Option NamingRule} {earlier : List (DerivedProperty μ)}
    {fs : List (DeclaredField μ)} :
    deriveFields (some (rule?.getD .snake)) earlier fs = deriveFields rule? earlier fs := by
  induction fs generalizing earlier with
  | nil => rfl
  | cons f fs ih => simp only [deriveFields, DeclaredField.property?_getD, ih]

def collect (earlier : List (DerivedProperty μ)) :
    List (Except DerivationError (Option (DerivedProperty μ))) →
      Except DerivationError (List (DerivedProperty μ))
  | [] => .ok earlier
  | o :: os => do
    match ← o with
    | none => collect earlier os
    | some p =>
      p.check earlier
      collect (earlier ++ [p]) os

theorem deriveFields_bare (rule? : Option NamingRule) (earlier : List (DerivedProperty μ))
    (fs : List (DeclaredField μ)) :
    (deriveFields rule? earlier fs).map (·.map (·.bare)) =
      collect (earlier.map (·.bare)) (fs.map (·.outcome rule?)) := by
  induction fs generalizing earlier with
  | nil => rfl
  | cons f fs ih =>
    rw [deriveFields, List.map_cons, collect, DeclaredField.outcome]
    cases f.property? rule? with
    | error e => rfl
    | ok p? =>
      cases p? with
      | none => exact ih earlier
      | some p =>
        have hmore := ih (earlier ++ [p])
        rw [List.map_append, List.map_singleton] at hmore
        simp only [Except.map, Option.map_some, bind, Except.bind, DerivedProperty.check_bare]
        cases p.check earlier with
        | error e => rfl
        | ok => exact hmore

/-! ## Arguments that are distributed over attributes -/

/-- The second attributes are the first ones with the arguments of some of those that count given
in order to one or more attributes in its place. -/
inductive Distributes : List Attribute → List Attribute → Prop
  | nil : Distributes [] []
  | keep {as bs : List Attribute} (a : Attribute) :
      Distributes as bs → Distributes (a :: as) (a :: bs)
  | split {as bs : List Attribute} {pieces : List (List Argument)} : pieces ≠ [] →
      Distributes as bs →
        Distributes (⟨attributeName, pieces.flatten⟩ :: as)
          (pieces.map (⟨attributeName, ·⟩) ++ bs)

theorem arguments_cons (a : Attribute) (as : List Attribute) :
    arguments (a :: as) = if a.name = attributeName then a.arguments else arguments as := by
  unfold arguments
  by_cases h : a.name = attributeName
  · rw [List.find?_cons_of_pos (by simpa using h), if_pos h]
  · rw [List.find?_cons_of_neg (by simpa using h), if_neg h]

/-- Only what the first of the attributes is given still counts. -/
theorem Distributes.arguments_prefix {as bs : List Attribute} (h : Distributes as bs) :
    arguments bs <+: arguments as := by
  induction h with
  | nil => exact List.prefix_rfl
  | keep a _ ih =>
    rw [arguments_cons, arguments_cons]
    split
    · exact List.prefix_rfl
    · exact ih
  | @split as bs pieces hpieces _ _ =>
    obtain ⟨piece, others, rfl⟩ := List.exists_cons_of_ne_nil hpieces
    rw [List.map_cons, List.cons_append, arguments_cons, arguments_cons, if_pos rfl, if_pos rfl,
      List.flatten_cons]
    exact List.prefix_append piece others.flatten

namespace DeclaredField

structure Distributes (f g : DeclaredField μ) : Prop where
  name : f.name = g.name
  member : f.member = g.member
  attributes : FilterQuery.Distributes f.attributes g.attributes

/-- Whether the arguments that count for the second field settle all that those for the first one
do: they have a fault already, or the others have none and neither leave the field out nor
rename it. -/
def Settles (f g : DeclaredField μ) : Prop :=
  g.fault?.isSome = true ∨ f.fault? = none ∧
    (g.skipped = true ∨
      f.skipped = false ∧ ∀ rule? : Option NamingRule, f.queryName rule? = g.queryName rule?)

variable {f g : DeclaredField μ} {rule? : Option NamingRule}

theorem settles_of_outcome (houtcome : ∀ rule?, f.outcome rule? = g.outcome rule?) :
    f.Settles g := by
  have hnone := houtcome none
  cases hg : g.fault? with
  | some e => exact .inl (by rw [hg, Option.isSome_some])
  | none =>
    cases hf : f.fault? with
    | some e =>
      rw [outcome_of_fault hf] at hnone
      cases hskip : g.skipped with
      | true => simp [outcome_of_skipped hg hskip] at hnone
      | false => simp [outcome_of_not_skipped hg hskip] at hnone
    | none =>
      cases hgskip : g.skipped with
      | true => exact .inr ⟨hf, .inl hgskip⟩
      | false =>
        cases hfskip : f.skipped with
        | true => simp [outcome_of_skipped hf hfskip, outcome_of_not_skipped hg hgskip] at hnone
        | false =>
          refine .inr ⟨hf, .inr ⟨hfskip, fun rule? => ?_⟩⟩
          have hrule := houtcome rule?
          rw [outcome_of_not_skipped hf hfskip, outcome_of_not_skipped hg hgskip,
            Except.ok.injEq, Option.some.injEq] at hrule
          exact congrArg DerivedProperty.name hrule

namespace Distributes

variable (h : f.Distributes g)

include h

theorem fault?_eq_some {e : DerivationError} (hg : g.fault? = some e) : f.fault? = some e := by
  obtain ⟨dropped, hdropped⟩ := h.attributes.arguments_prefix
  unfold fault? at hg ⊢
  rw [← hdropped, List.findSome?_append, hg, Option.some_or]

theorem skipped_eq_true (hg : g.skipped = true) : f.skipped = true := by
  obtain ⟨dropped, hdropped⟩ := h.attributes.arguments_prefix
  unfold skipped at hg ⊢
  rw [← hdropped, List.any_append, hg, Bool.true_or]

theorem derived_bare (hname : f.queryName rule? = g.queryName rule?) :
    (f.derived rule?).bare = (g.derived rule?).bare := by
  simp only [derived, DerivedProperty.bare, hname, h.name, h.member]

theorem outcome_eq_of_settles (hsettles : f.Settles g) (rule? : Option NamingRule) :
    f.outcome rule? = g.outcome rule? := by
  rcases hsettles with hfault | ⟨hf, hskip⟩
  · obtain ⟨e, he⟩ := Option.isSome_iff_exists.mp hfault
    rw [outcome_of_fault he, outcome_of_fault (h.fault?_eq_some he)]
  · have hg : g.fault? = none := by
      rw [Option.eq_none_iff_forall_not_mem]
      intro e he
      cases hf.symm.trans (h.fault?_eq_some he)
    rcases hskip with hgskip | ⟨hfskip, hname⟩
    · rw [outcome_of_skipped hg hgskip, outcome_of_skipped hf (h.skipped_eq_true hgskip)]
    · have hgskip : g.skipped = false := by
        rw [Bool.eq_false_iff]
        intro hgskip
        cases hfskip.symm.trans (h.skipped_eq_true hgskip)
      rw [outcome_of_not_skipped hf hfskip, outcome_of_not_skipped hg hgskip,
        h.derived_bare (hname rule?)]

end Distributes

theorem map_outcome_eq {fs gs : List (DeclaredField μ)} (h : List.Forall₂ Distributes fs gs)
    (hsettles : List.Forall₂ Settles fs gs) (rule? : Option NamingRule) :
    fs.map (·.outcome rule?) = gs.map (·.outcome rule?) := by
  induction h with
  | nil => rfl
  | cons hfg _ ih =>
    obtain _ | ⟨hfirst, hrest⟩ := hsettles
    rw [List.map_cons, List.map_cons, hfg.outcome_eq_of_settles hfirst, ih hrest]

end DeclaredField

/-! ## Declarations -/

def ruleOf (as : List Attribute) : Except DerivationError NamingRule :=
  (readRule none (arguments as)).map (·.getD .snake)

namespace Declaration

variable {d e : Declaration μ}

theorem results_eq (d : Declaration μ) :
    d.results = d.checkForm.bind fun _ => (ruleOf d.attributes).bind fun rule =>
      collect [] (d.fields.map (·.outcome (some rule))) := by
  simp only [results, properties, ruleOf, bind]
  cases d.checkForm with
  | error e => rfl
  | ok =>
    cases readRule none (arguments d.attributes) with
    | error e => rfl
    | ok rule? =>
      simp only [Except.map, Except.bind]
      exact deriveFields_getD ▸ deriveFields_bare (some (rule?.getD .snake)) [] d.fields

theorem results_congr (hform : d.form = e.form) (hgeneric : d.generic = e.generic)
    (hrule : ruleOf d.attributes = ruleOf e.attributes)
    (hfields : ∀ rule?, d.fields.map (·.outcome rule?) = e.fields.map (·.outcome rule?)) :
    d.results = e.results := by
  have hcheck : d.checkForm = e.checkForm := by
    rw [checkForm, checkForm, hform, hgeneric]
  simp only [results_eq, hcheck, hrule, hfields]

end Declaration

/-! ## Declarations that tell fields and rules apart -/

theorem fault?_ne_noConstant {f : DeclaredField μ} {name : String} :
    f.fault? ≠ some (.noConstant name) := by
  intro h
  obtain ⟨a, -, ha⟩ := List.exists_of_findSome?_eq_some h
  unfold Argument.fieldFault? at ha
  split at ha
  · cases ha
  · split at ha <;> cases ha
  · cases ha
  · cases ha

theorem exists_ruleOf (rule : NamingRule) : ∃ as, ruleOf as = .ok rule := by
  cases rule with
  | pascal => exact ⟨[⟨attributeName, [⟨"rename_all", .text "PascalCase"⟩]⟩], rfl⟩
  | camel => exact ⟨[⟨attributeName, [⟨"rename_all", .text "camelCase"⟩]⟩], rfl⟩
  | snake => exact ⟨[], rfl⟩

namespace Declaration

def ofFields (as : List Attribute) (fs : List (DeclaredField μ)) : Declaration μ :=
  ⟨.named, false, as, fs⟩

theorem results_ofFields (as : List Attribute) (fs : List (DeclaredField μ)) :
    (ofFields as fs).results = (ruleOf as).bind fun rule =>
      collect [] (fs.map (·.outcome (some rule))) := by
  rw [results_eq]
  rfl

theorem results_singleton {as : List Attribute} {rule : NamingRule} (hrule : ruleOf as = .ok rule)
    (f : DeclaredField μ) :
    (ofFields as [f]).results = (f.outcome (some rule)).bind fun
      | none => .ok []
      | some p => (p.check []).map fun _ => [p] := by
  rw [results_ofFields, hrule]
  rfl

end Declaration

namespace DeclaredField

def outcomeFrom (f : DeclaredField μ) :
    Except DerivationError (List (DerivedProperty μ)) →
      Except DerivationError (Option (DerivedProperty μ))
  | .ok ps => .ok ps.head?
  | .error (.noConstant name) =>
    .ok (some ⟨name, constantName name, { f with attributes := [] }⟩)
  | .error e => .error e

variable {f g : DeclaredField μ} {as : List Attribute} {rule : NamingRule}

theorem outcomeFrom_results (hrule : ruleOf as = .ok rule) :
    f.outcomeFrom (Declaration.ofFields as [f]).results = f.outcome (some rule) := by
  rw [Declaration.results_singleton hrule]
  cases hfault : f.fault? with
  | some e =>
    rw [outcome_of_fault hfault]
    cases e with
    | noConstant name => exact absurd hfault fault?_ne_noConstant
    | _ => rfl
  | none =>
    cases hskip : f.skipped with
    | true =>
      rw [outcome_of_skipped hfault hskip]
      rfl
    | false =>
      rw [outcome_of_not_skipped hfault hskip]
      simp only [Except.bind, DerivedProperty.check_nil]
      split <;> rfl

theorem Distributes.outcome_eq_of_results (h : f.Distributes g) (hrule : ruleOf as = .ok rule)
    (hresults : (Declaration.ofFields as [g]).results = (Declaration.ofFields as [f]).results) :
    f.outcome (some rule) = g.outcome (some rule) := by
  have hbare : f.outcomeFrom = g.outcomeFrom := by
    funext results
    simp only [outcomeFrom, h.name, h.member]
  rw [← outcomeFrom_results hrule, ← outcomeFrom_results hrule, hbare, hresults]

end DeclaredField

namespace Declaration

/-- A field whose name every rule changes in its own way. -/
def probe (m : μ) : DeclaredField μ :=
  ⟨"a_b", [], m⟩

theorem queryName_probe (m : μ) (rule : NamingRule) :
    (probe m).queryName (some rule) = rule.apply "a_b" := by
  have hplain : String.ofList (plainName "a_b".toList) = "a_b" := by decide +kernel
  simp only [DeclaredField.queryName, DeclaredField.rename?, DeclaredField.plain, probe, arguments,
    List.find?_nil, List.filterMap_nil, List.getLast?_nil, hplain]

theorem results_probe (as : List Attribute) (m : μ) :
    (ofFields as [probe m]).results =
      (ruleOf as).map fun rule => [(probe m).derived (some rule)] := by
  cases hrule : ruleOf as with
  | error e =>
    rw [results_ofFields, hrule]
    rfl
  | ok rule =>
    have hlettered : (constantName (rule.apply "a_b")).toList.all (· == '_') = false := by
      cases rule <;> decide +kernel
    have hcheck : ((probe m).derived (some rule)).bare.check [] = .ok () := by
      rw [DerivedProperty.check_nil, DerivedProperty.bare, DeclaredField.derived, queryName_probe,
        hlettered, if_neg Bool.false_ne_true]
    rw [results_singleton hrule, DeclaredField.outcome_of_not_skipped rfl rfl]
    simp only [Except.bind, hcheck]
    rfl

theorem probe_name_injective : Function.Injective fun rule : NamingRule => rule.apply "a_b" := by
  intro r s h
  cases r <;> cases s <;> first | rfl | exact absurd h (by decide +kernel)

theorem ruleOf_eq_of_results {as bs : List Attribute} (m : μ)
    (h : (ofFields as [probe m]).results = (ofFields bs [probe m]).results) :
    ruleOf as = ruleOf bs := by
  rw [results_probe, results_probe] at h
  cases ha : ruleOf as with
  | error e =>
    cases hb : ruleOf bs with
    | error e' => simpa [ha, hb, Except.map] using h
    | ok rule => simp [ha, hb, Except.map] at h
  | ok rule =>
    cases hb : ruleOf bs with
    | error e' => simp [ha, hb, Except.map] at h
    | ok rule' =>
      have hname : (probe m).queryName (some rule) = (probe m).queryName (some rule') := by
        simp only [ha, hb, Except.map, Except.ok.injEq, List.cons.injEq] at h
        exact congrArg DerivedProperty.name h.1
      rw [queryName_probe, queryName_probe] at hname
      rw [probe_name_injective hname]

end Declaration

/-! ## What distributing arguments changes -/

theorem readRule_append (first : Option NamingRule) (as bs : List Argument) :
    readRule first (as ++ bs) = (readRule first as).bind fun rule? => readRule rule? bs := by
  induction as generalizing first with
  | nil => rfl
  | cons a as ih =>
    rw [List.cons_append, readRule, readRule]
    split
    · next name _ _ =>
      cases NamingRule.ofName? name with
      | some rule => exact ih (some rule)
      | none => rfl
    · rfl
    · rfl

theorem Distributes.ruleOf_eq_error {as bs : List Attribute} (h : Distributes as bs)
    {e : DerivationError} (hbs : ruleOf bs = .error e) : ruleOf as = .error e := by
  obtain ⟨dropped, hdropped⟩ := h.arguments_prefix
  rw [ruleOf, map_eq_error_iff] at hbs ⊢
  rw [← hdropped, readRule_append, hbs]
  rfl

/-- Whether the arguments that count for the second attributes of a declaration settle all that
those for the first ones do. -/
def RuleSettles (as bs : List Attribute) : Prop :=
  (∃ e, ruleOf bs = .error e) ∨ ∃ rule, ruleOf as = .ok rule ∧ ruleOf bs = .ok rule

theorem Distributes.ruleOf_eq_iff {as bs : List Attribute} (h : Distributes as bs) :
    ruleOf as = ruleOf bs ↔ RuleSettles as bs := by
  apply Iff.intro
  · intro hrule
    cases hbs : ruleOf bs with
    | error e => exact .inl ⟨e, hbs⟩
    | ok rule => exact .inr ⟨rule, hrule.trans hbs, hbs⟩
  · rintro (⟨e, he⟩ | ⟨rule, has, hbs⟩)
    · rw [he, h.ruleOf_eq_error he]
    · rw [has, hbs]

def firstAttribute (as : List Attribute) : List Attribute :=
  (as.find? (·.name == attributeName)).toList

theorem arguments_firstAttribute (as : List Attribute) :
    arguments (firstAttribute as) = arguments as := by
  cases hfind : as.find? (·.name == attributeName) with
  | none => simp [firstAttribute, arguments, hfind]
  | some a =>
    have hname := List.find?_some hfind
    simp [firstAttribute, arguments, hfind, hname]

def DeclaredField.firstOnly (f : DeclaredField μ) : DeclaredField μ :=
  { f with attributes := firstAttribute f.attributes }

theorem DeclaredField.outcome_firstOnly (f : DeclaredField μ) (rule? : Option NamingRule) :
    f.firstOnly.outcome rule? = f.outcome rule? := by
  simp only [outcome, property?, firstOnly, arguments_firstAttribute]
  cases ({} : FieldSettings).read (arguments f.attributes) with
  | error e => rfl
  | ok s =>
    cases hskip : s.skip with
    | true => simp [bind, Except.bind, pure, Except.pure, Except.map, hskip]
    | false =>
      simp [bind, Except.bind, pure, Except.pure, Except.map, hskip, DerivedProperty.bare,
        propertyName]

namespace Declaration

def firstOnly (d : Declaration μ) : Declaration μ :=
  { d with attributes := firstAttribute d.attributes, fields := d.fields.map (·.firstOnly) }

structure Distributes (d e : Declaration μ) : Prop where
  form : d.form = e.form
  generic : d.generic = e.generic
  attributes : FilterQuery.Distributes d.attributes e.attributes
  fields : List.Forall₂ DeclaredField.Distributes d.fields e.fields

/-- Of attributes that count only the first one has an effect, so that distributing arguments can
change the results; it does not, in any declaration, exactly if those of the first attribute settle
all that the others do. -/
theorem results_distributed [Inhabited μ] :
    (∀ d : Declaration μ, d.firstOnly.results = d.results) ∧
    (∀ d e : Declaration μ, d.Distributes e → RuleSettles d.attributes e.attributes →
      List.Forall₂ DeclaredField.Settles d.fields e.fields → e.results = d.results) ∧
    (∀ f g : DeclaredField μ, f.Distributes g →
      ((∀ form generic as before after,
        (⟨form, generic, as, before ++ g :: after⟩ : Declaration μ).results =
          (⟨form, generic, as, before ++ f :: after⟩ : Declaration μ).results) ↔ f.Settles g)) ∧
    (∀ as bs, FilterQuery.Distributes as bs →
      ((∀ form generic (fs : List (DeclaredField μ)),
        (⟨form, generic, bs, fs⟩ : Declaration μ).results =
          (⟨form, generic, as, fs⟩ : Declaration μ).results) ↔ RuleSettles as bs)) := by
  refine ⟨?first, ?settled, ?field, ?rule⟩
  case first =>
    intro d
    have hrule : ruleOf d.firstOnly.attributes = ruleOf d.attributes := by
      rw [ruleOf, firstOnly, arguments_firstAttribute, ruleOf]
    refine results_congr rfl rfl hrule fun rule? => ?_
    rw [firstOnly, List.map_map]
    exact List.map_congr_left fun f _ => f.outcome_firstOnly rule?
  case settled =>
    intro d e h hrule hfields
    have houtcome := DeclaredField.map_outcome_eq h.fields hfields
    exact (results_congr h.form h.generic (h.attributes.ruleOf_eq_iff.mpr hrule) houtcome).symm
  case field =>
    intro f g h
    apply Iff.intro
    · intro hresults
      apply DeclaredField.settles_of_outcome
      intro rule?
      obtain ⟨as, hrule⟩ := exists_ruleOf (rule?.getD .snake)
      have houtcome := h.outcome_eq_of_results hrule (hresults .named false as [] [])
      unfold DeclaredField.outcome at houtcome ⊢
      rwa [DeclaredField.property?_getD, DeclaredField.property?_getD] at houtcome
    · intro hsettles form generic as before after
      refine results_congr rfl rfl rfl fun rule? => ?_
      simp only [List.map_append, List.map_cons, h.outcome_eq_of_settles hsettles rule?]
  case rule =>
    intro as bs h
    rw [← h.ruleOf_eq_iff]
    apply Iff.intro
    · intro hresults
      exact (ruleOf_eq_of_results default (hresults .named false [probe default])).symm
    · intro hrule form generic fs
      exact results_congr rfl rfl hrule.symm fun _ => rfl

/-- A name in an attribute after the one that leaves the field out changes nothing, and a field is
not left out by an attribute after the one that renames it. -/
theorem results_distributed_skip :
    (∀ form generic as before after,
      (⟨form, generic, as, before ++ ⟨"a", [⟨"sift", [.skip]⟩,
          ⟨"sift", [⟨"rename", .text "b"⟩]⟩], ()⟩ :: after⟩ : Declaration Unit).results =
        (⟨form, generic, as, before ++ ⟨"a", [⟨"sift", [.skip, ⟨"rename", .text "b"⟩]⟩], ()⟩ ::
          after⟩ : Declaration Unit).results) ∧
    (ofFields [] [⟨"a", [⟨"sift", [⟨"rename", .text "b"⟩]⟩, ⟨"sift", [.skip]⟩], ()⟩] :
        Declaration Unit).results =
      (ofFields [] [⟨"a", [⟨"sift", [⟨"rename", .text "b"⟩]⟩], ()⟩]).results := by
  obtain ⟨first, -, field, -⟩ := @results_distributed Unit _
  apply And.intro
  · have hfield : DeclaredField.Distributes
        (⟨"a", [⟨"sift", [.skip, ⟨"rename", .text "b"⟩]⟩], ()⟩ : DeclaredField Unit)
        ⟨"a", [⟨"sift", [.skip]⟩, ⟨"sift", [⟨"rename", .text "b"⟩]⟩], ()⟩ :=
      ⟨rfl, rfl, @Distributes.split [] [] [[.skip], [⟨"rename", .text "b"⟩]] (by simp) .nil⟩
    exact (field _ _ hfield).mpr (.inr ⟨rfl, .inl rfl⟩)
  · exact (first _).symm

/-- The second field is left out of the first declaration, and has a property in the second one. -/
theorem not_results_distributed :
    ¬ ∀ d e : Declaration Unit, d.Distributes e → e.results = d.results := by
  intro h
  have hfields : List.Forall₂ DeclaredField.Distributes
      ([⟨"a", [], ()⟩, ⟨"b", [⟨"sift", [⟨"rename", .text "x"⟩, .skip]⟩], ()⟩] :
        List (DeclaredField Unit))
      [⟨"a", [], ()⟩, ⟨"b", [⟨"sift", [⟨"rename", .text "x"⟩]⟩, ⟨"sift", [.skip]⟩], ()⟩] :=
    .cons ⟨rfl, rfl, .nil⟩ (.cons ⟨rfl, rfl,
      @Distributes.split [] [] [[⟨"rename", .text "x"⟩], [.skip]] (by simp) .nil⟩ .nil)
  have hdeclaration {fs gs : List (DeclaredField Unit)}
      (h : List.Forall₂ DeclaredField.Distributes fs gs) :
      (ofFields [] fs).Distributes (ofFields [] gs) :=
    ⟨rfl, rfl, .nil, h⟩
  have hsame := h _ _ (hdeclaration hfields)
  have hnames := congrArg (fun r => r.map fun ps => ps.map (·.name)) hsame
  exact absurd hnames (by decide +kernel)

end Declaration

end FilterQuery
