import FilterQuery.Proofs.Likeness
import FilterQuery.Proofs.Queryable

namespace FilterQuery

/-! ## Conditions about a property of another name -/

def Condition.renamed (name : String) (c : Condition) : Condition :=
  { c with property := name }

namespace QueryError

def renamed (name : String) : QueryError → QueryError
  | .unknownProperty _ => .unknownProperty name
  | .coercion _ literal expected reason => .coercion name literal expected reason
  | .unsupported op _ reason => .unsupported op name reason
  | e => e

theorem kind_renamed (name : String) (e : QueryError) : (e.renamed name).kind = e.kind := by
  cases e <;> rfl

end QueryError

namespace Condition

variable {name : String} {c : Condition} {d : Descriptor}

theorem rejectNull_renamed :
    (c.renamed name).rejectNull d = (c.rejectNull d).mapError (.renamed name) := by
  rw [rejectNull, rejectNull, apply_ite (Except.mapError _)]
  rfl

theorem path_renamed : (c.renamed name).path d = (c.path d).mapError (.renamed name) := by
  simp only [path, renamed]
  cases d.shape.isSequence <;> cases c.literal.isList <;>
    simp only [apply_ite (Except.mapError _)] <;> rfl

theorem coerceAtom_renamed {a : Atom} :
    (c.renamed name).coerceAtom d a = (c.coerceAtom d a).mapError (.renamed name) := by
  cases a <;> simp only [coerceAtom] <;> split <;> rfl

theorem coerceAtoms_renamed {as : List Atom} :
    (c.renamed name).coerceAtoms d as = (c.coerceAtoms d as).mapError (.renamed name) := by
  induction as with
  | nil => rfl
  | cons a as ih =>
    simp only [coerceAtoms, mapError_bind, ← coerceAtom_renamed, ← ih]
    rfl

theorem single_renamed : (c.renamed name).single d = (c.single d).mapError (.renamed name) := by
  simp only [single, renamed]
  split
  · exact coerceAtom_renamed
  · rfl

theorem many_renamed : (c.renamed name).many d = (c.many d).mapError (.renamed name) := by
  simp only [many, renamed]
  split
  · exact coerceAtoms_renamed
  · rfl

theorem direct_renamed {v : Option Scalar} :
    (c.renamed name).direct v = (c.direct v).mapError (.renamed name) := by
  obtain ⟨op, property, literal⟩ := c
  cases op with
  | order => cases v <;> rfl
  | startsWith | endsWith =>
    cases v with
    | none => rfl
    | some x => cases x <;> rfl
  | _ => rfl

/-- What a condition comes to depends on the name of its property only where an error tells it. -/
theorem comparison_renamed :
    (c.renamed name).comparison d = (c.comparison d).mapError (.renamed name) := by
  simp only [comparison, mapError_bind, ← rejectNull_renamed, ← path_renamed]
  refine congrArg _ (funext fun _ => congrArg _ (funext fun p => ?_))
  cases p with
  | direct => simp only [mapError_bind, ← single_renamed, ← direct_renamed]
  | oneOf => rw [mapError_map, ← many_renamed]
  | contains => rw [mapError_map, ← single_renamed]
  | sequenceEquals =>
    rw [mapError_map, ← many_renamed]
    rfl

end Condition

/-! ## Names that differ in case -/

/-- Whether exactly the names that are listed resolve, and no two of them differ in case only. -/
structure Schema.DistinctNames {α : Type} (s : Schema α) : Prop where
  resolves : ∀ name, (∃ p, s.property? name = some p) ↔ name ∈ s.names
  names : (s.names.map Text.folded).Nodup

/-- Whether two clauses differ at most in the case of letters in the names of their properties. -/
structure Clause.Recased (c d : Clause) : Prop where
  joiner : d.joiner = c.joiner
  op : d.op = c.op
  literal : d.literal = c.literal
  property : Text.sameIgnoringCase c.property d.property = true

theorem Clause.Recased.condition {c d : Clause} (h : c.Recased d) :
    d.toCondition = c.toCondition.renamed d.property := by
  obtain ⟨⟨op, property, literal⟩, joiner⟩ := d
  cases h.op
  cases h.literal
  rfl

namespace Schema

variable {α : Type} {s : Schema α} {name : String}

theorem resolve_exact_eq_ok_iff {p : Property α} :
    s.resolve .exact name = .ok p ↔ s.property? name = some p := by
  unfold resolve
  cases s.property? name <;> simp

theorem resolve_ambiguous {a b : String} (hname : s.property? name = none)
    (hlisted : [a, b].Sublist s.names) (ha : Text.sameIgnoringCase name a = true)
    (hb : Text.sameIgnoringCase name b = true) :
    s.resolve .insensitive name = .error (.unknownProperty name) := by
  have hboth : [a, b].Sublist (s.names.filter (Text.sameIgnoringCase name)) := by
    have hfilter := hlisted.filter (Text.sameIgnoringCase name)
    rwa [List.filter_eq_self.mpr (by simp [ha, hb])] at hfilter
  simp only [resolve, hname]
  split
  · next hone =>
    rw [hone] at hboth
    exact absurd hboth.length_le (by simp)
  · rfl

namespace DistinctNames

variable {a : String} {p : Property α} (hs : s.DistinctNames)

include hs

theorem eq_of_folded_eq {b : String} (ha : a ∈ s.names) (hb : b ∈ s.names)
    (hab : Text.folded a = Text.folded b) : a = b :=
  List.inj_on_of_nodup_map hs.names ha hb hab

theorem filter_eq (ha : a ∈ s.names) (hname : Text.sameIgnoringCase name a = true) :
    s.names.filter (Text.sameIgnoringCase name) = [a] := by
  have hsame {b : String} (hb : b ∈ s.names) : Text.sameIgnoringCase name b = true ↔ b = a := by
    have hfolded : Text.folded name = Text.folded a := beq_iff_eq.mp hname
    rw [Text.sameIgnoringCase, beq_iff_eq, hfolded]
    exact ⟨fun h => (hs.eq_of_folded_eq ha hb h).symm, fun h => h ▸ rfl⟩
  have hnodup : s.names.Nodup := hs.names.of_map _
  rw [List.filter_congr (q := (· == a)) fun b hb => by rw [Bool.eq_iff_iff, hsame hb, beq_iff_eq]]
  rw [List.filter_beq, List.count_eq_one_of_mem hnodup ha]
  rfl

theorem resolve_listed (hp : s.property? a = some p)
    (hname : Text.sameIgnoringCase name a = true) : s.resolve .insensitive name = .ok p := by
  have ha : a ∈ s.names := (hs.resolves a).mp ⟨p, hp⟩
  cases hq : s.property? name with
  | some q =>
    have hfolded : Text.folded name = Text.folded a := beq_iff_eq.mp hname
    cases hs.eq_of_folded_eq ((hs.resolves name).mp ⟨q, hq⟩) ha hfolded
    exact resolve_of_property? hp .insensitive
  | none => simp only [resolve, hq, hs.filter_eq ha hname, hp]

theorem resolve_unlisted (hname : ∀ a ∈ s.names, Text.sameIgnoringCase name a = false) :
    s.resolve .insensitive name = .error (.unknownProperty name) := by
  have hnone : s.property? name = none := by
    by_contra hsome
    obtain ⟨p, hp⟩ := Option.ne_none_iff_exists'.mp hsome
    have hself := hname name ((hs.resolves name).mp ⟨p, hp⟩)
    simp [Text.sameIgnoringCase] at hself
  have hfilter : s.names.filter (Text.sameIgnoringCase name) = [] := by
    rw [List.filter_eq_nil_iff]
    intro a ha
    rw [hname a ha]
    exact Bool.false_ne_true
  simp only [resolve, hnone, hfilter]

theorem resolve_recased {name' : String} (h : Text.sameIgnoringCase name name' = true) :
    s.resolve .insensitive name' = (s.resolve .insensitive name).mapError (.renamed name') := by
  have hsame (a : String) : Text.sameIgnoringCase name' a = Text.sameIgnoringCase name a := by
    rw [Text.sameIgnoringCase, Text.sameIgnoringCase, beq_iff_eq.mp h]
  by_cases hlisted : ∃ a ∈ s.names, Text.sameIgnoringCase name a = true
  · obtain ⟨a, ha, hname⟩ := hlisted
    obtain ⟨p, hp⟩ := (hs.resolves a).mpr ha
    rw [hs.resolve_listed hp hname, hs.resolve_listed hp ((hsame a).trans hname)]
    rfl
  · have hname : ∀ a ∈ s.names, Text.sameIgnoringCase name a = false := by
      intro a ha
      exact Bool.eq_false_iff.mpr fun h => hlisted ⟨a, ha, h⟩
    rw [hs.resolve_unlisted hname, hs.resolve_unlisted fun a ha => (hsame a).trans (hname a ha)]
    rfl

end DistinctNames

theorem distinctNames_ofProperties {ps : List (DerivedProperty (Member α))}
    (h : (ps.map fun p => Text.folded p.name).Nodup) : (ofProperties ps).DistinctNames where
  resolves _ := exists_property?_ofProperties_iff
  names := by simpa [ofProperties, Function.comp_def] using h

end Schema

namespace Options

variable {α : Type} {o o' : Options} {s : Schema α}

/-! ## Queries that match names with and without regard to case -/

theorem compileCondition_of_exact {c : Condition} {p : Predicate α} (ho : o.nameCase = .exact)
    (h : o.compileCondition s c = .ok p) : o'.compileCondition s c = .ok p := by
  obtain ⟨q, hq, h⟩ := bind_eq_ok_iff.mp h
  rw [ho, Schema.resolve_exact_eq_ok_iff] at hq
  exact bind_eq_ok_iff.mpr ⟨q, Schema.resolve_of_property? hq o'.nameCase, h⟩

theorem follows_of_exact (ho : o.nameCase = .exact) (c : Clause) : o.Follows o' s Eq c c where
  joiner := rfl
  condition p hp := ⟨p, compileCondition_of_exact ho hp, fun _ _ hab => congrArg p.holds hab⟩

/-- The first clause whose condition has a fault is the fault of a query, if the clauses before it
have none and it is not joined to nothing. -/
theorem compileClauses_first_fault {before after : List Clause} {c : Clause} {e : QueryError}
    (hbefore : before = [] ∧ c.joiner = none ∨ ∃ p, o.compileClauses s before = .ok p)
    (h : o.compileCondition s c.toCondition = .error e) :
    o.compileClauses s (before ++ c :: after) = .error e := by
  rcases hbefore with ⟨rfl, hc⟩ | hok
  · rw [List.nil_append, compileClauses, hc, h]
    rfl
  · obtain ⟨hne, hjoined, halone⟩ := compileClauses_ok_iff.mp hok
    -- After other clauses the condition is looked at before the joiner, so that may be anything.
    obtain ⟨n, hn⟩ := Nat.exists_eq_succ_of_ne_zero (List.length_pos_iff.mpr hne).ne'
    rw [compileClauses_eq_error_iff]
    refine .inr ⟨before.length, c, by simp, ?_, ?_⟩
    · simp only [fault?, Nat.zero_add, hn, compileClauses_alone, h]
    · intro k d hd hk
      rw [List.getElem?_append_left hk] at hd
      rw [Nat.zero_add, fault?_eq_none_iff]
      exact ⟨hjoined k d hd, halone d (List.mem_of_getElem? hd)⟩

/-! ## Queries that spell the same names otherwise -/

section Recased

variable {cs ds : List Clause} (ho : o.nameCase = .insensitive) (hs : s.DistinctNames)

include ho hs

theorem compileCondition_recased {c d : Clause} (h : c.Recased d) :
    o.compileCondition s d.toCondition =
      (o.compileCondition s c.toCondition).mapError (.renamed d.property) := by
  simp only [compileCondition, ho, mapError_bind]
  rw [hs.resolve_recased h.property, h.condition]
  refine congrArg _ (funext fun p => ?_)
  rw [Condition.comparison_renamed]
  rfl

theorem kind_compileJoined_recased {n : Nat} {q : Predicate α}
    (h : List.Forall₂ Clause.Recased cs ds) :
    (o.compileJoined s n q ds).mapError QueryError.kind =
      (o.compileJoined s n q cs).mapError QueryError.kind := by
  induction h generalizing n q with
  | nil => rfl
  | @cons c d cs ds hcd _ ih =>
    rw [compileJoined, compileJoined, compileCondition_recased ho hs hcd, hcd.joiner]
    cases o.compileCondition s c.toCondition with
    | error e => exact congrArg Except.error (e.kind_renamed d.property)
    | ok p =>
      cases c.joiner with
      | none => rfl
      | some j => cases j <;> exact ih

theorem kind_compileClauses_recased (h : List.Forall₂ Clause.Recased cs ds) :
    (o.compileClauses s ds).mapError QueryError.kind =
      (o.compileClauses s cs).mapError QueryError.kind := by
  cases h with
  | nil => rfl
  | @cons c d cs ds hcd htail =>
    rw [compileClauses, compileClauses, compileCondition_recased ho hs hcd, hcd.joiner]
    cases c.joiner with
    | some j => rfl
    | none =>
      cases o.compileCondition s c.toCondition with
      | error e => exact congrArg Except.error (e.kind_renamed d.property)
      | ok p => exact kind_compileJoined_recased ho hs htail

end Recased

/-- Whoever matches names with regard to case gets the same answers without. A name that does not
resolve and is like two listed ones is unknown. Where no two names are alike, the case of letters
in the names of a query makes no difference. -/
theorem compileClauses_nameCase (o : Options) (s : Schema α) :
    let exact := { o with nameCase := .exact }
    let insensitive := { o with nameCase := .insensitive }
    (∀ cs p, exact.compileClauses s cs = .ok p →
      ∃ q, insensitive.compileClauses s cs = .ok q ∧ ∀ a, q.holds a = p.holds a) ∧
    (∀ (c : Clause) a b before after, s.property? c.property = none → [a, b].Sublist s.names →
      Text.sameIgnoringCase c.property a = true → Text.sameIgnoringCase c.property b = true →
      (before = [] ∧ c.joiner = none ∨ ∃ p, insensitive.compileClauses s before = .ok p) →
      insensitive.compileClauses s (before ++ c :: after) =
        .error (.unknownProperty c.property)) ∧
    (s.DistinctNames → ∀ cs ds, List.Forall₂ Clause.Recased cs ds →
      (∀ p, insensitive.compileClauses s cs = .ok p →
        ∃ q, insensitive.compileClauses s ds = .ok q ∧ ∀ a, q.holds a = p.holds a) ∧
      ∀ e, insensitive.compileClauses s cs = .error e →
        ∃ f, insensitive.compileClauses s ds = .error f ∧ f.kind = e.kind) := by
  intro exact insensitive
  refine ⟨?_, ?_, ?_⟩
  · intro cs p hp
    have hfollows : List.Forall₂ (exact.Follows insensitive s Eq) cs cs :=
      List.forall₂_same.mpr fun c _ => follows_of_exact rfl c
    obtain ⟨q, hq, hagree⟩ := compileClauses_agree hfollows hp
    exact ⟨q, hq, fun a => (hagree a a rfl).symm⟩
  · intro c a b before after hnone hlisted ha hb hbefore
    apply compileClauses_first_fault hbefore
    exact bind_eq_error_iff.mpr (.inl (Schema.resolve_ambiguous hnone hlisted ha hb))
  · intro hs cs ds hcs
    have hkind := kind_compileClauses_recased (o := insensitive) rfl hs hcs
    apply And.intro
    · intro p hp
      rw [hp] at hkind
      exact ⟨p, mapError_eq_ok_iff.mp hkind, fun _ => rfl⟩
    · intro e he
      rw [he] at hkind
      exact mapError_eq_error_iff.mp hkind

/-- Of two switches that are named alike each has its own name and no other; without the first of
them the second has all names that are like it. -/
theorem compileClauses_nameCase_switches :
    let exact : Options := { nameCase := .exact }
    let s := Schema.ofProperties (derivedProperties none switches.fields)
    let t := Schema.ofProperties (derivedProperties none switches.fields.tail)
    let on (name : String) : Clause := ⟨⟨.equal, name, .single (.text "true")⟩, none⟩
    let below (name : String) : Clause := ⟨⟨.order .less, name, .single .null⟩, some .or⟩
    (∃ p q, exact.compileClauses s [on "ison"] = .ok p ∧
      ({} : Options).compileClauses s [on "ison"] = .ok q ∧ ∀ a, q.holds a = p.holds a) ∧
    ({} : Options).compileClauses s ([on "isOn"] ++ [below "ISON"]) =
      .error (.unknownProperty "ISON") ∧
    (∃ p q, ({} : Options).compileClauses t [on "ison"] = .ok p ∧
      ({} : Options).compileClauses t [on "ISON"] = .ok q ∧ ∀ a, q.holds a = p.holds a) ∧
    ∃ e f, ({} : Options).compileClauses t [on "ison", below "ison"] = .error e ∧
      ({} : Options).compileClauses t [on "IsOn", below "ISON"] = .error f ∧ f.kind = e.kind := by
  intro exact s t on below
  obtain ⟨hexact, hambiguous, _⟩ := compileClauses_nameCase {} s
  obtain ⟨_, _, hrecased⟩ := compileClauses_nameCase {} t
  have ht : t.DistinctNames := Schema.distinctNames_ofProperties (by decide +kernel)
  have hon (name : String) (h : Text.sameIgnoringCase "ison" name = true) :
      (on "ison").Recased (on name) := ⟨rfl, rfl, rfl, h⟩
  have hbelow : (below "ison").Recased (below "ISON") := ⟨rfl, rfl, rfl, by decide⟩
  have hp : ∃ p, exact.compileClauses s [on "ison"] = .ok p := ⟨_, rfl⟩
  have hq : ∃ p, ({} : Options).compileClauses t [on "ison"] = .ok p := ⟨_, rfl⟩
  have he : ∃ e, ({} : Options).compileClauses t [on "ison", below "ison"] = .error e := ⟨_, rfl⟩
  refine ⟨?_, ?_, ?_, ?_⟩
  · obtain ⟨p, hp⟩ := hp
    obtain ⟨q, hq, hholds⟩ := hexact _ p hp
    exact ⟨p, q, hp, hq, hholds⟩
  · exact hambiguous (below "ISON") "isOn" "ison" [on "isOn"] [] rfl (by decide +kernel)
      (by decide) (by decide) (.inr ⟨_, rfl⟩)
  · obtain ⟨p, hp⟩ := hq
    obtain ⟨q, hq, hholds⟩ := (hrecased ht _ _ (.cons (hon "ISON" (by decide)) .nil)).1 p hp
    exact ⟨p, q, hp, hq, hholds⟩
  · obtain ⟨e, he⟩ := he
    obtain ⟨f, hf, hkind⟩ :=
      (hrecased ht _ _ (.cons (hon "IsOn" (by decide)) (.cons hbelow .nil))).2 e he
    exact ⟨e, f, he, hf, hkind⟩

end Options

end FilterQuery
