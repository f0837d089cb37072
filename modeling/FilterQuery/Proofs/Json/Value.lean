import FilterQuery.Json.Value
import FilterQuery.Json.Write
import FilterQuery.Proofs.Json.Number
import FilterQuery.Proofs.Value.Uuid
import Mathlib.Data.List.Forall2

namespace FilterQuery.Json

/-! ## Strings -/

def pointsOf (s : String) : List Nat := s.toList.map Char.toNat

theorem readString?_escapeChar (c : Char) {rest tail : List Char} {points : List Nat}
    (h : readString? rest = some (points, tail)) :
    readString? (escapeChar c ++ rest) = some (c.toNat :: points, tail) := by
  unfold escapeChar
  split
  case h_8 hquote hslash _ _ _ _ _ =>
    split
    · next hcontrol =>
      have hpoint := Uuid.ofHexDigits?_hexDigits 4 c.toNat
      have hsmall : c.toNat < Nat.pow 16 4 := hcontrol.trans (by decide)
      rw [Nat.mod_eq_of_lt hsmall] at hpoint
      simp only [Uuid.hexDigits, List.nil_append, List.cons_append] at hpoint ⊢
      simp [readString?, hpoint, h]
    · next hprintable =>
      rw [List.singleton_append, readString?]
      · simp [hprintable, h]
      · exact hquote
      · rintro _ _ _ _ _ rfl
        exact absurd rfl hslash
      · rintro _ _ rfl
        exact absurd rfl hslash
  all_goals simp [readString?, escaped?, h]

theorem readString?_escape (cs rest : List Char) :
    readString? (cs.flatMap escapeChar ++ '"' :: rest) = some (cs.map Char.toNat, rest) := by
  induction cs with
  | nil => rw [List.flatMap_nil, List.nil_append, readString?, List.map_nil]
  | cons c cs ih =>
    rw [List.flatMap_cons, List.append_assoc, readString?_escapeChar c ih, List.map_cons]

theorem not_surrogate (c : Char) :
    isHighSurrogate c.toNat = false ∧ isLowSurrogate c.toNat = false := by
  have hvalid : c.toNat < 0xD800 ∨ 0xDFFF < c.toNat ∧ c.toNat < 0x110000 := c.valid
  simp only [isHighSurrogate, isLowSurrogate, Bool.and_eq_false_iff, decide_eq_false_iff_not]
  omega

theorem decodePoints?_toNat (cs : List Char) : decodePoints? (cs.map Char.toNat) = some cs := by
  induction cs with
  | nil => rw [List.map_nil, decodePoints?]
  | cons c cs ih =>
    cases cs with
    | nil => simp [decodePoints?, not_surrogate, Char.ofNat_toNat]
    | cons d cs =>
      rw [List.map_cons, List.map_cons, decodePoints?, ← List.map_cons, ih]
      simp [not_surrogate, Char.ofNat_toNat]

theorem textOf?_pointsOf (s : String) : textOf? (pointsOf s) = some s := by
  rw [textOf?, pointsOf, decodePoints?_toNat, Option.map_some, String.ofList_toList]

/-! ## Tokens -/

/-- Whether a text can follow a number or a word. -/
def Ends (rest : List Char) : Prop :=
  ∀ c ∈ rest.head?, isNumberChar c = false ∧ c.isAlpha = false

/-- Whether a text has these tokens, whatever comes after it. -/
def Lexes (cs : List Char) (us : List Token) : Prop :=
  ∀ rest, Ends rest → tokens? (cs ++ rest) = (tokens? rest).map (us ++ ·)

theorem tokens?_cons {c : Char} {cs rest : List Char} {t : Token} (hblank : isBlank c = false)
    (h : readToken? c cs = some (t, rest)) :
    tokens? (c :: cs) = (tokens? rest).map (t :: ·) := by
  rw [tokens?, if_neg (by simp [hblank])]
  split
  · next hnone =>
    rw [h] at hnone
    cases hnone
  · next hsome =>
    rw [h] at hsome
    cases hsome
    rfl

theorem span_append {p : Char → Bool} {cs rest : List Char} (hcs : ∀ c ∈ cs, p c = true)
    (hrest : ∀ c ∈ rest.head?, p c = false) :
    (cs ++ rest).takeWhile p = cs ∧ (cs ++ rest).dropWhile p = rest := by
  rw [List.takeWhile_append_of_pos hcs, List.dropWhile_append_of_pos hcs]
  cases rest with
  | nil => simp
  | cons c rest => simp [hrest c rfl]

theorem mark?_cases {c : Char} {t : Token} (h : mark? c = some t) :
    isBlank c = false ∧ isNumberChar c = false ∧ c.isAlpha = false := by
  unfold mark? at h
  split at h
  case h_7 => cases h
  all_goals decide

namespace Lexes

variable {cs ds : List Char} {us vs : List Token} {c : Char} {t : Token}

theorem nil : Lexes [] [] := by
  intro rest _
  cases h : tokens? rest <;> simp [h]

theorem cons_mark (hc : mark? c = some t) (h : Lexes ds vs) : Lexes (c :: ds) (t :: vs) := by
  intro rest hrest
  have hread : readToken? c (ds ++ rest) = some (t, ds ++ rest) := by
    rw [readToken?, hc]
  rw [List.cons_append, tokens?_cons (mark?_cases hc).1 hread, h rest hrest, Option.map_map]
  rfl

theorem append_mark (h : Lexes cs us) (hc : mark? c = some t) (hds : Lexes ds vs) :
    Lexes (cs ++ c :: ds) (us ++ t :: vs) := by
  intro rest hrest
  have hends : Ends (c :: ds ++ rest) := by
    rintro d ⟨⟩
    exact (mark?_cases hc).2
  rw [List.append_assoc, h _ hends, hds.cons_mark hc rest hrest, Option.map_map]
  simp [Function.comp_def]

theorem quote (s : String) : Lexes (quote s).toList [.string (pointsOf s)] := by
  intro rest _
  have hread : readToken? '"' (s.toList.flatMap escapeChar ++ '"' :: rest) =
      some (.string (pointsOf s), rest) := by
    rw [readToken?, readString?_escape]
    rfl
  have htokens := tokens?_cons rfl hread
  simpa [Json.quote] using htokens

theorem number {n : Number} (h : n.Writes cs) : Lexes cs [.number n] := by
  obtain ⟨c, digits, rfl, hfirst⟩ := h.exists_cons
  have hchars := (List.forall_mem_cons.mp h.isNumberChar).2
  have hne {d : Char} (hd : (d.isDigit || d == '-') = false) : c ≠ d := by
    rintro rfl
    exact Bool.false_ne_true (hd.symm.trans hfirst)
  have hblank : isBlank c = false := by simp [isBlank, hne]
  have hmark : mark? c = none := by
    unfold mark?
    split
    case h_7 => rfl
    all_goals exact absurd rfl (hne rfl)
  intro rest hrest
  obtain ⟨htake, hdrop⟩ := span_append hchars fun d hd => (hrest d hd).1
  have hread : readToken? c (digits ++ rest) = some (.number n, rest) := by
    rw [readToken?, hmark]
    dsimp only
    rw [if_neg (hne rfl), if_pos hfirst, htake, hdrop, h.read?_eq]
    rfl
  exact tokens?_cons hblank hread

theorem null : Lexes "null".toList [.null] := by
  intro rest hrest
  have hletters : ∀ c ∈ ['u', 'l', 'l'], c.isAlpha = true := List.all_eq_true.mp rfl
  obtain ⟨htake, hdrop⟩ := span_append hletters fun d hd => (hrest d hd).2
  have hread : readToken? 'n' (['u', 'l', 'l'] ++ rest) = some (.null, rest) := by
    have hmark : mark? 'n' = none := rfl
    rw [readToken?, hmark]
    dsimp only
    rw [if_neg (by decide), if_neg (by decide), htake, hdrop]
    rfl
  exact tokens?_cons rfl hread

end Lexes

/-! ## Values -/

/-- Whether a text is read as a value wherever one can stand. -/
def Spells (cs : List Char) (j : Json) : Prop :=
  ∃ us, Lexes cs us ∧ ∀ around ts, readValue? around (us ++ ts) = readAfter? j around ts

theorem Spells.parse? {s : String} {j : Json} (h : Spells s.toList j) : parse? s = some j := by
  obtain ⟨us, hlex, hread⟩ := h
  have hends : Ends [] := by simp [Ends]
  have htokens := hlex [] hends
  have hvalue := hread [] []
  rw [List.append_nil, tokens?, Option.map_some, List.append_nil] at htokens
  rw [List.append_nil, readAfter?] at hvalue
  rw [Json.parse?, htokens]
  exact hvalue

theorem spells_quote (s : String) : Spells (quote s).toList (.string (pointsOf s)) :=
  ⟨_, .quote s, fun _ _ => by rw [List.singleton_append, readValue?]⟩

theorem spells_number {cs : List Char} {n : Number} (h : n.Writes cs) : Spells cs (.number n) :=
  ⟨_, .number h, fun _ _ => by rw [List.singleton_append, readValue?]⟩

theorem spells_null : Spells "null".toList .null :=
  ⟨_, .null, fun _ _ => by rw [List.singleton_append, readValue?]⟩

theorem toList_intercalate_cons {s : String} {ss : List String} (h : ss ≠ []) :
    (",".intercalate (s :: ss)).toList = s.toList ++ ',' :: (",".intercalate ss).toList := by
  rw [String.intercalate_cons_of_ne_nil h]
  simp

theorem exists_lexes_items {texts : List String} {js : List Json}
    (h : List.Forall₂ (fun s j => Spells s.toList j) texts js) (hne : texts ≠ []) :
    ∃ us, Lexes (",".intercalate texts).toList us ∧ ∀ before around ts,
      readValue? (.array before :: around) (us ++ .closeArray :: ts) =
        readAfter? (.array (before.reverse ++ js)) around ts := by
  -- The elements that were read stand in the innermost frame, the last of them first.
  induction h with
  | nil => exact absurd rfl hne
  | @cons s j texts js hs hrest ih =>
    obtain ⟨us, hlex, hread⟩ := hs
    by_cases hlast : texts = []
    · subst hlast
      cases hrest
      refine ⟨us, by simpa using hlex, ?_⟩
      intro before around ts
      rw [hread, readAfter?, List.reverse_cons]
    · obtain ⟨vs, hlexRest, hreadRest⟩ := ih hlast
      refine ⟨us ++ .comma :: vs, ?_, ?_⟩
      · rw [toList_intercalate_cons hlast]
        exact hlex.append_mark rfl hlexRest
      · intro before around ts
        rw [List.append_assoc, List.cons_append, hread, readAfter?, hreadRest]
        simp

theorem readValue?_openArray {around : List Frame} {ts : List Token}
    (h : ts.head? ≠ some .closeArray) :
    readValue? around (.openArray :: ts) = readValue? (.array [] :: around) ts := by
  rw [readValue?]
  rintro ts rfl
  exact h rfl

theorem readValue?_openObject {around : List Frame} {ts : List Token}
    (h : ts.head? ≠ some .closeObject) :
    readValue? around (.openObject :: ts) = readMember? [] around ts := by
  rw [readValue?]
  rintro ts rfl
  exact h rfl

theorem spells_renderArray {texts : List String} {js : List Json}
    (h : List.Forall₂ (fun s j => Spells s.toList j) texts js) :
    Spells (renderArray texts).toList (.array js) := by
  have hclose {us : List Token} (hus : Lexes (",".intercalate texts).toList us) :
      Lexes (renderArray texts).toList (.openArray :: (us ++ [.closeArray])) := by
    have hlex := (hus.append_mark (c := ']') rfl .nil).cons_mark (c := '[') rfl
    simpa [renderArray] using hlex
  by_cases hne : texts = []
  · subst hne
    cases h
    refine ⟨_, hclose .nil, ?_⟩
    intro around ts
    rw [List.nil_append, List.cons_append, List.singleton_append, readValue?]
  · obtain ⟨us, hlex, hread⟩ := exists_lexes_items h hne
    -- A bracket that closes at once would be an empty array.
    have hhead (ts : List Token) : (us ++ .closeArray :: ts).head? ≠ some .closeArray := by
      have hsome := hread [] [] []
      cases us with
      | nil => simp [readValue?, readAfter?] at hsome
      | cons u us =>
        rintro ⟨⟩
        simp [readValue?, readAfter?] at hsome
    refine ⟨_, hclose hlex, ?_⟩
    intro around ts
    rw [List.cons_append, List.append_assoc, List.singleton_append,
      readValue?_openArray (hhead ts), hread, List.reverse_nil, List.nil_append]

def membersOf (members : List (String × String)) (js : List Json) : List (List Nat × Json) :=
  List.zipWith (fun m j => (pointsOf m.1, j)) members js

theorem exists_lexes_members {members : List (String × String)} {js : List Json}
    (h : List.Forall₂ (fun m j => Spells m.2.toList j) members js) (hne : members ≠ []) :
    ∃ name us,
      Lexes (",".intercalate (members.map fun (name, value) =>
        quote name ++ ":" ++ value)).toList (.string name :: us) ∧
      ∀ before around ts,
        readMember? before around (.string name :: (us ++ .closeObject :: ts)) =
          readAfter? (.object (before.reverse ++ membersOf members js)) around ts := by
  induction h with
  | nil => exact absurd rfl hne
  | @cons m j members js hm hrest ih =>
    obtain ⟨us, hlex, hread⟩ := hm
    have hmember :
        Lexes (quote m.1 ++ ":" ++ m.2).toList (.string (pointsOf m.1) :: .colon :: us) := by
      simpa using (Lexes.quote m.1).append_mark (c := ':') rfl hlex
    refine ⟨pointsOf m.1, ?_⟩
    by_cases hlast : members = []
    · subst hlast
      cases hrest
      refine ⟨.colon :: us, by simpa using hmember, ?_⟩
      intro before around ts
      rw [List.cons_append, readMember?, hread, readAfter?, List.reverse_cons]
      rfl
    · obtain ⟨name, vs, hlexRest, hreadRest⟩ := ih hlast
      refine ⟨.colon :: (us ++ .comma :: .string name :: vs), ?_, ?_⟩
      · rw [List.map_cons, toList_intercalate_cons (by simpa using hlast)]
        exact hmember.append_mark rfl hlexRest
      · intro before around ts
        rw [List.cons_append, List.append_assoc, List.cons_append, List.cons_append, readMember?,
          hread, readAfter?, hreadRest]
        simp [membersOf]

theorem spells_renderObject {members : List (String × String)} {js : List Json}
    (h : List.Forall₂ (fun m j => Spells m.2.toList j) members js) (hne : members ≠ []) :
    Spells (renderObject members).toList (.object (membersOf members js)) := by
  obtain ⟨name, us, hlex, hread⟩ := exists_lexes_members h hne
  have hclose := (hlex.append_mark (c := '\x7d') rfl .nil).cons_mark (c := '\x7b') rfl
  refine ⟨_, by simpa [renderObject] using hclose, ?_⟩
  intro around ts
  rw [List.cons_append, List.cons_append, readValue?_openObject (by simp), List.append_assoc,
    List.singleton_append, hread, List.reverse_nil, List.nil_append]

end FilterQuery.Json
