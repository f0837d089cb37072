import FilterQuery.Proofs.Value.Binary
import FilterQuery.Proofs.Value.Uuid
import FilterQuery.Shelf.Book

namespace FilterQuery

/-- Whether a text has no control character, so that it stays on one line. -/
def Text.Unbroken (cs : List Char) : Prop := ∀ c ∈ cs, 0x20 ≤ c.toNat

namespace Text.Unbroken

variable {cs ds : List Char} {c : Char}

@[simp] theorem nil : Unbroken [] := by
  simp [Unbroken]

@[simp] theorem cons_iff : Unbroken (c :: cs) ↔ 0x20 ≤ c.toNat ∧ Unbroken cs :=
  List.forall_mem_cons

@[simp] theorem append_iff : Unbroken (cs ++ ds) ↔ Unbroken cs ∧ Unbroken ds :=
  List.forall_mem_append

theorem of_subset (h : Unbroken ds) (hcs : cs ⊆ ds) : Unbroken cs :=
  fun c hc => h c (hcs hc)

theorem of_allDigits (h : allDigits cs = true) : Unbroken cs := by
  intro c hc
  have hdigit := Bool.and_eq_true_iff.mp (isDigit_of_allDigits h hc)
  have hlow : 48 ≤ c.toNat := UInt32.le_iff_toNat_le.mp (of_decide_eq_true hdigit.1)
  omega

theorem not_mem_lineFeed (h : Unbroken cs) : '\n' ∉ cs :=
  fun hc => absurd (h '\n' hc) (by decide)

theorem intercalate {separator : String} {items : List String}
    (hseparator : Unbroken separator.toList) (h : ∀ s ∈ items, Unbroken s.toList) :
    Unbroken (separator.intercalate items).toList := by
  induction items with
  | nil => simp
  | cons s items ih =>
    obtain ⟨hs, hitems⟩ := List.forall_mem_cons.mp h
    by_cases hne : items = []
    · simpa [hne] using hs
    · rw [String.intercalate_cons_of_ne_nil hne, String.toList_append, String.toList_append,
        append_iff, append_iff]
      exact ⟨⟨hs, hseparator⟩, ih hitems⟩

end Text.Unbroken

open Text (Unbroken)

theorem Integer.unbroken_render (n : Int) : Unbroken (render n) := by
  have hdigits := Unbroken.of_allDigits (Text.allDigits_digits n.natAbs)
  unfold render
  split
  · exact Unbroken.cons_iff.mpr ⟨by decide, hdigits⟩
  · exact hdigits

namespace Binary

theorem unbroken_placePoint {ds : List Char} (h : Unbroken ds) (places : Int) :
    Unbroken (placePoint ds places) := by
  have hzeros (n : Nat) : Unbroken (List.replicate n '0') := .of_allDigits (Text.allDigits_zeros n)
  have htake := h.of_subset (List.take_subset places.toNat ds)
  have hdrop := h.of_subset (List.drop_subset places.toNat ds)
  unfold placePoint
  split
  · simpa using ⟨hzeros _, h⟩
  · split
    · simpa using ⟨htake, hdrop⟩
    · simpa using ⟨h, hzeros _⟩

theorem unbroken_withExponent {ds : List Char} (h : Unbroken ds) (plus : Bool) (places : Int) :
    Unbroken (withExponent plus ds places) := by
  have hsign : Unbroken (if plus && 0 < places then ['+'] else []) := by
    split <;> simp
  have hscientific : Unbroken (Text.scientific ds) := by
    match ds with
    | [] => exact .nil
    | [_] => exact h
    | _ :: _ :: _ => simpa [Text.scientific] using h
  rw [withExponent_eq, Unbroken.append_iff, Unbroken.cons_iff, Unbroken.append_iff]
  exact ⟨hscientific, by decide, hsign, Integer.unbroken_render _⟩

theorem unbroken_render (x : Binary) (layout : Layout) (f : BinaryFormat) :
    Unbroken (x.render layout f) := by
  have hmagnitude : Unbroken (renderMagnitude layout f x.magnitude) := by
    unfold renderMagnitude
    split
    · simp
    · have hdigits := Unbroken.of_allDigits
        (Text.allDigits_digits (f.shortest layout.tie x.magnitude).1)
      dsimp only
      split
      · exact unbroken_placePoint hdigits _
      · exact unbroken_withExponent hdigits _ _
  unfold render
  split
  · simp
  · rw [Unbroken.append_iff]
    apply And.intro
    · split <;> simp
    · split
      · simp
      · exact hmagnitude

end Binary

namespace Json

theorem unbroken_escapeChar (c : Char) : Unbroken (escapeChar c) := by
  unfold escapeChar
  split
  case h_8 =>
    split
    · rw [Unbroken.cons_iff, Unbroken.cons_iff]
      refine ⟨by decide, by decide, ?_⟩
      intro d hd
      obtain ⟨k, hk, rfl⟩ := Uuid.mem_hexDigits hd
      have hall : ∀ k : Fin 16, 0x20 ≤ (Uuid.hexChar k).toNat := by decide
      exact hall ⟨k, hk⟩
    · next hprintable => simpa using hprintable
  all_goals simp

theorem unbroken_quote (s : String) : Unbroken (quote s).toList := by
  have hescaped : Unbroken (s.toList.flatMap escapeChar) := by
    intro c hc
    obtain ⟨d, -, hcd⟩ := List.mem_flatMap.mp hc
    exact unbroken_escapeChar d c hcd
  simpa [quote] using hescaped

theorem unbroken_renderScalar (v : Scalar) : Unbroken (renderScalar v).toList := by
  cases v with
  | bool b => cases b <;> simp [renderScalar, Scalar.encode]
  | int n => simpa [renderScalar, Scalar.encode] using Integer.unbroken_render n
  | uint n =>
    simpa [renderScalar, Scalar.encode] using Unbroken.of_allDigits (Text.allDigits_digits n)
  | float f x =>
    unfold renderScalar
    dsimp only
    split
    · simp
    · simpa using Binary.unbroken_render x layout f
  | _ => exact unbroken_quote _

theorem unbroken_comma : Unbroken ",".toList := by
  simp

theorem unbroken_renderFieldValue (v : FieldValue) : Unbroken (renderFieldValue v).toList := by
  have hnull : Unbroken "null".toList := by simp
  cases v with
  | null => exact hnull
  | scalar v => exact unbroken_renderScalar v
  | sequence items =>
    have hitems : ∀ s ∈ items.map renderOptional, Unbroken s.toList := by
      intro s hs
      obtain ⟨item, -, rfl⟩ := List.mem_map.mp hs
      cases item with
      | none => exact hnull
      | some v => exact unbroken_renderScalar v
    simpa [renderFieldValue, renderArray] using Unbroken.intercalate unbroken_comma hitems

theorem unbroken_renderObject {members : List (String × String)}
    (h : ∀ m ∈ members, Unbroken m.2.toList) : Unbroken (renderObject members).toList := by
  have hmembers : ∀ s ∈ members.map fun m => quote m.1 ++ ":" ++ m.2, Unbroken s.toList := by
    intro s hs
    obtain ⟨m, hm, rfl⟩ := List.mem_map.mp hs
    simpa using ⟨unbroken_quote m.1, h m hm⟩
  simpa [renderObject] using Unbroken.intercalate unbroken_comma hmembers

end Json

theorem Book.unbroken_render (b : Book) : Unbroken b.render.toList := by
  apply Json.unbroken_renderObject
  intro m hm
  obtain ⟨f, -, rfl⟩ := List.mem_map.mp hm
  exact Json.unbroken_renderFieldValue _

end FilterQuery
