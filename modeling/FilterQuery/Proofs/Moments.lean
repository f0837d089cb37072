import FilterQuery.Proofs.TypedValues
import FilterQuery.Proofs.Value.DateTime
import FilterQuery.Proofs.Value.Order

namespace FilterQuery

variable {t : DateTime}

/-! ## What a moment is taken for -/

/-- The text of a moment stands for that moment only if it can show it. -/
theorem DateTime.compare_shown_iff (hnanos : t.nanos < 2 * leap) :
    t.shown.compare t = .eq ↔ t.Showable := by
  rw [compare_eq_eq_iff]
  apply Iff.intro
  · intro h
    obtain ⟨hseconds, hfraction⟩ := h
    have hoffset (h : t.shown =
        ⟨t.seconds + t.offset - rounded t.offset, t.nanos, rounded t.offset⟩) :
        t.offset % 60 = 0 := by
      rw [h] at hseconds
      exact rounded_eq_iff.mp (by dsimp only at hseconds; omega)
    by_cases hleap : leap ≤ t.nanos
    · by_cases hlast : (t.seconds + t.offset) % 60 = 59
      · have hminutes := hoffset (shown_of_leap hleap hnanos hlast)
        exact ⟨hminutes, fun _ => by omega⟩
      · have := nanos_shown_of_leap hleap hlast
        omega
    · exact ⟨hoffset (shown_of_not_leap (Nat.not_le.mp hleap)), fun h => absurd h hleap⟩
  · intro h
    rw [h.shown_eq hnanos]
    exact ⟨rfl, rfl⟩

section

variable (ht : Kind.dateTime.Holds (.dateTime t)) (hyear : 0 ≤ t.date.year ∧ t.date.year ≤ 9999)

include ht hyear

theorem Kind.decodes_equal_iff :
    (∃ u, Kind.dateTime.decode (Scalar.dateTime t).encode = .ok (.dateTime u) ∧
      u.compare t = .eq) ↔ t.Showable := by
  rw [decode_encode_dateTime ht hyear]
  apply Iff.intro
  · intro h
    obtain ⟨u, hu, hequal⟩ := h
    split at hu
    · cases hu
      exact (DateTime.compare_shown_iff ht.1).mp hequal
    · cases hu
  · intro h
    rw [DateTime.rounded_eq_iff.mpr h.wholeMinutes, if_pos ht.2]
    exact ⟨t.shown, rfl, (DateTime.compare_shown_iff ht.1).mpr h⟩

end

theorem DateTime.encode_ne_nullText (t : DateTime) : (Scalar.dateTime t).encode ≠ nullText := by
  have hhead : ∃ c cs, renderYear t.date.year = c :: cs ∧ c ≠ '$' := by
    unfold renderYear
    split
    · obtain ⟨c, cs, hc⟩ := List.exists_cons_of_ne_nil
        (List.append_ne_nil_of_right_ne_nil _ (Text.digits_ne_nil t.date.year.toNat))
      have hdigit := Text.isDigit_of_allDigits (Text.allDigits_padded 4 t.date.year.toNat)
        (hc ▸ List.mem_cons_self)
      refine ⟨c, cs, hc, ?_⟩
      rintro rfl
      cases hdigit
    · split
      · exact ⟨'-', _, rfl, by decide⟩
      · exact ⟨'+', _, rfl, by decide⟩
  obtain ⟨c, cs, hc, hne⟩ := hhead
  intro h
  have htext : t.render = '$' :: "!NULL!$".toList := by
    rw [← String.toList_ofList (l := t.render)]
    exact congrArg String.toList h
  simp only [render, hc, List.cons_append, List.cons.injEq] at htext
  exact hne htext.1

/-! ## From a moment to the records that are matched -/

def Draft.moment (name : String) (t : DateTime) : Draft :=
  .equal name (.single (Scalar.toAtom (some (.dateTime t))))

section

variable {α : Type} {s : Schema α} {p : Property α} {name : String} {a : α}
  (hp : s.resolve .insensitive name = .ok p) (hk : p.descriptor.kind = .dateTime)
  (hd : p.descriptor.shape.isSequence = false) (hblank : Text.Blank name = false)
  (hname : name ≠ nullText)

include hp hk hd hblank hname

theorem Draft.compile_moment (t : DateTime) :
    (Draft.moment name t).compile s =
      ((Kind.dateTime.decode (Scalar.dateTime t).encode).map fun v =>
        p.test (.equals (some v) false)).mapError fun e =>
          .coercion name (Scalar.dateTime t).encode p.descriptor (.undecodable e) := by
  let c : Condition := ⟨.equal, name, .single (.text (Scalar.dateTime t).encode)⟩
  have hreadable : c.Readable := ⟨hblank, hname, by simp [c]⟩
  have hread : c.readBack = c := by
    simp [c, Condition.readBack, Literal.readBack, Atom.readBack, t.encode_ne_nullText]
  have hcomparison : c.comparison p.descriptor =
      (c.coerceAtom p.descriptor (.text (Scalar.dateTime t).encode)).map fun v =>
        .equals v false :=
    Condition.comparison_equal hd (by simp)
  have hcompile : (Draft.moment name t).compile s =
      (c.readBack.comparison p.descriptor).map p.test :=
    Draft.compile_single hreadable hp
  rw [hcompile, hread, hcomparison, Condition.coerceAtom, hk]
  cases Kind.dateTime.decode (Scalar.dateTime t).encode <;> rfl

end

theorem Property.holds_moment_iff {α : Type} {p : Property α} {a : α} {u : DateTime}
    (ha : p.read a = .scalar (.dateTime t)) :
    (p.test (.equals (some (.dateTime u)) false)).holds a = true ↔ u.compare t = .eq := by
  have hcompare : t.compare u = .eq ↔ u.compare t = .eq := by
    rw [DateTime.compare_eq_eq_iff, DateTime.compare_eq_eq_iff, eq_comm, eq_comm (a := t.nanos)]
  rw [← hcompare]
  simp [test, Comparison.holds, ha, FieldValue.scalar?, Scalar.optionalEquals, Scalar.equals,
    Scalar.compare]

/-- The text of a moment is decoded as what its clock shows at the offset rounded to minutes, if
that is less than a day. This equals the moment, and the test for the moment finds a record that
holds it, just if the offset is one of whole minutes and a leap second ends its minute. -/
theorem Draft.moment_finds {α : Type} {s : Schema α} {p : Property α} {name : String} {a : α}
    (ht : Kind.dateTime.Holds (.dateTime t)) (hyear : 0 ≤ t.date.year ∧ t.date.year ≤ 9999)
    (hp : s.resolve .insensitive name = .ok p) (hk : p.descriptor.kind = .dateTime)
    (hd : p.descriptor.shape.isSequence = false) (hblank : Text.Blank name = false)
    (hname : name ≠ nullText) (ha : p.read a = .scalar (.dateTime t)) :
    (Kind.dateTime.decode (Scalar.dateTime t).encode =
      if (DateTime.rounded t.offset).natAbs < 86400 then .ok (.dateTime t.shown)
      else .error .invalidDateTime) ∧
    ((∃ u, Kind.dateTime.decode (Scalar.dateTime t).encode = .ok (.dateTime u) ∧
      u.compare t = .eq) ↔ t.Showable) ∧
    ((∃ q, (Draft.moment name t).compile s = .ok q ∧ q.holds a = true) ↔ t.Showable) := by
  have hdecode := Kind.decode_encode_dateTime ht hyear
  have hequal := Kind.decodes_equal_iff ht hyear
  refine ⟨hdecode, hequal, ?_⟩
  rw [← hequal, compile_moment hp hk hd hblank hname, hdecode]
  simp only [mapError_eq_ok_iff, map_eq_ok_iff]
  by_cases hoffset : (DateTime.rounded t.offset).natAbs < 86400
  · simp [hoffset, Property.holds_moment_iff ha]
  · simp [hoffset]

def sightings : List Column := [{ name := "Seen", type := .plain .dateTime }]

def seen : Property (Row sightings) :=
  ⟨"Seen", (FieldType.plain .dateTime).descriptor,
    fun r => (FieldType.plain .dateTime).fieldValue r.1⟩

/-- A clock one hour ahead, and one that is half a minute ahead. -/
theorem Draft.moment_finds_seen :
    let t : DateTime := ⟨-1, 500000000, 3600⟩
    let u : DateTime := ⟨-1, 500000000, 30⟩
    ∃ (r r' : Row sightings),
      (seen.read r = .scalar (.dateTime t) ∧
        ∃ q, (Draft.moment "seen" t).compile (.ofColumns sightings) = .ok q ∧ q.holds r = true) ∧
      seen.read r' = .scalar (.dateTime u) ∧
        Kind.dateTime.decode (Scalar.dateTime u).encode =
          .ok (.dateTime ⟨-31, 500000000, 60⟩) ∧
        ¬ ∃ q, (Draft.moment "seen" u).compile (.ofColumns sightings) = .ok q ∧
          q.holds r' = true := by
  intro t u
  have hresolve : (Schema.ofColumns sightings).resolve .insensitive "seen" = .ok seen := rfl
  have ht : Kind.dateTime.Holds (.dateTime t) := by decide
  have hu : Kind.dateTime.Holds (.dateTime u) := by decide
  let r : Row sightings := (⟨.dateTime t, ht⟩, ())
  let r' : Row sightings := (⟨.dateTime u, hu⟩, ())
  obtain ⟨_, _, hfinds⟩ := Draft.moment_finds (a := r) ht (by decide) hresolve rfl rfl
    (by decide) (by decide) rfl
  obtain ⟨hdecode, _, hmisses⟩ := Draft.moment_finds (a := r') hu (by decide) hresolve rfl rfl
    (by decide) (by decide) rfl
  refine ⟨r, r', ⟨rfl, hfinds.mpr ⟨by decide, by decide⟩⟩, rfl, ?_, ?_⟩
  · rw [hdecode]
    decide
  · rw [hmisses]
    intro h
    exact absurd h.wholeMinutes (by decide)

/-- A moment on a clock that is half a minute ahead is read back as another one. -/
theorem Kind.not_decodes_equal_seconds :
    ¬ ∃ u, Kind.dateTime.decode (Scalar.dateTime ⟨0, 0, 30⟩).encode = .ok (.dateTime u) ∧
      u.compare ⟨0, 0, 30⟩ = .eq := by
  rw [Kind.decodes_equal_iff (by decide) (by decide)]
  intro h
  exact absurd h.wholeMinutes (by decide)

end FilterQuery
