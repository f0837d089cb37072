import FilterQuery.Value.Uuid

namespace FilterQuery.Uuid

theorem hexValue?_hexChar {n : Nat} (h : n < 16) : hexValue? (hexChar n) = some n := by
  have hall : ∀ n : Fin 16, hexValue? (hexChar n) = some n.val := by decide
  exact hall ⟨n, h⟩

theorem hexChar_toLower_ne {n : Nat} (h : n < 16) : (hexChar n).toLower ≠ 'u' := by
  have hall : ∀ n : Fin 16, (hexChar n).toLower ≠ 'u' := by decide
  exact hall ⟨n, h⟩

@[simp] theorem length_hexDigits (width n : Nat) : (hexDigits width n).length = width := by
  induction width generalizing n with
  | zero => rfl
  | succ width ih => simp [hexDigits, ih]

theorem mem_hexDigits {width n : Nat} {c : Char} (h : c ∈ hexDigits width n) :
    ∃ k, k < 16 ∧ c = hexChar k := by
  induction width generalizing n with
  | zero => exact absurd h List.not_mem_nil
  | succ width ih =>
    rcases List.mem_append.mp h with hmem | hlast
    · exact ih hmem
    · exact ⟨n % 16, Nat.mod_lt n (by decide), List.mem_singleton.mp hlast⟩

theorem ofHexDigits?_concat (cs : List Char) (c : Char) :
    ofHexDigits? (cs ++ [c]) = do return 16 * (← ofHexDigits? cs) + (← hexValue? c) := by
  simp [ofHexDigits?]

theorem ofHexDigits?_hexDigits (width n : Nat) :
    ofHexDigits? (hexDigits width n) = some (n % Nat.pow 16 width) := by
  induction width generalizing n with
  | zero => simp [hexDigits, ofHexDigits?, Nat.mod_one]
  | succ width ih =>
    have hpow : Nat.pow 16 (width + 1) = 16 * Nat.pow 16 width := Nat.mul_comm _ _
    have hdigit := hexValue?_hexChar (Nat.mod_lt n (show 16 > 0 by decide))
    rw [hexDigits, ofHexDigits?_concat, ih, hdigit, hpow, Nat.mod_mul, Nat.add_comm]
    rfl

theorem readHyphenated?_join {as bs cs ds es : List Char} (ha : as.length = 8)
    (hb : bs.length = 4) (hc : cs.length = 4) (hd : ds.length = 4) (he : es.length = 12) :
    readHyphenated? (as ++ '-' :: bs ++ '-' :: cs ++ '-' :: ds ++ '-' :: es) =
      (ofHexDigits? (as ++ bs ++ cs ++ ds ++ es)).map .mk := by
  simp [readHyphenated?, ha, hb, hc, hd, he, List.drop_append, List.drop_eq_nil_of_le]

theorem readHyphenated?_render (u : Uuid) :
    readHyphenated? u.render = (ofHexDigits? (hexDigits 32 u.value)).map .mk := by
  have hlength := length_hexDigits 32 u.value
  have hgroups (ds : List Char) : ds.take 8 ++ (ds.drop 8).take 4 ++ (ds.drop 12).take 4 ++
      (ds.drop 16).take 4 ++ ds.drop 20 = ds := by
    rw [← List.take_add, ← List.take_add, ← List.take_add, List.take_append_drop]
  rw [render, readHyphenated?_join, hgroups] <;> simp [hlength]

theorem length_render (u : Uuid) : u.render.length = 36 := by
  simp [render]

/-- The written form does not begin like the word that may stand before it. -/
theorem take_render_ne_urn (u : Uuid) :
    (u.render.take urn.length).map Char.toLower ≠ urn := by
  obtain ⟨c, cs, hcons⟩ := List.exists_cons_of_length_eq_add_one (length_hexDigits 32 u.value)
  obtain ⟨k, hk, rfl⟩ := mem_hexDigits (hcons ▸ List.mem_cons_self)
  intro h
  have hhead := congrArg List.head? h
  simp only [render, hcons, show urn.length = 9 by decide, show urn.head? = some 'u' by decide,
    List.take_succ_cons, List.cons_append, List.map_cons, List.head?_cons, Option.some.injEq]
    at hhead
  exact hexChar_toLower_ne hk hhead

theorem read?_render {u : Uuid} (h : u.value < Nat.pow 2 128) : read? u.render = some u := by
  rw [read?, length_render, if_neg (by decide), if_neg (by decide), if_neg (take_render_ne_urn u),
    readHyphenated?_render, ofHexDigits?_hexDigits, Nat.mod_eq_of_lt h]
  rfl

end FilterQuery.Uuid
