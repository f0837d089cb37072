namespace FilterQuery.Text

def digitChar (n : Nat) : Char :=
  Char.ofNat ('0'.toNat + n)

def digitValue (c : Char) : Nat :=
  c.toNat - '0'.toNat

def digits (n : Nat) : List Char :=
  if n < 10 then [digitChar n] else digits (n / 10) ++ [digitChar (n % 10)]

def ofDigits (cs : List Char) : Nat :=
  cs.foldl (fun n c => 10 * n + digitValue c) 0

def allDigits (cs : List Char) : Bool :=
  cs.all Char.isDigit

def padded (width n : Nat) : List Char :=
  List.replicate (width - (digits n).length) '0' ++ digits n

def dropTrailingZeros (cs : List Char) : List Char :=
  (cs.reverse.dropWhile (· == '0')).reverse

def splitAtFirst? (sep : Char) (cs : List Char) : Option (List Char × List Char) :=
  match cs.dropWhile (· != sep) with
  | [] => none
  | _ :: after => some (cs.takeWhile (· != sep), after)

theorem digitValue_digitChar {n : Nat} (h : n < 10) : digitValue (digitChar n) = n := by
  have : ∀ n : Fin 10, digitValue (digitChar n) = n := by decide
  exact this ⟨n, h⟩

theorem isDigit_digitChar {n : Nat} (h : n < 10) : (digitChar n).isDigit = true := by
  have : ∀ n : Fin 10, (digitChar n).isDigit = true := by decide
  exact this ⟨n, h⟩

@[simp] theorem ofDigits_concat (cs : List Char) (c : Char) :
    ofDigits (cs ++ [c]) = 10 * ofDigits cs + digitValue c := by
  simp [ofDigits]

@[simp] theorem ofDigits_digits (n : Nat) : ofDigits (digits n) = n := by
  fun_induction digits n with
  | case1 n h => simp [ofDigits, digitValue_digitChar h]
  | case2 n h ih =>
    rw [ofDigits_concat, ih, digitValue_digitChar (Nat.mod_lt _ (by omega))]
    omega

theorem allDigits_digits (n : Nat) : allDigits (digits n) = true := by
  fun_induction digits n with
  | case1 n h => simp [allDigits, isDigit_digitChar h]
  | case2 n h ih =>
    simp only [allDigits, List.all_append, Bool.and_eq_true] at *
    exact ⟨ih, by simp [isDigit_digitChar (Nat.mod_lt n (by omega : 10 > 0))]⟩

theorem digits_ne_nil (n : Nat) : digits n ≠ [] := by
  unfold digits; split <;> simp

theorem isDigit_of_allDigits {cs : List Char} {c : Char} (h : allDigits cs = true)
    (hc : c ∈ cs) : c.isDigit = true :=
  List.all_eq_true.mp h c hc

theorem ne_of_isDigit {c d : Char} (hc : c.isDigit = true) (hd : d.isDigit = false) : c ≠ d := by
  rintro rfl
  rw [hc] at hd
  cases hd

theorem not_mem_of_allDigits {cs : List Char} {c : Char} (h : allDigits cs = true)
    (hc : c.isDigit = false) : c ∉ cs := by
  intro hmem
  exact ne_of_isDigit (isDigit_of_allDigits h hmem) hc rfl

theorem allDigits_append {as bs : List Char} :
    allDigits (as ++ bs) = true ↔ allDigits as = true ∧ allDigits bs = true := by
  rw [allDigits, List.all_append, Bool.and_eq_true]
  rfl

theorem foldl_digits (n : Nat) (cs : List Char) :
    cs.foldl (fun n c => 10 * n + digitValue c) n = n * Nat.pow 10 cs.length + ofDigits cs := by
  induction cs generalizing n with
  | nil => simp [ofDigits]
  | cons c cs ih =>
    have hpow : Nat.pow 10 (c :: cs).length = Nat.pow 10 cs.length * 10 := rfl
    have hcons : ofDigits (c :: cs) = digitValue c * Nat.pow 10 cs.length + ofDigits cs := by
      simpa [ofDigits] using ih (digitValue c)
    rw [List.foldl_cons, ih, hcons, hpow]
    grind

theorem ofDigits_append (as bs : List Char) :
    ofDigits (as ++ bs) = ofDigits as * Nat.pow 10 bs.length + ofDigits bs := by
  rw [← foldl_digits, ofDigits, List.foldl_append, ofDigits]

theorem ofDigits_zeros (n : Nat) : ofDigits (List.replicate n '0') = 0 := by
  induction n with
  | zero => rfl
  | succ n ih => rw [List.replicate_succ', ofDigits_concat, ih]; rfl

theorem allDigits_zeros (n : Nat) : allDigits (List.replicate n '0') = true := by
  simp [allDigits]

theorem length_digits_le {width n : Nat} (h : n < Nat.pow 10 (width + 1)) :
    (digits n).length ≤ width + 1 := by
  induction width generalizing n with
  | zero =>
    rw [digits, if_pos h]
    exact Nat.le_refl 1
  | succ width ih =>
    have hpow : Nat.pow 10 (width + 1 + 1) = Nat.pow 10 (width + 1) * 10 := rfl
    rw [digits]
    split
    · simp
    · have := ih (n := n / 10) (by omega)
      simpa using this

theorem length_padded {width n : Nat} (h : n < Nat.pow 10 (width + 1)) :
    (padded (width + 1) n).length = width + 1 := by
  have := length_digits_le h
  simp only [padded, List.length_append, List.length_replicate]
  omega

@[simp] theorem ofDigits_padded (width n : Nat) : ofDigits (padded width n) = n := by
  simp [padded, ofDigits_append, ofDigits_zeros]

theorem allDigits_padded (width n : Nat) : allDigits (padded width n) = true := by
  have hdigits := allDigits_digits n
  have hzeros := allDigits_zeros (width - (digits n).length)
  unfold padded allDigits at *
  rw [List.all_append, hzeros, hdigits]
  rfl

theorem exists_zeros (cs : List Char) :
    ∃ n, cs = dropTrailingZeros cs ++ List.replicate n '0' := by
  refine ⟨(cs.reverse.takeWhile (· == '0')).length, ?_⟩
  have hzeros : ∀ c ∈ cs.reverse.takeWhile (· == '0'), c = '0' := by
    intro c hc
    simpa using List.all_eq_true.mp List.all_takeWhile c hc
  have hsplit := congrArg List.reverse
    (@List.takeWhile_append_dropWhile Char (· == '0') cs.reverse)
  rw [List.reverse_append, List.reverse_reverse, List.eq_replicate_of_mem hzeros,
    List.reverse_replicate] at hsplit
  exact hsplit.symm

theorem splitAtFirst?_append {sep : Char} {as : List Char} (bs : List Char) (h : sep ∉ as) :
    splitAtFirst? sep (as ++ sep :: bs) = some (as, bs) := by
  have has : ∀ c ∈ as, (c != sep) = true := by
    intro c hc
    simpa using ne_of_mem_of_not_mem hc h
  simp [splitAtFirst?, List.dropWhile_append_of_pos has, List.takeWhile_append_of_pos has]

theorem splitAtFirst?_eq_none {sep : Char} {cs : List Char} (h : sep ∉ cs) :
    splitAtFirst? sep cs = none := by
  have hcs : ∀ c ∈ cs, (c != sep) = true := by
    intro c hc
    simpa using ne_of_mem_of_not_mem hc h
  have hdrop := @List.dropWhile_append_of_pos Char (· != sep) cs [] hcs
  simp only [List.append_nil, List.dropWhile_nil] at hdrop
  simp [splitAtFirst?, hdrop]

theorem splitAtFirst?_eq_some_iff {sep : Char} {cs as bs : List Char} :
    splitAtFirst? sep cs = some (as, bs) ↔ sep ∉ as ∧ cs = as ++ sep :: bs := by
  apply Iff.intro
  · intro h
    have hsplit := List.takeWhile_append_dropWhile (p := (· != sep)) (l := cs)
    have hstop := List.head?_dropWhile_not (· != sep) cs
    simp only [splitAtFirst?] at h
    split at h
    · cases h
    · next c rest hdrop =>
      cases h
      rw [hdrop] at hsplit hstop
      have hc : c = sep := by simpa using hstop
      refine ⟨?_, hc ▸ hsplit.symm⟩
      intro hmem
      simpa using List.all_eq_true.mp List.all_takeWhile sep hmem
  · rintro ⟨h, rfl⟩
    exact splitAtFirst?_append bs h

end FilterQuery.Text
