import FilterQuery.Proofs.Unreadable
import Mathlib.Data.Nat.Find
import Mathlib.Order.Monotone.Basic

namespace FilterQuery

/-- Whether reading has come to an end with a result: to the end of the text, or to a fault. -/
def Ends : Except Fault Lexeme → Prop
  | .ok l => l.token = .eof
  | .error _ => True

instance : DecidablePred Ends
  | .ok l => inferInstanceAs (Decidable (l.token = .eof))
  | .error _ => inferInstanceAs (Decidable True)

theorem ends_iff {r : Except Fault Lexeme} (h : ∀ f, r ≠ .error f) :
    Ends r ↔ ∃ l, r = .ok l ∧ l.token = .eof := by
  cases r with
  | error f => exact absurd rfl (h f)
  | ok l => simp [Ends]

namespace Cursor

/-- The place after a number of calls, whatever they gave. -/
def after (c : Cursor) : Nat → Cursor
  | 0 => c
  | n + 1 => (c.after n).next.2

def call (c : Cursor) (n : Nat) : Except Fault Lexeme :=
  (c.after n).next.1

/-- Whether a place lies between two characters of a text, with the rest of it left to read. -/
def Within (s : String) (c : Cursor) : Prop :=
  ∃ before, s.toList = before ++ c.rest ∧ c.position = Text.byteLength before

/-- A call reads blanks, and then a token or nothing. -/
inductive Advances : Cursor → Except Fault Lexeme → Cursor → Prop
  | token {lead x rest : List Char} {t : Token} {p : Nat} :
      AllBlank lead → Spells x t → Delimits rest t →
      Advances ⟨lead ++ (x ++ rest), p⟩ (.ok ⟨t, p + Text.byteLength lead⟩)
        ⟨rest, p + Text.byteLength lead + Text.byteLength x⟩
  | eof {lead : List Char} {p : Nat} : AllBlank lead →
      Advances ⟨lead, p⟩ (.ok ⟨.eof, p + Text.byteLength lead⟩) ⟨[], p + Text.byteLength lead⟩
  | fault {lead bad : List Char} {p n : Nat} {problem : Problem} :
      AllBlank lead → StartsNoToken bad → FaultOffset bad n →
      Advances ⟨lead ++ bad, p⟩ (.error ⟨problem, p + Text.byteLength lead + n⟩)
        ⟨bad, p + Text.byteLength lead⟩

theorem advances_next (c : Cursor) : Advances c c.next.1 c.next.2 := by
  obtain ⟨rest, p⟩ := c
  have hlead : AllBlank (rest.takeWhile Text.isBlank) := List.all_eq_true.mp List.all_takeWhile
  have hsplit : rest.takeWhile Text.isBlank ++ Text.trimStart rest = rest :=
    List.takeWhile_append_dropWhile
  cases hscan : scanToken (Text.trimStart rest) with
  | ok t =>
    simp only [next, hscan]
    rcases scanToken_eq_ok hscan with ⟨_, hend⟩ | ⟨hspell, hrest⟩
    · rw [hend] at hscan
      cases hscan
      rw [hend, List.append_nil] at hsplit
      have h := Advances.eof (p := p) hlead
      rw [hsplit] at h ⊢
      exact h
    · have h := Advances.token (p := p) hlead hspell hrest
      rwa [spelling_append_rest hscan, hsplit] at h
  | error f =>
    obtain ⟨hbad, hoffset⟩ := startsNoToken_of_scanToken hscan Text.isBlank_of_mem_head?_trimStart
    simp only [next, hscan]
    have h : Advances ⟨_, p⟩ (.error ⟨f.problem, _⟩) _ := .fault hlead hbad hoffset
    rwa [hsplit] at h

namespace Advances

variable {c c' : Cursor} {r : Except Fault Lexeme} {s : String}

theorem within (h : Advances c r c') (hc : Within s c) : Within s c' := by
  obtain ⟨before, hs, hp⟩ := hc
  cases h with
  | @token lead x => exact ⟨before ++ (lead ++ x), by simp [hs], by simp [← hp, Nat.add_assoc]⟩
  | @eof lead => exact ⟨before ++ lead, by simp [hs], by simp [← hp]⟩
  | @fault lead => exact ⟨before ++ lead, by simp [hs], by simp [← hp]⟩

theorem position_le (h : Advances c r c') : c.position ≤ c'.position := by
  cases h <;> simp only <;> omega

theorem position_lt (h : Advances c r c') (hr : ¬ Ends r) : c.position < c'.position := by
  cases h with
  | @token _ x _ _ _ _ hspell =>
    obtain ⟨d, ds, rfl, _⟩ := hspell.head
    have hd : 0 < d.utf8Size := Char.utf8Size_pos d
    simp only [Text.byteLength]
    omega
  | eof => exact absurd rfl hr
  | fault => exact absurd trivial hr

theorem next_eq (h : Advances c r c') (hr : Ends r) : c'.next = c.next := by
  cases h with
  | token _ hspell => exact absurd hr hspell.ne_eof
  | @eof lead p hlead =>
    have hnext := @next_blanks lead [] p hlead
    rw [List.append_nil] at hnext
    exact hnext.symm
  | fault hlead => exact (next_blanks hlead).symm

end Advances

/-! ## Many calls -/

variable {c : Cursor} {s : String}

theorem advances_after (c : Cursor) (n : Nat) :
    Advances (c.after n) (c.call n) (c.after (n + 1)) :=
  advances_next (c.after n)

theorem after_succ (c : Cursor) (n : Nat) : c.after (n + 1) = c.next.2.after n := by
  induction n with
  | zero => rfl
  | succ n ih => rw [after, ih, after]

theorem call_succ (c : Cursor) (n : Nat) : c.call (n + 1) = c.next.2.call n := by
  rw [call, after_succ, call]

theorem within_ofText (s : String) : Within s (ofText s) :=
  ⟨[], rfl, rfl⟩

theorem within_after (h : Within s c) (n : Nat) : Within s (c.after n) := by
  induction n with
  | zero => exact h
  | succ n ih => exact (advances_after c n).within ih

theorem Within.position_le (h : Within s c) : c.position ≤ Text.byteLength s.toList := by
  obtain ⟨before, hs, hp⟩ := h
  rw [hs, hp, Text.byteLength_append]
  exact Nat.le_add_right _ _

theorem monotone_position (c : Cursor) : Monotone fun n => (c.after n).position :=
  monotone_nat_of_le_succ fun n => (advances_after c n).position_le

/-- The first result that ends the reading is given again by every later call. -/
theorem next_after_of_ends {n m : Nat} (h : Ends (c.call n)) (hnm : n ≤ m) :
    (c.after m).next = (c.after n).next := by
  induction m, hnm using Nat.le_induction with
  | base => rfl
  | succ m _ ih =>
    have hm : Ends (c.call m) := by rwa [call, ih]
    rw [(advances_after c m).next_eq hm, ih]

theorem le_position {n : Nat} (h : ∀ m < n, ¬ Ends (c.call m)) : n ≤ (c.after n).position := by
  induction n with
  | zero => exact Nat.zero_le _
  | succ n ih =>
    have hn := ih fun m hm => h m (by omega)
    have hstep := (advances_after c n).position_lt (h n (by omega))
    omega

/-- Every token takes a byte at least, so the reading ends before there are more than bytes. -/
theorem exists_first_end (h : Within s c) :
    ∃ n ≤ Text.byteLength s.toList, Ends (c.call n) ∧ ∀ m < n, ¬ Ends (c.call m) := by
  have hend : ∃ n, Ends (c.call n) := by
    by_contra hnone
    have hall : ∀ n, ¬ Ends (c.call n) := fun n hn => hnone ⟨n, hn⟩
    have hlow := le_position (c := c) (n := Text.byteLength s.toList + 1) fun m _ => hall m
    have hhigh := (within_after h (Text.byteLength s.toList + 1)).position_le
    omega
  have hfirst : ∀ m < Nat.find hend, ¬ Ends (c.call m) := fun m hm => Nat.find_min hend hm
  refine ⟨Nat.find hend, ?_, Nat.find_spec hend, hfirst⟩
  exact (le_position hfirst).trans (within_after h _).position_le

theorem lexemes_eq_mapM {n : Nat} (hend : Ends (c.call n)) (hfirst : ∀ m < n, ¬ Ends (c.call m)) :
    c.lexemes = (List.range (n + 1)).mapM c.call := by
  -- The first call reads the head, and the others are the calls from the place after it.
  induction n generalizing c with
  | zero =>
    cases hnext : c.next with
    | mk r c' =>
      have hcall : c.call 0 = r := by rw [call, after, hnext]
      rw [hcall] at hend
      cases r with
      | error f => simp [lexemes_of_error hnext, hcall, bind, Except.bind]
      | ok l => simp [lexemes_of_eof hnext hend, hcall, bind, Except.bind, pure, Except.pure]
  | succ n ih =>
    cases hnext : c.next with
    | mk r c' =>
      have hcall : c.call 0 = r := by rw [call, after, hnext]
      have hlater : c.call ∘ Nat.succ = c'.call := by
        funext m
        rw [Function.comp_apply, Nat.succ_eq_add_one, call_succ, hnext]
      have hlexemes : c'.lexemes = (List.range (n + 1)).mapM c'.call := by
        apply ih
        · rwa [← hlater]
        · intro m hm
          rw [← hlater]
          exact hfirst (m + 1) (by omega)
      have hr : ¬ Ends r := hcall ▸ hfirst 0 (by omega)
      cases r with
      | error f => exact absurd trivial hr
      | ok l =>
        rw [lexemes_of_next hnext hr, List.range_succ_eq_map, List.mapM_cons, List.mapM_map,
          hlater, hcall, ← hlexemes]
        cases c'.lexemes <;> rfl

theorem exists_mapM_eq_ok {α β ε : Type} {f : α → Except ε β} {xs : List α} :
    (∃ ys, xs.mapM f = .ok ys) ↔ ∀ x ∈ xs, ∃ y, f x = .ok y := by
  induction xs with
  | nil => simp [pure, Except.pure]
  | cons x xs ih =>
    rw [List.forall_mem_cons, ← ih, List.mapM_cons]
    cases f x <;> cases xs.mapM f <;> simp [bind, Except.bind, pure, Except.pure]

theorem exists_lexemes_iff (h : Within s c) :
    (∃ ls, c.lexemes = .ok ls) ↔
      ∃ n l, c.call n = .ok l ∧ l.token = .eof ∧ ∀ m < n, ∀ f, c.call m ≠ .error f := by
  obtain ⟨n, _, hend, hfirst⟩ := exists_first_end h
  rw [lexemes_eq_mapM hend hfirst, exists_mapM_eq_ok]
  apply Iff.intro
  · intro hok
    have herror : ∀ m ≤ n, ∀ f, c.call m ≠ .error f := by
      intro m hm f hf
      obtain ⟨l, hl⟩ := hok m (List.mem_range.mpr (by omega))
      rw [hf] at hl
      cases hl
    obtain ⟨l, hl, heof⟩ := (ends_iff (herror n (Nat.le_refl n))).mp hend
    exact ⟨n, l, hl, heof, fun m hm => herror m (Nat.le_of_lt hm)⟩
  · intro hreached
    obtain ⟨k, l, hl, heof, herror⟩ := hreached
    have hk : Ends (c.call k) := by rwa [hl]
    have hnk : n ≤ k := by
      by_contra hlt
      exact hfirst k (by omega) hk
    intro m hm
    have hmk : m ≤ k := by
      have := List.mem_range.mp hm
      omega
    cases hcall : c.call m with
    | ok l' => exact ⟨l', rfl⟩
    | error f =>
      rcases Nat.lt_or_eq_of_le hmk with hlt | rfl
      · exact absurd hcall (herror m hlt f)
      · rw [hl] at hcall
        cases hcall

/-- Calls that go on after an end and after faults stay between the characters of the text. A
token is left behind, blanks are, and nothing else; after the first end nothing changes. Of the
calls up to that one, at most one more than there are bytes, come the tokens of the text. -/
theorem tokenize_calls (s : String) :
    (∀ n, Within s ((ofText s).after n) ∧
      ((ofText s).after n).position ≤ Text.byteLength s.toList) ∧
    Monotone (fun n => ((ofText s).after n).position) ∧
    (∀ n, Advances ((ofText s).after n) ((ofText s).call n) ((ofText s).after (n + 1))) ∧
    (∀ n, ¬ Ends ((ofText s).call n) →
      ((ofText s).after n).position < ((ofText s).after (n + 1)).position) ∧
    (∀ n m, n ≤ m → Ends ((ofText s).call n) → (ofText s).call m = (ofText s).call n) ∧
    (∃ n ≤ Text.byteLength s.toList,
      Ends ((ofText s).call n) ∧ (∀ m < n, ¬ Ends ((ofText s).call m)) ∧
        tokenize s = (List.range (n + 1)).mapM (ofText s).call) ∧
    ((∃ ls, tokenize s = .ok ls) ↔
      ∃ n l, (ofText s).call n = .ok l ∧ l.token = .eof ∧
        ∀ m < n, ∀ f, (ofText s).call m ≠ .error f) := by
  have hwithin : Within s (ofText s) := within_ofText s
  refine ⟨?_, monotone_position _, advances_after _, ?_, ?_, ?_, exists_lexemes_iff hwithin⟩
  · intro n
    have hn := within_after hwithin n
    exact ⟨hn, hn.position_le⟩
  · intro n hn
    exact (advances_after _ n).position_lt hn
  · intro n m hnm hn
    exact congrArg Prod.fst (next_after_of_ends hn hnm)
  · obtain ⟨n, hle, hend, hfirst⟩ := exists_first_end hwithin
    exact ⟨n, hle, hend, hfirst, lexemes_eq_mapM hend hfirst⟩

theorem tokenize_calls_accent :
    Ends ((ofText "no é b").call 1) ∧
      ∀ m, 1 ≤ m → (ofText "no é b").call m = .error ⟨.unexpectedCharacter 'é', 3⟩ := by
  have hfault : (ofText "no é b").call 1 = .error ⟨.unexpectedCharacter 'é', 3⟩ := by decide
  have hend : Ends ((ofText "no é b").call 1) := by
    rw [hfault]
    trivial
  exact ⟨hend, fun m hm => ((tokenize_calls "no é b").2.2.2.2.1 1 m hm hend).trans hfault⟩

end Cursor

end FilterQuery
