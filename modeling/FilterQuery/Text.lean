namespace FilterQuery.Text

def byteLength : List Char → Nat
  | [] => 0
  | c :: cs => c.utf8Size + byteLength cs

@[simp] theorem byteLength_append (a b : List Char) :
    byteLength (a ++ b) = byteLength a + byteLength b := by
  induction a with
  | nil => simp [byteLength]
  | cons c a ih => simp [byteLength, ih, Nat.add_assoc]

def dropBytes : Nat → List Char → List Char
  | _, [] => []
  | n, c :: cs => if n = 0 then c :: cs else dropBytes (n - c.utf8Size) cs

theorem dropBytes_zero (cs : List Char) : dropBytes 0 cs = cs := by
  cases cs <;> simp [dropBytes]

theorem dropBytes_append (a b : List Char) : dropBytes (byteLength a) (a ++ b) = b := by
  induction a with
  | nil => exact dropBytes_zero b
  | cons c a ih =>
    have hc : 0 < c.utf8Size := Char.utf8Size_pos c
    rw [byteLength, List.cons_append, dropBytes, if_neg (by omega), Nat.add_sub_cancel_left]
    exact ih

/-- The characters with the Unicode property White_Space. -/
def isBlank (c : Char) : Bool :=
  let n := c.toNat
  (9 ≤ n && n ≤ 13) || n == 0x20 || n == 0x85 || n == 0xA0 || n == 0x1680 ||
    (0x2000 ≤ n && n ≤ 0x200A) || n == 0x2028 || n == 0x2029 || n == 0x202F ||
    n == 0x205F || n == 0x3000

/-- Whether a text is empty or white space only. -/
def Blank (s : String) : Bool :=
  s.toList.all isBlank

def trimStart (cs : List Char) : List Char :=
  cs.dropWhile isBlank

/-- The text with its ASCII letters in lower case, for comparing without regard to case. -/
def folded (s : String) : List Char :=
  s.toList.map Char.toLower

/-- Whether two texts differ at most in the case of ASCII letters. -/
def sameIgnoringCase (a b : String) : Bool :=
  folded a == folded b

def fragmentLength : Nat := 24

def fragmentAt (s : String) (position : Nat) : String :=
  String.ofList ((dropBytes position s.toList).take fragmentLength)

/-- The text of a sequence of entries, each with a line feed after it. -/
def terminated (entries : List String) : String :=
  String.join (entries.map (· ++ "\n"))

end FilterQuery.Text
