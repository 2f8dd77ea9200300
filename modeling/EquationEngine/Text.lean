/-!
Texts as people write them: white space, capital letters, digits of all scripts, integers, and
quotation marks.

The tables of code points stand beside the tests that use them. What is asked of the names of levels
is answered for the Latin, Greek and Cyrillic alphabets.
-/

namespace EquationEngine.Text

/-! White space: the characters that separate tokens and surround numbers in settings. -/

/-- The ranges of white-space characters, by their first and last code points. -/
def blankRanges : List (Nat × Nat) :=
  [(0x09, 0x0D), (0x1C, 0x20), (0x85, 0x85), (0xA0, 0xA0), (0x1680, 0x1680), (0x2000, 0x200A),
   (0x2028, 0x2029), (0x202F, 0x202F), (0x205F, 0x205F), (0x3000, 0x3000)]

def isBlank (c : Char) : Bool :=
  blankRanges.any fun (first, last) => first ≤ c.toNat && c.toNat ≤ last

/-! Capital letters. -/

/-- Runs of small letters, as first and last code points, the distance from one letter to the
next, and how far below each its capital stands. -/
def smallLetters : List (Nat × Nat × Nat × Int) :=
  [(0x61, 0x7A, 1, 32), (0xB5, 0xB5, 1, -743), (0xE0, 0xF6, 1, 32), (0xF8, 0xFE, 1, 32),
   (0xFF, 0xFF, 1, -121), (0x101, 0x12F, 2, 1), (0x131, 0x131, 1, 232), (0x133, 0x137, 2, 1),
   (0x13A, 0x148, 2, 1), (0x14B, 0x177, 2, 1), (0x17A, 0x17E, 2, 1), (0x17F, 0x17F, 1, 300),
   (0x3AC, 0x3AC, 1, 38), (0x3AD, 0x3AF, 1, 37), (0x3B1, 0x3C1, 1, 32), (0x3C2, 0x3C2, 1, 31),
   (0x3C3, 0x3CB, 1, 32), (0x3CC, 0x3CC, 1, 64), (0x3CD, 0x3CE, 1, 63), (0x430, 0x44F, 1, 32),
   (0x450, 0x45F, 1, 80)]

/-- The capital of a letter; the sharp s has two. -/
def capital (c : Char) : List Char :=
  if c == 'ß' then ['S', 'S']
  else
    match smallLetters.find? fun (first, last, stride, _) =>
        first ≤ c.toNat && c.toNat ≤ last && (c.toNat - first) % stride == 0 with
    | some (_, _, _, shift) => [Char.ofNat ((c.toNat : Int) - shift).toNat]
    | none => [c]

/-- A text in capital letters. -/
def capitals (text : String) : String := String.ofList (text.toList.flatMap capital)

/-! Decimal digits. Every script has its ten digits at ten consecutive code points, so a table of
the zeros describes them all. -/

/-- The code points of the zeros of all scripts, in increasing order. -/
def zeros : List Nat :=
  [0x30, 0x660, 0x6F0, 0x7C0, 0x966, 0x9E6, 0xA66, 0xAE6, 0xB66, 0xBE6, 0xC66, 0xCE6, 0xD66,
   0xDE6, 0xE50, 0xED0, 0xF20, 0x1040, 0x1090, 0x17E0, 0x1810, 0x1946, 0x19D0, 0x1A80, 0x1A90,
   0x1B50, 0x1BB0, 0x1C40, 0x1C50, 0xA620, 0xA8D0, 0xA900, 0xA9D0, 0xA9F0, 0xAA50, 0xABF0,
   0xFF10, 0x104A0, 0x10D30, 0x11066, 0x110F0, 0x11136, 0x111D0, 0x112F0, 0x11450, 0x114D0,
   0x11650, 0x116C0, 0x11730, 0x118E0, 0x11950, 0x11C50, 0x11D50, 0x11DA0, 0x16A60,
   0x16AC0, 0x16B50, 0x1D7CE, 0x1D7D8, 0x1D7E2, 0x1D7EC, 0x1D7F6, 0x1E140, 0x1E2F0,
   0x1E950, 0x1FBF0]

/-- The value of a decimal digit of any script. -/
def digit? (c : Char) : Option Nat :=
  (zeros.find? fun z => z ≤ c.toNat && c.toNat < z + 10).map (c.toNat - ·)

def isDigit (c : Char) : Bool := (digit? c).isSome

theorem isDigit_of_ascii {c : Char} (h : c.isDigit = true) : isDigit c = true := by
  have hc : 48 ≤ c.toNat ∧ c.toNat < 58 := by
    simp only [Char.isDigit, Bool.and_eq_true, decide_eq_true_eq, ge_iff_le] at h
    exact ⟨h.1, Nat.lt_succ_of_le h.2⟩
  simp [isDigit, digit?, zeros, hc.1, hc.2]

/-- The number written by a list of digits, read in base ten; other characters are passed over. -/
def natOfDigits (cs : List Char) : Nat :=
  (cs.filterMap digit?).foldl (fun n d => 10 * n + d) 0

/-! Integers as settings give them: blanks around them, a sign, digits of any script, and single
underscores between digits. -/

/-- A blank as it may surround a number. The four separators of files, groups, records and units
may not. -/
def isPadding (c : Char) : Bool := isBlank c && !(0x1C ≤ c.toNat && c.toNat ≤ 0x1F)

/-- Whether characters are digits with at most one underscore between neighbours. -/
def isDigits : List Char → Bool
  | [] => false
  | [c] => isDigit c
  | c :: '_' :: cs => isDigit c && isDigits cs
  | c :: cs => isDigit c && isDigits cs

/-- Why a text writes no integer. -/
inductive Misspelling where
  /-- It is not of the form of an integer. -/
  | malformed
  /-- It has too many digits to be read. -/
  | tooLong (digits : Nat)
  deriving DecidableEq, Repr

/-- How many digits an integer is read with at most. -/
def maxDigits : Nat := 4300

/-- The number that digits write, up to the blanks behind them. The digits are counted before what
follows them is looked at. -/
def readNatural (cs : List Char) : Except Misspelling Nat :=
  let word := cs.takeWhile fun c => isDigit c || c == '_'
  let digits := (word.filter isDigit).length
  if !isDigits word then .error .malformed
  else if maxDigits < digits then .error (.tooLong digits)
  else if (cs.drop word.length).all isPadding then .ok (natOfDigits word)
  else .error .malformed

/-- The integer that a text writes. -/
def readInteger (text : String) : Except Misspelling Int :=
  match text.toList.dropWhile isPadding with
  | '-' :: cs => (readNatural cs).map fun n => -(n : Int)
  | '+' :: cs => (readNatural cs).map fun n => (n : Int)
  | cs => (readNatural cs).map fun n => (n : Int)

/-! A text in quotation marks, with everything that cannot be seen written as an escape. Single
quotation marks are used unless the text holds one and no double one. -/

/-- Ranges of characters without a visible form besides white space, by first and last code
points. -/
def hiddenRanges : List (Nat × Nat) :=
  [(0x00, 0x1F), (0x7F, 0xA0), (0xAD, 0xAD), (0x600, 0x605), (0x61C, 0x61C), (0x6DD, 0x6DD),
   (0x70F, 0x70F), (0x180E, 0x180E), (0x200B, 0x200F), (0x202A, 0x202E), (0x2060, 0x206F),
   (0xD800, 0xF8FF), (0xFEFF, 0xFEFF), (0xFFF0, 0xFFFB), (0xFFFE, 0xFFFF), (0xE0000, 0x10FFFF)]

def isHidden (c : Char) : Bool :=
  (isBlank c && c != ' ')
    || hiddenRanges.any fun (first, last) => first ≤ c.toNat && c.toNat ≤ last

/-- A number in base sixteen with at least the given number of digits. -/
def hex (width n : Nat) : List Char :=
  let digits := Nat.toDigits 16 n
  List.replicate (width - digits.length) '0' ++ digits

/-- A character between two of the given quotation marks. -/
def escaped (mark c : Char) : List Char :=
  if c == mark || c == '\\' then ['\\', c]
  else if c == '\n' then ['\\', 'n']
  else if c == '\r' then ['\\', 'r']
  else if c == '\t' then ['\\', 't']
  else if isHidden c then
    if c.toNat < 0x100 then '\\' :: 'x' :: hex 2 c.toNat
    else if c.toNat < 0x10000 then '\\' :: 'u' :: hex 4 c.toNat
    else '\\' :: 'U' :: hex 8 c.toNat
  else [c]

/-- The single quotation mark. -/
def singleQuote : Char := Char.ofNat 39

/-- A text in quotation marks. -/
def quoted (text : String) : String :=
  let cs := text.toList
  let mark := if cs.contains singleQuote && !cs.contains '"' then '"' else singleQuote
  String.ofList (mark :: (cs.flatMap (escaped mark) ++ [mark]))

end EquationEngine.Text
