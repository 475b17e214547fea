/-!
# Text

Text is a list of characters here.  This is what the reader and the writer of listings need of it:

* blank characters, which are those with the Unicode property `White_Space`;
* the decimal text of words: a written word has a minus sign only if it is negative; a read one may
  carry either sign and any number of leading zeros, and has to lie in the range of the word;
* words and lines: `words` keeps the non-empty pieces between blanks, and `lines` the pieces between
  line ends.
-/

namespace ObjectLang.Text

/-! ### Blank characters -/

/-- The ranges of blank code points, both ends included, in increasing order. -/
def blankRanges : List (Nat × Nat) :=
  [(0x0009, 0x000D), (0x0020, 0x0020), (0x0085, 0x0085), (0x00A0, 0x00A0), (0x1680, 0x1680),
    (0x2000, 0x200A), (0x2028, 0x2029), (0x202F, 0x202F), (0x205F, 0x205F), (0x3000, 0x3000)]

/-- Is the character blank? -/
def isBlank (c : Char) : Bool :=
  blankRanges.any fun r => decide (r.1 ≤ c.toNat ∧ c.toNat ≤ r.2)

/-! ### Decimal integers -/

/-- The value of a non-empty list of decimal digits. -/
def readNat? (digits : List Char) : Option Nat :=
  if !digits.isEmpty && digits.all Char.isDigit then some (Nat.ofDigitChars 10 digits 0) else none

/-- The value of decimal digits after an optional sign. -/
def readInt? : List Char → Option Int
  | '-' :: digits => (readNat? digits).map fun n => -(n : Int)
  | '+' :: digits => (readNat? digits).map fun n => (n : Int)
  | digits => (readNat? digits).map fun n => (n : Int)

/-- The word written by a text, if it is in range. -/
def readWord? (s : List Char) : Option Int64 :=
  (readInt? s).bind fun n =>
    if Int64.minValue.toInt ≤ n ∧ n ≤ Int64.maxValue.toInt then some (Int64.ofInt n) else none

/-- The decimal text of an integer. -/
def writeInt : Int → String
  | .ofNat n => Nat.repr n
  | .negSucc n => "-" ++ Nat.repr (n + 1)

/-- The decimal text of a word. -/
def writeWord (w : Int64) : String := writeInt w.toInt

/-! ### Words and lines -/

/-- The maximal runs of characters that are not blank. -/
def words (s : List Char) : List (List Char) :=
  (s.splitOnP isBlank).filter fun w => !w.isEmpty

/-- The text without the blanks at its two ends. -/
def trim (s : List Char) : List Char :=
  ((s.dropWhile isBlank).reverse.dropWhile isBlank).reverse

/-- A line without the carriage return that belongs to its end. -/
def dropReturn (line : List Char) : List Char :=
  if line.getLast? = some '\r' then line.dropLast else line

/-- The lines of a text.  A line ends at a line feed, which a carriage return may precede; what
follows the last line feed is a line if it is not empty. -/
def lines (s : List Char) : List (List Char) :=
  go (s.splitOnP (· == '\n'))
where
  /-- All pieces but the last one are ended by a line feed. -/
  go : List (List Char) → List (List Char)
    | [] => []
    | [last] => if last.isEmpty then [] else [last]
    | line :: rest => dropReturn line :: go rest

end ObjectLang.Text
