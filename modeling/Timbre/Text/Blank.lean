/-! # Blank characters and fields

Blank characters are those with the Unicode property White_Space. A text is trimmed of blanks at
both ends, and a list of words is cut at separators, runs of separators counting as one.
-/
namespace Timbre.Text

/-- Exactly the characters with the property White_Space. -/
def isBlank (c : Char) : Bool :=
  let n := c.toNat
  (9 ≤ n && n ≤ 13) || n == 0x20 || n == 0x85 || n == 0xA0 || n == 0x1680 ||
    (0x2000 ≤ n && n ≤ 0x200A) || n == 0x2028 || n == 0x2029 || n == 0x202F || n == 0x205F ||
    n == 0x3000

def trim (cs : List Char) : List Char :=
  ((cs.dropWhile isBlank).reverse.dropWhile isBlank).reverse

/-- The pieces between separators: one more than there are separators, empty ones included. -/
def pieces (separator : Char → Bool) : List Char → List (List Char)
  | [] => [[]]
  | c :: cs =>
    if separator c then [] :: pieces separator cs
    else (pieces separator cs).modifyHead (c :: ·)

def fields (separator : Char → Bool) (cs : List Char) : List (List Char) :=
  (pieces separator cs).filter (!·.isEmpty)

def lower (c : Char) : Char :=
  if 'A' ≤ c ∧ c ≤ 'Z' then Char.ofNat (c.toNat + 32) else c

def sameLetters (a b : List Char) : Bool := a.map lower == b.map lower

end Timbre.Text
