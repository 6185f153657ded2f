import Timbre.Number.Integer

/-! # JSON values

A text is read into tokens and the tokens into one value. The reader is strict: nothing follows the
value, no comma stands before a closing bracket, and control characters have to be escaped. An
escape may name one half of a surrogate pair; a string in which a half stands alone is well formed
but has no text.
-/
namespace Timbre

inductive Json
  | null
  | bool (value : Bool)
  /-- A number; its value is kept if it is written with digits alone. -/
  | number (whole : Option Nat)
  /-- A string; its text is missing if half a surrogate pair stands alone. -/
  | string (text : Option String)
  | list (items : List Json)
  /-- The fields in the order in which they are written, repeated names included. -/
  | object (fields : List (Option String × Json))
deriving Repr

namespace Json

inductive Token
  | null
  | bool (value : Bool)
  | number (whole : Option Nat)
  | string (text : Option String)
  | comma
  | colon
  | openList
  | closeList
  | openObject
  | closeObject
deriving DecidableEq, Repr

namespace Token

def isBlank (c : Char) : Bool := c == ' ' || c == '\t' || c == '\n' || c == '\r'

/-! ## Strings -/

def hexValue? (c : Char) : Option Nat :=
  if '0' ≤ c ∧ c ≤ '9' then some (c.toNat - 48)
  else if 'a' ≤ c ∧ c ≤ 'f' then some (c.toNat - 87)
  else if 'A' ≤ c ∧ c ≤ 'F' then some (c.toNat - 55)
  else none

def unit? (a b c d : Char) : Option Nat := do
  return (((← hexValue? a) * 16 + (← hexValue? b)) * 16 + (← hexValue? c)) * 16 + (← hexValue? d)

/-- What a letter after a backslash stands for. -/
def escaped? (c : Char) : Option Nat :=
  if c = '"' then some 0x22
  else if c = '\\' then some 0x5C
  else if c = '/' then some 0x2F
  else if c = 'b' then some 0x08
  else if c = 'f' then some 0x0C
  else if c = 'n' then some 0x0A
  else if c = 'r' then some 0x0D
  else if c = 't' then some 0x09
  else none

/-- The code units up to the closing quote, and what follows it. -/
def units : List Char → Option (List Nat × List Char)
  | [] => none
  | '"' :: rest => some ([], rest)
  | '\\' :: 'u' :: a :: b :: c :: d :: rest => do
    let u ← unit? a b c d
    let (us, rest) ← units rest
    return (u :: us, rest)
  | '\\' :: c :: rest => do
    let u ← escaped? c
    let (us, rest) ← units rest
    return (u :: us, rest)
  | c :: rest =>
    if c.toNat < 0x20 then none
    else do
      let (us, rest) ← units rest
      return (c.toNat :: us, rest)

def isHigh (u : Nat) : Bool := 0xD800 ≤ u && u ≤ 0xDBFF

def isLow (u : Nat) : Bool := 0xDC00 ≤ u && u ≤ 0xDFFF

/-- The characters of code units, where a high and a low half that follow each other are one
character; nothing if another half is among them. -/
def joined? : List Nat → Option (List Char)
  | [] => some []
  | [u] => if isHigh u || isLow u then none else some [Char.ofNat u]
  | u :: v :: us =>
    if isHigh u && isLow v then
      (joined? us).map (Char.ofNat (0x10000 + (u - 0xD800) * 0x400 + (v - 0xDC00)) :: ·)
    else if isHigh u || isLow u then none
    else (joined? (v :: us)).map (Char.ofNat u :: ·)

/-! ## Numbers -/

def digits? (cs : List Char) : Option (List Nat × List Char) :=
  match cs.takeWhile fun c => (digit? c).isSome with
  | [] => none
  | ds => some (ds.filterMap digit?, cs.drop ds.length)

def whole? : List Char → Option (Nat × List Char)
  | '0' :: rest => some (0, rest)
  | cs => (digits? cs).map fun (ds, rest) => (ds.foldl (fun n d => n * 10 + d) 0, rest)

def afterFraction? : List Char → Option (List Char)
  | '.' :: rest => (digits? rest).map (·.2)
  | cs => some cs

def afterExponent? : List Char → Option (List Char)
  | [] => some []
  | c :: rest =>
    if c = 'e' ∨ c = 'E' then
      match rest with
      | '+' :: rest => (digits? rest).map (·.2)
      | '-' :: rest => (digits? rest).map (·.2)
      | rest => (digits? rest).map (·.2)
    else some (c :: rest)

def magnitude? (cs : List Char) : Option (Option Nat × List Char) := do
  let (n, afterWhole) ← whole? cs
  let rest ← afterFraction? afterWhole >>= afterExponent?
  return (if rest.length = afterWhole.length then some n else none, rest)

/-! ## Tokens -/

/-- The token in front and what follows it. -/
def read? : List Char → Option (Token × List Char)
  | 'n' :: 'u' :: 'l' :: 'l' :: rest => some (.null, rest)
  | 't' :: 'r' :: 'u' :: 'e' :: rest => some (.bool true, rest)
  | 'f' :: 'a' :: 'l' :: 's' :: 'e' :: rest => some (.bool false, rest)
  | ',' :: rest => some (.comma, rest)
  | ':' :: rest => some (.colon, rest)
  | '[' :: rest => some (.openList, rest)
  | ']' :: rest => some (.closeList, rest)
  | '\x7b' :: rest => some (.openObject, rest)
  | '\x7d' :: rest => some (.closeObject, rest)
  | '"' :: rest => (units rest).map fun (us, rest) =>
      (.string ((joined? us).map String.ofList), rest)
  | '-' :: rest => (magnitude? rest).map fun (_, rest) => (.number none, rest)
  | cs => (magnitude? cs).map fun (n, rest) => (.number n, rest)

/-- At most `fuel` tokens. -/
def readAll? : (fuel : Nat) → List Char → Option (List Token)
  | 0, _ => none
  | fuel + 1, cs =>
    match cs.dropWhile isBlank with
    | [] => some []
    | cs => do
      let (t, rest) ← read? cs
      return t :: (← readAll? fuel rest)

end Token

/-! ## Values -/

mutual

/-- The value in front of the tokens, where `fuel` bounds the number of its tokens. -/
def value? : (fuel : Nat) → List Token → Option (Json × List Token)
  | _, .null :: rest => some (.null, rest)
  | _, .bool b :: rest => some (.bool b, rest)
  | _, .number n :: rest => some (.number n, rest)
  | _, .string s :: rest => some (.string s, rest)
  | _, .openList :: .closeList :: rest => some (.list [], rest)
  | _, .openObject :: .closeObject :: rest => some (.object [], rest)
  | fuel + 1, .openList :: rest => do
    let (v, rest) ← value? fuel rest
    let (vs, rest) ← items? fuel rest
    return (.list (v :: vs), rest)
  | fuel + 1, .openObject :: .string key :: .colon :: rest => do
    let (v, rest) ← value? fuel rest
    let (fs, rest) ← fields? fuel rest
    return (.object ((key, v) :: fs), rest)
  | _, _ => none

def items? : (fuel : Nat) → List Token → Option (List Json × List Token)
  | _, .closeList :: rest => some ([], rest)
  | fuel + 1, .comma :: rest => do
    let (v, rest) ← value? fuel rest
    let (vs, rest) ← items? fuel rest
    return (v :: vs, rest)
  | _, _ => none

def fields? : (fuel : Nat) → List Token → Option (List (Option String × Json) × List Token)
  | _, .closeObject :: rest => some ([], rest)
  | fuel + 1, .comma :: .string key :: .colon :: rest => do
    let (v, rest) ← value? fuel rest
    let (fs, rest) ← fields? fuel rest
    return ((key, v) :: fs, rest)
  | _, _ => none

end

def ofText? (text : String) : Option Json := do
  let tokens ← Token.readAll? (text.toList.length + 1) text.toList
  match ← value? tokens.length tokens with
  | (v, []) => some v
  | _ => none

end Json

end Timbre
