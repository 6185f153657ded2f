import Timbre.Text.Hidden

/-! # Quoted text and the text of values

A quoted text stands between double quotes, with what cannot be shown written as an escape. Values
are shown as records of named fields, as lists and as maps, in one line.
-/
namespace Timbre.Text

def hexDigit (d : Nat) : Char := if d < 10 then Char.ofNat (48 + d) else Char.ofNat (87 + d)

/-- Lower-case hexadecimal digits without leading zeros; zero has one digit. -/
def hex (n : Nat) : List Char :=
  if _h : n < 16 then [hexDigit n] else hex (n / 16) ++ [hexDigit (n % 16)]
termination_by n
decreasing_by omega

def codeEscape (n : Nat) : List Char := ['\\', 'u', '\x7b'] ++ hex n ++ ['\x7d']

def escape (c : Char) : List Char :=
  if c = '\x00' then ['\\', '0']
  else if c = '\t' then ['\\', 't']
  else if c = '\n' then ['\\', 'n']
  else if c = '\r' then ['\\', 'r']
  else if c = '"' then ['\\', '"']
  else if c = '\\' then ['\\', '\\']
  else if c.toNat < 0x20 || c.toNat == 0x7F || isHidden c.toNat then codeEscape c.toNat
  else [c]

def quote (s : String) : String :=
  String.ofList ('"' :: (s.toList.flatMap escape ++ ['"']))

/-- `Name \x7b field: text, … \x7d`. -/
def showRecord (name : String) (entries : List (String × String)) : String :=
  name ++ " \x7b " ++ ", ".intercalate (entries.map fun e => e.1 ++ ": " ++ e.2) ++ " \x7d"

def showList (items : List String) : String := "[" ++ ", ".intercalate items ++ "]"

/-- `\x7bkey: text, …\x7d`. -/
def showMap (entries : List (String × String)) : String :=
  "\x7b" ++ ", ".intercalate (entries.map fun e => e.1 ++ ": " ++ e.2) ++ "\x7d"

end Timbre.Text
