import SmallMl.Text.Hex
import SmallMl.Text.Printable

/-!
# Quoted characters and names

A quoted text shows every character visibly on one line.  Printable characters stand for themselves,
except the quote in use and the backslash, which take a backslash; the seven control characters with
a name are written by it; every other character is written by its code point, with two, four or
eight hexadecimal digits, whichever is the first that suffices.
-/

namespace SmallMl.Quoted

/-- The letter that names a control character behind a backslash. -/
def controlLetter? (c : Char) : Option Char :=
  match c.toNat with
  | 7 => some 'a'
  | 8 => some 'b'
  | 9 => some 't'
  | 10 => some 'n'
  | 11 => some 'v'
  | 12 => some 'f'
  | 13 => some 'r'
  | _ => none

/-- A character that is not printable, by its code point. -/
def codePoint (c : Char) : List Char :=
  if c.toNat < 0x20 || c.toNat == 0x7F then '\\' :: 'x' :: Hex.digits 2 c.toNat
  else if c.toNat < 0x10000 then '\\' :: 'u' :: Hex.digits 4 c.toNat
  else '\\' :: 'U' :: Hex.digits 8 c.toNat

/-- One character inside a text that is quoted by `quote`. -/
def escape (quote c : Char) : List Char :=
  if c = quote || c = '\\' then ['\\', c]
  else if isPrintable c then [c]
  else match controlLetter? c with
    | some l => ['\\', l]
    | none => codePoint c

def char (c : Char) : String := String.ofList ('\'' :: escape '\'' c ++ ['\''])

def text (s : String) : String := String.ofList ('"' :: s.toList.flatMap (escape '"') ++ ['"'])

end SmallMl.Quoted
