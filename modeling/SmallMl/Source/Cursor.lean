import SmallMl.Source.Location
import SmallMl.Source.Utf8

/-!
# A cursor over bytes

A `Cursor` stands on one character of a byte string and decodes lazily: it holds the current
character and the bytes behind it.  It behaves as a cursor over `Utf8.decode` of the bytes: what it
sees is `current :: decode ahead` (`Cursor.view`), looking never moves it, and `advance` drops the
first character of the view and moves the location by that character.
-/

namespace SmallMl

structure Cursor where
  /-- The character at the cursor; none at the end of the text. -/
  current? : Option Char
  /-- The bytes behind the current character. -/
  ahead : List UInt8
  loc : Location

namespace Cursor

/-- The cursor at `loc` in front of the bytes `bytes`. -/
def onto (loc : Location) (bytes : List UInt8) : Cursor :=
  match bytes with
  | [] => ⟨none, [], loc⟩
  | a :: r => ⟨some (Utf8.lead a r).1, r.drop (Utf8.lead a r).2, loc⟩

def ofBytes (bytes : List UInt8) : Cursor := Cursor.onto .start bytes

def peek? (s : Cursor) : Option Char :=
  match s.current?, s.ahead with
  | some _, a :: r => some (Utf8.lead a r).1
  | _, _ => none

/-- The cursor one character on; at the end of the text it stays. -/
def advance (s : Cursor) : Cursor :=
  match s.current? with
  | none => s
  | some c => Cursor.onto (s.loc.next c) s.ahead

def atEnd (s : Cursor) : Bool := s.current?.isNone

/-- The characters from the cursor to the end of the text. -/
def view (s : Cursor) : List Char :=
  match s.current? with
  | none => []
  | some c => c :: Utf8.decode s.ahead

@[simp] theorem view_onto (loc : Location) (bytes : List UInt8) :
    (Cursor.onto loc bytes).view = Utf8.decode bytes := by
  cases bytes with
  | nil => simp [Cursor.onto, view]
  | cons a r => simp [Cursor.onto, view, Utf8.decode_cons]

end Cursor

end SmallMl
