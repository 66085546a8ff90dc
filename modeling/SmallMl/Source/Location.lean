import SmallMl.Number.Digits

/-!
# Places in a source text

A `Location` is a place between two characters.  It carries its line and column, both counted from
one, and the number of characters before it.  Reading a character moves a location by
`Location.next`, reading a text by `Location.after`, which is the fold of `next`; so the location of
any place is determined by the characters before it, whatever the steps in which they were read
(`Location.after_append`).

A `Range` is the half-open stretch between two locations.  Sizes and containment look at the
offsets only.
-/

namespace SmallMl

/-- A place in a source text.  The all-zero location stands for "nowhere". -/
structure Location where
  line : Int
  column : Int
  offset : Int
  deriving DecidableEq, Inhabited

namespace Location

def start : Location := ⟨1, 1, 0⟩

/-- The place behind the character `c` that stands at `l`: a newline opens column 1 of the next
line, any other character moves one column on. -/
def next (l : Location) (c : Char) : Location :=
  if c = '\n' then ⟨l.line + 1, 1, l.offset + 1⟩ else ⟨l.line, l.column + 1, l.offset + 1⟩

/-- The place behind the text `cs` that starts at `l`. -/
def after (l : Location) (cs : List Char) : Location := cs.foldl next l

@[simp] theorem after_nil (l : Location) : l.after [] = l := rfl

@[simp] theorem after_cons (l : Location) (c : Char) (cs : List Char) :
    l.after (c :: cs) = (l.next c).after cs := rfl

theorem after_append (l : Location) (cs ds : List Char) :
    l.after (cs ++ ds) = (l.after cs).after ds := List.foldl_append

/-- A location is a real place when its line is positive. -/
def isValid (l : Location) : Bool := 0 < l.line

/-- The text `line:column`. -/
def render (l : Location) : String := Digits.intText l.line ++ ":" ++ Digits.intText l.column

end Location

/-- The stretch of text from `start`, included, to `stop`, excluded. -/
structure Range where
  start : Location
  stop : Location
  deriving DecidableEq, Inhabited

namespace Range

/-- Both ends are real places and the stretch does not run backwards. -/
def isValid (r : Range) : Bool :=
  r.start.isValid && r.stop.isValid && r.start.offset ≤ r.stop.offset

/-- The number of characters covered, as a signed 64-bit word. -/
def size (r : Range) : Int := Int.bmod (r.stop.offset - r.start.offset) (Nat.pow 2 64)

/-- Every character of `o` is covered by `r`. -/
def contains (r o : Range) : Bool :=
  r.start.offset ≤ o.start.offset && o.stop.offset ≤ r.stop.offset

def span (first last : Range) : Range := ⟨first.start, last.stop⟩

/-- The text `line:column-line:column`. -/
def render (r : Range) : String := r.start.render ++ "-" ++ r.stop.render

end Range

end SmallMl
