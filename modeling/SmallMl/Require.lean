/-!
# Values that must be there

Optional values are `Option`s.  `require` is for a caller who knows that the value is there; if it
is not, the caller is told so.
-/

namespace SmallMl

inductive Absent
  | absent
  deriving DecidableEq

namespace Absent

def message : Absent → String
  | absent => "optional: MustGet on empty value"

end Absent

def require {α : Type} : Option α → Except Absent α
  | some a => .ok a
  | none => .error .absent

end SmallMl
