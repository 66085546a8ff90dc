import SmallMl.Typing.Ty

/-!
# Types that are completed later

A `Cell` is a type that is built once and may be completed afterwards: its variables are resolved
one by one, and every cell that contains a variable follows.  Each cell but the basic ones carries
the number under which it was made, so that two cells of the same shape can be told apart.

A `Store` hands out the numbers and records which variable was resolved to what, the latest
resolution first.  A variable may only be resolved while it has no resolution, and never to itself,
so resolutions form no cycle of variables and `Store.underlying`, which follows them, is a recursion
over the list: what the latest resolution `v ↦ s` adds is that whatever was `v` before is now what
`s` was before.

`Store.expand` follows resolutions inside a type as well and gives the type as a tree.
-/

namespace SmallMl

/-- A type with a number for each part that was made. -/
inductive Cell
  | basic (b : Basic)
  | var (id : Nat)
  | array (id : Nat) (elem : Cell)
  | tuple (id : Nat) (elems : List Cell)
  | func (id : Nat) (params : List Cell) (result : Cell)

namespace Cell

/-- The two cells are one and the same. -/
def same : Cell → Cell → Bool
  | basic a, basic b => a = b
  | var i, var j => i = j
  | array i _, array j _ => i = j
  | tuple i _, tuple j _ => i = j
  | func i _ _, func j _ _ => i = j
  | _, _ => false

mutual

/-- The cell as a tree, resolutions aside. -/
def tree : Cell → Ty
  | basic b => .basic b
  | var v => .var v
  | array _ elem => .array elem.tree
  | tuple _ elems => .tuple (trees elems)
  | func _ params result => .func (trees params) result.tree

def trees : List Cell → List Ty
  | [] => []
  | c :: cs => c.tree :: trees cs

end

end Cell

/-- What a caller must not ask of a type variable. -/
inductive Misuse
  | resolvedTwice
  | resolvedToItself
  | codeOfVariable
  deriving DecidableEq

namespace Misuse

def message : Misuse → String
  | resolvedTwice => "types: type variable resolved twice"
  | resolvedToItself => "types: type variable resolved to itself"
  | codeOfVariable => "types: Code of unresolved type variable"

end Misuse

/-- The resolutions so far, the latest first. -/
abbrev Resolutions := List (Nat × Cell)

namespace Resolutions

/-- The cell with resolved variables followed: a cell that is no variable, or a variable without a
resolution. -/
def underlying : Resolutions → Cell → Cell
  | [], c => c
  | (v, s) :: σ, c =>
    match underlying σ c with
    | .var w => if w = v then underlying σ s else .var w
    | u => u

/-- The cell as a tree in which every resolved variable has been replaced.  A resolution is only
looked into where its variable occurs. -/
def expand : Resolutions → Cell → Ty
  | [], c => c.tree
  | (v, s) :: σ, c =>
    let t := expand σ c
    if t.occurs v then Ty.subst v (expand σ s) t else t

/-- The lists are equally long and their members agree pairwise. -/
def agreeAll (f : Cell → Cell → Bool) : List Cell → List Cell → Bool
  | [], [] => true
  | x :: xs, y :: ys => f x y && agreeAll f xs ys
  | _, _ => false

/-- Two cells agree at their root, and their parts agree by `f`. -/
def agreeAt (f : Cell → Cell → Bool) (x y : Cell) : Bool :=
  x.same y ||
    match x, y with
    | .array _ e, .array _ e' => f e e'
    | .tuple _ es, .tuple _ es' => agreeAll f es es'
    | .func _ ps r, .func _ ps' r' => agreeAll f ps ps' && f r r'
    | _, _ => false

/-- The two cells are of the same type, compared level by level down to the given depth. -/
def agree (σ : Resolutions) : Nat → Cell → Cell → Bool
  | 0, x, y => x.same y
  | depth + 1, x, y => x.same y || agreeAt (agree σ depth) (underlying σ x) (underlying σ y)

end Resolutions

/-- The cells made so far are numbered below `made`. -/
structure Store where
  made : Nat
  resolutions : Resolutions

namespace Store

def empty : Store := ⟨0, []⟩

def bump (s : Store) : Store := { s with made := s.made + 1 }

def newVar (s : Store) : Cell × Store := (.var s.made, s.bump)

def newArray (s : Store) (elem : Cell) : Cell × Store := (.array s.made elem, s.bump)

def newTuple (s : Store) (elems : List Cell) : Cell × Store := (.tuple s.made elems, s.bump)

def newFunc (s : Store) (params : List Cell) (result : Cell) : Cell × Store :=
  (.func s.made params result, s.bump)

def target? (s : Store) (v : Nat) : Option Cell := s.resolutions.lookup v

/-- The cell with resolved variables followed. -/
def underlying (s : Store) (c : Cell) : Cell := s.resolutions.underlying c

/-- The type of the cell, as far as it is resolved. -/
def expand (s : Store) (c : Cell) : Ty := s.resolutions.expand c

/-- Resolves the variable `v` to the cell `c`. -/
def resolve (s : Store) (v : Nat) (c : Cell) : Except Misuse Store :=
  if (s.target? v).isSome then .error .resolvedTwice
  else if (s.underlying c).same (.var v) then .error .resolvedToItself
  else .ok { s with resolutions := (v, c) :: s.resolutions }

def render (s : Store) (c : Cell) : String := (s.expand c).render

def isResolved (s : Store) (c : Cell) : Bool := (s.expand c).isResolved

/-- The letter that marks temporary names of the type. -/
def letter (s : Store) (c : Cell) : Except Misuse Char :=
  match s.underlying c with
  | .basic b => .ok b.letter
  | .var _ => .error .codeOfVariable
  | .array _ _ => .ok 'a'
  | .tuple _ _ => .ok 't'
  | .func _ _ _ => .ok 'f'

/-- The two types are the same; no type is the same as none only.  No two types differ below the
depth of either. -/
def identical (s : Store) : Option Cell → Option Cell → Bool
  | none, none => true
  | some x, some y => s.resolutions.agree (s.expand x).size x y
  | _, _ => false

end Store

end SmallMl
