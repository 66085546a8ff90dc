/-!
# Types

A `Ty` is a type of the language as a tree: one of the four basic types, a type variable, an array,
a tuple or a function of several parameters.

The written form puts parentheses only where the tree could not be told otherwise: around a function
in the place of a parameter, and around a function or a tuple in the place of a tuple element or an
array element.  Arrows are right associative and a tuple binds tighter than an arrow.
-/

namespace SmallMl

/-- The types that need no parts. -/
inductive Basic
  | unit
  | bool
  | int
  | float
  deriving DecidableEq

namespace Basic

/-- The basic types in the order of their codes. -/
def all : List Basic := [unit, bool, int, float]

def code : Basic → Nat
  | unit => 0
  | bool => 1
  | int => 2
  | float => 3

def name : Basic → List Char
  | unit => ['u', 'n', 'i', 't']
  | bool => ['b', 'o', 'o', 'l']
  | int => ['i', 'n', 't']
  | float => ['f', 'l', 'o', 'a', 't']

/-- The letter that marks temporary names of the type. -/
def letter : Basic → Char
  | unit => 'u'
  | bool => 'b'
  | int => 'i'
  | float => 'd'

/-- The basic type with the given name. -/
def ofName? (cs : List Char) : Option Basic := all.find? (·.name == cs)

end Basic

/-- A type as a tree. -/
inductive Ty
  | basic (b : Basic)
  | var (v : Nat)
  | array (elem : Ty)
  | tuple (elems : List Ty)
  | func (params : List Ty) (result : Ty)

namespace Ty

def isFunc : Ty → Bool
  | func _ _ => true
  | _ => false

def isTuple : Ty → Bool
  | tuple _ => true
  | _ => false

def inParens (cs : List Char) : List Char := '(' :: cs ++ [')']

/-- The mark of an unresolved variable. -/
def placeholder : List Char := ['\'', '_']

def arrow : List Char := [' ', '-', '>', ' ']

def star : List Char := [' ', '*', ' ']

def arraySuffix : List Char := [' ', 'a', 'r', 'r', 'a', 'y']

mutual

def chars : Ty → List Char
  | basic b => b.name
  | var _ => placeholder
  | array elem =>
    (if elem.isFunc || elem.isTuple then inParens elem.chars else elem.chars) ++ arraySuffix
  | tuple elems => elemsChars elems
  | func params result => paramsChars params ++ result.chars

/-- The elements of a tuple, with stars between them. -/
def elemsChars : List Ty → List Char
  | [] => []
  | [t] => if t.isFunc || t.isTuple then inParens t.chars else t.chars
  | t :: ts =>
    (if t.isFunc || t.isTuple then inParens t.chars else t.chars) ++ star ++ elemsChars ts

/-- The parameters of a function, each with its arrow. -/
def paramsChars : List Ty → List Char
  | [] => []
  | t :: ts => (if t.isFunc then inParens t.chars else t.chars) ++ arrow ++ paramsChars ts

end

def render (t : Ty) : String := String.ofList t.chars

mutual

/-- No variable occurs in the type. -/
def isResolved : Ty → Bool
  | basic _ => true
  | var _ => false
  | array elem => elem.isResolved
  | tuple elems => allResolved elems
  | func params result => allResolved params && result.isResolved

def allResolved : List Ty → Bool
  | [] => true
  | t :: ts => t.isResolved && allResolved ts

end

mutual

/-- The variable `v` occurs in the type. -/
def occurs (v : Nat) : Ty → Bool
  | basic _ => false
  | var w => w = v
  | array elem => elem.occurs v
  | tuple elems => occursIn v elems
  | func params result => occursIn v params || result.occurs v

def occursIn (v : Nat) : List Ty → Bool
  | [] => false
  | t :: ts => t.occurs v || occursIn v ts

end

mutual

def subst (v : Nat) (s : Ty) : Ty → Ty
  | basic b => basic b
  | var w => if w = v then s else var w
  | array elem => array (subst v s elem)
  | tuple elems => tuple (substAll v s elems)
  | func params result => func (substAll v s params) (subst v s result)

def substAll (v : Nat) (s : Ty) : List Ty → List Ty
  | [] => []
  | t :: ts => subst v s t :: substAll v s ts

end

mutual

def size : Ty → Nat
  | basic _ => 1
  | var _ => 1
  | array elem => elem.size + 1
  | tuple elems => sizes elems + 1
  | func params result => sizes params + result.size + 1

def sizes : List Ty → Nat
  | [] => 0
  | t :: ts => t.size + sizes ts

end

end Ty

end SmallMl
