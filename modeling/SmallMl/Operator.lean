import SmallMl.Number.Digits

/-!
# Operators

The source spells nineteen operators between operands (`Operator`), the tree knows fifteen binary
operations (`BinaryOp`).  `Operator.form` says how a spelling is put into the tree: the comparisons
other than `=` and `<=` exchange their operands, negate the result, or both.

Binary operations bind with the strengths 1 to 6 of `BinaryOp.precedence`, all weaker than the
operators in front of an operand, which bind with strength 10.
-/

namespace SmallMl

inductive UnaryOp
  | not
  | neg
  | fneg
  /-- A code that names no operator. -/
  | unknown (code : Nat)
  deriving DecidableEq

namespace UnaryOp

/-- The operators in the order of their codes. -/
def all : List UnaryOp := [not, neg, fneg]

def ofCode (n : Nat) : UnaryOp := all[n]?.getD (unknown n)

def name : UnaryOp → String
  | not => "not"
  | neg => "-"
  | fneg => "-."
  | unknown n => "UnaryOp(" ++ Digits.text n ++ ")"

def precedence (_ : UnaryOp) : Nat := 10

end UnaryOp

inductive BinaryOp
  | add
  | sub
  | mul
  | div
  | xor
  | or
  | and
  | shiftLeft
  | shiftRight
  | fadd
  | fsub
  | fmul
  | fdiv
  | equal
  | lessEqual
  /-- A code that names no operation. -/
  | unknown (code : Nat)
  deriving DecidableEq

namespace BinaryOp

/-- The operations in the order of their codes. -/
def all : List BinaryOp :=
  [add, sub, mul, div, xor, or, and, shiftLeft, shiftRight, fadd, fsub, fmul, fdiv, equal,
    lessEqual]

def ofCode (n : Nat) : BinaryOp := all[n]?.getD (unknown n)

def name : BinaryOp → String
  | add => "+"
  | sub => "-"
  | mul => "*"
  | div => "/"
  | xor => "lxor"
  | or => "lor"
  | and => "land"
  | shiftLeft => "lsl"
  | shiftRight => "lsr"
  | fadd => "+."
  | fsub => "-."
  | fmul => "*."
  | fdiv => "/."
  | equal => "="
  | lessEqual => "<="
  | unknown n => "BinaryOp(" ++ Digits.text n ++ ")"

def precedence : BinaryOp → Nat
  | equal | lessEqual => 1
  | xor | or | and => 2
  | add | sub | fadd | fsub => 3
  | mul | div | fmul | fdiv => 4
  | shiftLeft | shiftRight => 6
  | unknown _ => 0

end BinaryOp

/-- An operator as the source spells it between two operands. -/
inductive Operator
  | plus
  | minus
  | star
  | slash
  | plusDot
  | minusDot
  | starDot
  | slashDot
  | equal
  | notEqual
  | lessEqual
  | greaterEqual
  | less
  | greater
  | lxor
  | lor
  | land
  | lsl
  | lsr
  deriving DecidableEq

structure Form where
  op : BinaryOp
  /-- The operands are exchanged. -/
  swap : Bool
  /-- The result is negated. -/
  negate : Bool
  deriving DecidableEq

namespace Operator

def spelling : Operator → List Char
  | plus => ['+']
  | minus => ['-']
  | star => ['*']
  | slash => ['/']
  | plusDot => ['+', '.']
  | minusDot => ['-', '.']
  | starDot => ['*', '.']
  | slashDot => ['/', '.']
  | equal => ['=']
  | notEqual => ['<', '>']
  | lessEqual => ['<', '=']
  | greaterEqual => ['>', '=']
  | less => ['<']
  | greater => ['>']
  | lxor => ['l', 'x', 'o', 'r']
  | lor => ['l', 'o', 'r']
  | land => ['l', 'a', 'n', 'd']
  | lsl => ['l', 's', 'l']
  | lsr => ['l', 's', 'r']

def symbols : List Operator :=
  [plus, minus, star, slash, plusDot, minusDot, starDot, slashDot, equal, notEqual, lessEqual,
    greaterEqual, less, greater]

def words : List Operator := [lxor, lor, land, lsl, lsr]

def ofSymbols? (cs : List Char) : Option Operator := symbols.find? (·.spelling == cs)

def form : Operator → Form
  | plus => ⟨.add, false, false⟩
  | minus => ⟨.sub, false, false⟩
  | star => ⟨.mul, false, false⟩
  | slash => ⟨.div, false, false⟩
  | plusDot => ⟨.fadd, false, false⟩
  | minusDot => ⟨.fsub, false, false⟩
  | starDot => ⟨.fmul, false, false⟩
  | slashDot => ⟨.fdiv, false, false⟩
  | equal => ⟨.equal, false, false⟩
  | notEqual => ⟨.equal, false, true⟩
  | lessEqual => ⟨.lessEqual, false, false⟩
  | greaterEqual => ⟨.lessEqual, true, false⟩
  | less => ⟨.lessEqual, true, true⟩
  | greater => ⟨.lessEqual, false, true⟩
  | lxor => ⟨.xor, false, false⟩
  | lor => ⟨.or, false, false⟩
  | land => ⟨.and, false, false⟩
  | lsl => ⟨.shiftLeft, false, false⟩
  | lsr => ⟨.shiftRight, false, false⟩

def precedence (o : Operator) : Nat := o.form.op.precedence

theorem precedence_le (o : Operator) : o.precedence ≤ 6 := by
  cases o <;> decide

end Operator

end SmallMl
