import SmallMl.Token.Kind
import SmallMl.Tree.Expr

/-!
# States of reading

A program is read one token at a time.  Between two tokens the reader is in a `State`: the items of
the top level that are complete, a stack of `Frame`s and a `Focus`.

A frame is a construct of which everything up to some expression has been read; it waits for that
expression.  The focus is the innermost construct, with what has been read of it.  A frame has a
strength: an operator that binds at least that tightly still belongs to the expression the frame
waits for.

The last token read has to be remembered as well, because constructs without a closing mark end
where it ends.
-/

namespace SmallMl.Grammar

inductive Slot
  /-- It is an operand of its own. -/
  | operand
  /-- It is the next argument of a call; the arguments so far, the latest first. -/
  | argument (fn : Expr) (args : List Expr)

/-- The head of a `let rec`, as far as it has been read; the latest parameter first. -/
structure FunctionHead where
  start : Location
  name : String
  nameRange : Range
  params : List Binder

/-- A construct that waits for an expression. -/
inductive Frame
  /-- `left op ·` -/
  | right (left : Expr) (op : Operator)
  /-- `op ·` -/
  | operand (op : UnaryOp) (start : Location)
  /-- `( ·` -/
  | paren (opening : Location) (slot : Slot)
  /-- `array . ( ·` -/
  | index (array : Expr) (opening : Location)
  /-- `array . ( index ) <- ·` -/
  | value (array index : Expr)
  /-- `if ·` -/
  | condition (ifRange : Range)
  /-- `if cond then ·` -/
  | consequent (ifRange : Range) (cond : Expr)
  /-- `if cond then yes else ·` -/
  | alternative (ifRange : Range) (cond yes : Expr) (elseRange : Range)
  /-- `let binder = ·` -/
  | letBody (start : Location) (binder : Binder)
  /-- `let binder = body in ·` -/
  | letNext (start : Location) (binder : Binder) (body : Expr)
  /-- `let rec fn params = ·` -/
  | recBody (start : Location) (fn : Binder) (params : List Binder)
  /-- `let rec fn params = body in ·` -/
  | recNext (start : Location) (fn : Binder) (params : List Binder) (body : Expr)
  /-- `first ; ·` inside a sequence -/
  | sequel (first : Expr) (semi : Range)

namespace Frame

/-- Operators of at least this precedence belong to the expression that the frame waits for. -/
def strength : Frame → Nat
  | right _ op => op.precedence + 1
  | operand op _ => op.precedence
  | _ => 0

def isSequence : Frame → Bool
  | paren _ _ | letNext _ _ _ | recNext _ _ _ _ | sequel _ _ => true
  | _ => false

end Frame

/-- The binding that a binder belongs to. -/
inductive Header
  | plain (start : Location)
  | function (head : FunctionHead)

/-- The innermost construct. -/
inductive Focus
  /-- Between two items of the top level. -/
  | top
  /-- An expression has to start. -/
  | start
  /-- `(` -/
  | opened (opening : Location) (slot : Slot)
  /-- A complete atom, which may be indexed or applied. -/
  | atom (x : Expr)
  /-- A call to which arguments may be added, the latest first. -/
  | call (fn : Expr) (args : List Expr)
  /-- `array .` -/
  | dot (array : Expr)
  /-- `array . ( index )` -/
  | indexed (array index : Expr)
  /-- `x ;` inside a sequence -/
  | semi (x : Expr) (semi : Range)
  /-- `let` -/
  | letWord (start : Location)
  /-- `let binder` -/
  | equals (start : Location) (binder : Binder)
  /-- `let rec` -/
  | recWord (start : Location)
  /-- `let rec fn params` -/
  | params (head : FunctionHead)
  /-- `let rec fn params :` -/
  | resultColon (head : FunctionHead)
  /-- `let rec fn params : type` -/
  | resultType (head : FunctionHead) (type : Ty)
  /-- `(` of a binder -/
  | binderOpened (h : Header) (opening : Location)
  /-- `( name` of a binder -/
  | binderName (h : Header) (opening : Location) (name : String)
  /-- `( name :` of a binder -/
  | binderColon (h : Header) (opening : Location) (name : String)
  /-- `( name : type` of a binder -/
  | binderType (h : Header) (opening : Location) (name : String) (type : Ty)

structure State where
  /-- The complete items, the latest first. -/
  items : List Expr
  stack : List Frame
  focus : Focus
  /-- The end of the last token that was read. -/
  last : Location

namespace State

def initial : State := ⟨[], [], .top, default⟩

end State

end SmallMl.Grammar
