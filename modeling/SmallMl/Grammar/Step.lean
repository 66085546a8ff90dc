import SmallMl.Grammar.Issue
import SmallMl.Grammar.State

/-!
# One token

`State.step s t` is the state after the token `t`, or the issue that `t` raises.  The end token is
never used up: it completes what can be completed.

A token that continues the focus is used at once.  A token that does not completes the focus as an
expression `x`, and `settle` hands `x` down the stack: as long as the token continues none of the
waiting constructs, the construct on top of the stack is completed with `x` and becomes the new `x`.
The stack gets shorter with every construct that is completed, so this is a recursion over the
stack.

* An operator that binds tightly enough for the frame on top makes `x` its left operand.
* A semicolon continues a sequence, unless `x` is a `let` without `in`, which ends every sequence.
* When the stack is empty, `x` is a complete item, and the token starts the next one.
-/

namespace SmallMl

namespace Operator

def combine (op : Operator) (x y : Expr) : Expr :=
  let r := Range.span x.range y.range
  let e := if op.form.swap then Expr.binary r op.form.op y x else Expr.binary r op.form.op x y
  if op.form.negate then .unary r .not e else e

end Operator

namespace Kind

def operator? : Kind → Option Operator
  | operator op => some op
  | _ => none

end Kind

namespace Token

def name (t : Token) : String := String.ofList t.lit

def leaf? (t : Token) : Option Expr :=
  match t.kind with
  | .bool b => some (.bool t.range b)
  | .int n => some (.int t.range n)
  | .float v => some (.float t.range v)
  | .ident => some (.var t.range t.name)
  | _ => none

end Token

namespace Grammar

/-- The name of the array constructor, however it was spelled. -/
def arrayMake : String := "Array.make"

def arrayWord : List Char := ['a', 'r', 'r', 'a', 'y']

/-- The name bound to the value of an expression in front of a semicolon.  No identifier is spelled
like this. -/
def discarded : String := "_"

namespace Slot

def fill : Slot → Expr → Focus
  | operand, x => .atom x
  | argument fn args, x => .call fn (x :: args)

end Slot

namespace FunctionHead

def addParam (h : FunctionHead) (b : Binder) : FunctionHead := { h with params := b :: h.params }

def frame (h : FunctionHead) (result : Option Ty) : Frame :=
  .recBody h.start ⟨h.name, result, h.nameRange⟩ h.params.reverse

end FunctionHead

namespace Header

def malformed : Header → Complaint
  | plain _ => .malformedLet
  | function _ => .malformedParams

def bound : Header → Binder → Focus
  | plain start, b => .equals start b
  | function h, b => .params (h.addParam b)

end Header

abbrev Outcome := Except Issue State

def State.use (items : List Expr) (stack : List Frame) (t : Token) (focus : Focus) : State :=
  ⟨items, stack, focus, t.range.stop⟩

/-- The token `t` starts an expression that the top of the stack waits for. -/
def begin (items : List Expr) (stack : List Frame) (t : Token) : Outcome :=
  match t.leaf? with
  | some x => .ok (.use items stack t (.atom x))
  | none =>
    match t.kind with
    | .lparen => .ok (.use items stack t (.opened t.range.start .operand))
    | .notWord => .ok (.use items (.operand .not t.range.start :: stack) t .start)
    | .operator .minus => .ok (.use items (.operand .neg t.range.start :: stack) t .start)
    | .operator .minusDot => .ok (.use items (.operand .fneg t.range.start :: stack) t .start)
    | .ifWord => .ok (.use items (.condition t.range :: stack) t .start)
    | .letWord => .ok (.use items stack t (.letWord t.range.start))
    | .arrayMake => .ok (.use items stack t (.call (.var t.range arrayMake) []))
    | _ => .error (.unexpected t)

/-- The token `t` comes between two items of the top level. -/
def top (items : List Expr) (last : Location) (t : Token) : Outcome :=
  match t.kind with
  | .eof => .ok ⟨items, [], .top, last⟩
  | .semi => .ok (.use items [] t .top)
  | _ => begin items [] t

/-- The operator that `t` is, if it binds at least with the given strength. -/
def binding? (strength : Nat) (t : Token) : Option Operator :=
  t.kind.operator?.filter fun op => strength ≤ op.precedence

/-- Hands the expression `x`, behind which `t` stands, down the stack.  If `whole` is set, `x` is a
whole sequence, which no semicolon continues. -/
def settle (items : List Expr) (last : Location) (t : Token) :
    Bool → Expr → List Frame → Outcome
  | _, x, [] =>
    match binding? 0 t with
    | some op => .ok (.use items [.right x op] t .start)
    | none => top (x :: items) last t
  | whole, x, f :: fs =>
    match binding? f.strength t with
    | some op => .ok (.use items (.right x op :: f :: fs) t .start)
    | none =>
      if f.isSequence && !whole && t.kind = .semi && !x.endsSequence then
        .ok (.use items (f :: fs) t (.semi x t.range))
      else match f with
        | .right left op => settle items last t false (op.combine left x) fs
        | .operand op start => settle items last t false (.unary ⟨start, last⟩ op x) fs
        | .paren opening slot =>
          if t.kind = .rparen then
            .ok (.use items fs t (slot.fill (x.withRange ⟨opening, t.range.stop⟩)))
          else .error (.raise t opening (.expected .rparen))
        | .index array opening =>
          if t.kind = .rparen then .ok (.use items fs t (.indexed array x))
          else .error (.raise t opening (.expected .rparen))
        | .value array index =>
          settle items last t false (.put ⟨array.range.start, last⟩ array index x) fs
        | .condition ifRange =>
          if t.kind = .thenWord then .ok (.use items (.consequent ifRange x :: fs) t .start)
          else .error (.raise t t.range.start (.expected .thenWord))
        | .consequent ifRange c =>
          if t.kind = .elseWord then
            .ok (.use items (.alternative ifRange c x t.range :: fs) t .start)
          else settle items last t false (.cond ⟨ifRange.start, last⟩ c x none ifRange none) fs
        | .alternative ifRange c yes elseRange =>
          settle items last t false
            (.cond ⟨ifRange.start, last⟩ c yes (some x) ifRange (some elseRange)) fs
        | .letBody start b =>
          if t.kind = .inWord then .ok (.use items (.letNext start b x :: fs) t .start)
          else settle items last t false (.bind ⟨start, last⟩ b x none) fs
        | .letNext start b body =>
          settle items last t false (.bind ⟨start, last⟩ b body (some x)) fs
        | .recBody start fn ps =>
          if t.kind = .inWord then .ok (.use items (.recNext start fn ps x :: fs) t .start)
          else settle items last t false (.bindRec ⟨start, last⟩ fn ps x none) fs
        | .recNext start fn ps body =>
          settle items last t false (.bindRec ⟨start, last⟩ fn ps body (some x)) fs
        | .sequel first semi =>
          settle items last t true
            (.bind (Range.span first.range x.range) ⟨discarded, some (.basic .unit), semi⟩ first
              (some x)) fs

namespace State

/-- The expression `x` is complete and `t` stands behind it. -/
def complete (s : State) (x : Expr) (t : Token) : Outcome := settle s.items s.last t false x s.stack

/-- The token `t` is used up and the stack stays. -/
def goOn (s : State) (t : Token) (focus : Focus) : Outcome := .ok (.use s.items s.stack t focus)

/-- The token `t` is used up and the frame `f` waits for an expression. -/
def await (s : State) (t : Token) (f : Frame) : Outcome :=
  .ok (.use s.items (f :: s.stack) t .start)

def since (s : State) (start : Location) : Range := ⟨start, s.last⟩

def callOf (s : State) (fn : Expr) (args : List Expr) : Expr :=
  if args.isEmpty then fn else .call (s.since fn.range.start) fn args.reverse

/-- The token `t` comes behind the function or arguments of a call. -/
def stepCall (s : State) (fn : Expr) (args : List Expr) (t : Token) : Outcome :=
  match t.leaf? with
  | some x => s.goOn t (.call fn (x :: args))
  | none =>
    if t.kind = .lparen then s.goOn t (.opened t.range.start (.argument fn args))
    else s.complete (s.callOf fn args) t

/-- The token `t` comes behind `array.(index)`. -/
def stepIndexed (s : State) (array index : Expr) (t : Token) : Outcome :=
  let e := Expr.get (s.since array.range.start) array index
  match t.kind with
  | .leftArrow => s.await t (.value array index)
  | .dot => s.goOn t (.dot e)
  | _ => s.complete e t

def stepBinder (s : State) (h : Header) (t : Token) : Outcome :=
  match t.kind with
  | .ident => s.goOn t (h.bound ⟨t.name, none, t.range⟩)
  | .lparen => s.goOn t (.binderOpened h t.range.start)
  | _ => .error (.raise t t.range.start h.malformed)

def stepType (s : State) (t : Token) (focus : Ty → Focus) : Outcome :=
  if t.kind = .ident then
    match Basic.ofName? t.lit with
    | some b => s.goOn t (focus (.basic b))
    | none => .error (.raise t t.range.start (.unknownType t.name))
  else .error (.raise t t.range.start .expectedType)

/-- The token `t` has to be the equals sign in front of the body that `f` waits for. -/
def stepEquals (s : State) (t : Token) (f : Frame) : Outcome :=
  if t.kind = .operator .equal then s.await t f
  else .error (.raise t t.range.start .expectedEquals)

/-- The token `t` comes behind the name and parameters of a function. -/
def stepParams (s : State) (h : FunctionHead) (t : Token) : Outcome :=
  if t.kind = .ident || t.kind = .lparen then s.stepBinder (.function h) t
  else if h.params.isEmpty then .error (.raise t t.range.start .malformedParams)
  else if t.kind = .colon then s.goOn t (.resultColon h)
  else s.stepEquals t (h.frame none)

def isArrayWord (t : Token) : Bool := t.kind = .ident && t.lit = arrayWord

def step (s : State) (t : Token) : Outcome :=
  match s.focus with
  | .top => Grammar.top s.items s.last t
  | .start => begin s.items s.stack t
  | .opened opening slot =>
    if t.kind = .rparen then s.goOn t (slot.fill (.unit ⟨opening, t.range.stop⟩))
    else begin s.items (.paren opening slot :: s.stack) t
  | .atom x => if t.kind = .dot then s.goOn t (.dot x) else s.stepCall x [] t
  | .call fn args => s.stepCall fn args t
  | .dot array =>
    if t.kind = .lparen then s.await t (.index array t.range.start)
    else .error (.raise t t.range.start .expectedIndex)
  | .indexed array index => s.stepIndexed array index t
  | .semi x semi =>
    if t.kind = .rparen || t.kind = .eof then settle s.items s.last t true x s.stack
    else begin s.items (.sequel x semi :: s.stack) t
  | .letWord start =>
    if t.kind = .recWord then s.goOn t (.recWord start) else s.stepBinder (.plain start) t
  | .equals start b => s.stepEquals t (.letBody start b)
  | .recWord start =>
    if t.kind = .ident then s.goOn t (.params ⟨start, t.name, t.range, []⟩)
    else .error (.raise t t.range.start .expectedFunctionName)
  | .params h => s.stepParams h t
  | .resultColon h => s.stepType t (.resultType h)
  | .resultType h type =>
    if isArrayWord t then s.goOn t (.resultType h (.array type))
    else s.stepEquals t (h.frame (some type))
  | .binderOpened h opening =>
    if t.kind = .ident then s.goOn t (.binderName h opening t.name)
    else .error (.raise t opening h.malformed)
  | .binderName h opening name =>
    if t.kind = .colon then s.goOn t (.binderColon h opening name)
    else .error (.raise t opening h.malformed)
  | .binderColon h opening name => s.stepType t (.binderType h opening name)
  | .binderType h opening name type =>
    if isArrayWord t then s.goOn t (.binderType h opening name (.array type))
    else if t.kind = .rparen then
      s.goOn t (h.bound ⟨name, some type, ⟨opening, t.range.stop⟩⟩)
    else .error (.raise t opening h.malformed)

end State

end Grammar

end SmallMl
