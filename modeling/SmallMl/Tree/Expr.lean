import SmallMl.Number.Binary64
import SmallMl.Operator
import SmallMl.Source.Location
import SmallMl.Typing.Ty

/-!
# Expression trees

An `Expr` is an expression of the language; every node carries the stretch of source text it was
read from.  A place where an expression is expected and none is given holds `Expr.missing`; reading
a source text never leaves one.

A `Program` is the list of the expressions at the top level.  `Node` joins programs and expressions
for what treats them alike.

`Expr.induct` is induction over expressions with hypotheses for the members of argument lists and
for optional parts.
-/

namespace SmallMl

/-- A bound name, with the type it is declared to have, if any. -/
structure Binder where
  name : String
  declared : Option Ty
  range : Range

namespace Binder

/-- The declared type as it is written; the mark of an unresolved variable if there is none. -/
def typeText (declared : Option Ty) : String :=
  match declared with
  | some t => t.render
  | none => String.ofList Ty.placeholder

end Binder

inductive Expr
  /-- No expression where one is expected. -/
  | missing
  | bool (range : Range) (value : Bool)
  | int (range : Range) (value : Int)
  | float (range : Range) (value : Binary64)
  | unit (range : Range)
  | var (range : Range) (name : String)
  | unary (range : Range) (op : UnaryOp) (x : Expr)
  | binary (range : Range) (op : BinaryOp) (x y : Expr)
  /-- `if cond then yes else no`; `ifRange` and `elseRange` are the places of the two words. -/
  | cond (range : Range) (cond yes : Expr) (no : Option Expr) (ifRange : Range)
      (elseRange : Option Range)
  /-- `let binder = body in next`. -/
  | bind (range : Range) (binder : Binder) (body : Expr) (next : Option Expr)
  /-- `let rec fn params = body in next`; the type of `fn` is that of its result. -/
  | bindRec (range : Range) (fn : Binder) (params : List Binder) (body : Expr) (next : Option Expr)
  /-- `array.(index)`. -/
  | get (range : Range) (array index : Expr)
  /-- `array.(index) <- value`. -/
  | put (range : Range) (array index value : Expr)
  | call (range : Range) (fn : Expr) (args : List Expr)

namespace Expr

def range : Expr → Range
  | missing => default
  | bool r _ | int r _ | float r _ | unit r | var r _ | unary r _ _ | binary r _ _ _
  | cond r _ _ _ _ _ | bind r _ _ _ | bindRec r _ _ _ _ | get r _ _ | put r _ _ _ | call r _ _ => r

def withRange (r : Range) : Expr → Expr
  | missing => missing
  | bool _ b => bool r b
  | int _ n => int r n
  | float _ v => float r v
  | unit _ => unit r
  | var _ name => var r name
  | unary _ op x => unary r op x
  | binary _ op x y => binary r op x y
  | cond _ c y n i e => cond r c y n i e
  | bind _ b x n => bind r b x n
  | bindRec _ f ps x n => bindRec r f ps x n
  | get _ a i => get r a i
  | put _ a i v => put r a i v
  | call _ f as => call r f as

def isMissing : Expr → Bool
  | missing => true
  | _ => false

/-- A `let` or `let rec` without `in`. -/
def endsSequence : Expr → Bool
  | bind _ _ _ none => true
  | bindRec _ _ _ _ none => true
  | _ => false

/-- The name under which the kind of the expression is listed. -/
def typeName : Expr → String
  | missing => ""
  | bool _ _ => "BoolLit"
  | int _ _ => "IntLit"
  | float _ _ => "FloatLit"
  | unit _ => "UnitLit"
  | var _ _ => "Var"
  | unary _ _ _ => "UnaryExpr"
  | binary _ _ _ _ => "BinaryExpr"
  | cond _ _ _ _ _ _ => "IfExpr"
  | bind _ _ _ _ => "LetExpr"
  | bindRec _ _ _ _ _ => "LetRecExpr"
  | get _ _ _ => "ArrayGet"
  | put _ _ _ _ => "ArrayPut"
  | call _ _ _ => "CallExpr"

/-- **Induction over expressions**, with a hypothesis for each argument and each optional part. -/
@[elab_as_elim, induction_eliminator]
theorem induct {motive : Expr → Prop}
    (missing : motive missing)
    (bool : ∀ r b, motive (bool r b))
    (int : ∀ r n, motive (int r n))
    (float : ∀ r v, motive (float r v))
    (unit : ∀ r, motive (unit r))
    (var : ∀ r name, motive (var r name))
    (unary : ∀ r op x, motive x → motive (unary r op x))
    (binary : ∀ r op x y, motive x → motive y → motive (binary r op x y))
    (cond : ∀ r c y n i e, motive c → motive y → (∀ m ∈ n, motive m) → motive (cond r c y n i e))
    (bind : ∀ r b x n, motive x → (∀ m ∈ n, motive m) → motive (bind r b x n))
    (bindRec : ∀ r f ps x n, motive x → (∀ m ∈ n, motive m) → motive (bindRec r f ps x n))
    (get : ∀ r a i, motive a → motive i → motive (get r a i))
    (put : ∀ r a i v, motive a → motive i → motive v → motive (put r a i v))
    (call : ∀ r f as, motive f → (∀ a ∈ as, motive a) → motive (call r f as))
    (e : Expr) : motive e := by
  refine @Expr.rec motive (fun o => ∀ m ∈ o, motive m) (fun l => ∀ a ∈ l, motive a) missing bool
    int float unit var unary binary cond bind bindRec get put call ?_ ?_ ?_ ?_ e
  · intro m hm
    cases hm
  · intro x hx m hm
    cases hm
    exact hx
  · intro a ha
    cases ha
  · intro a l hx hl b hb
    rcases List.mem_cons.1 hb with rfl | hb
    · exact hx
    · exact hl b hb

@[simp] theorem range_withRange {e : Expr} (r : Range) (h : e.isMissing = false) :
    (e.withRange r).range = r := by
  cases e <;> first | rfl | exact Bool.noConfusion h

end Expr

/-- A source text as a whole: the expressions at its top level. -/
structure Program where
  range : Range
  items : List Expr

inductive Node
  | program (p : Program)
  | expr (e : Expr)

namespace Node

def range : Node → Range
  | program p => p.range
  | expr e => e.range

/-- The name under which the kind of the node is listed. -/
def typeName : Node → String
  | program _ => "Root"
  | expr e => e.typeName

end Node

end SmallMl
