import SmallMl.Number.Layout
import SmallMl.Text.Quoted
import SmallMl.Tree.Expr

/-!
# Outlines

An outline shows a tree with one line for each node: the kind of the node, its range and what is
particular to it.  The parts of a node stand below it, one step further in; where a node has parts
of different roles, each part has a line with the name of its role and stands one more step in.

`Node.outline` gives the lines as data, `Node.outlineText` writes them out.
-/

namespace SmallMl

/-- What a line of an outline shows. -/
inductive Entry
  | node (n : Node)
  /-- The role of the parts below. -/
  | role (name : String)
  | param (b : Binder)

/-- A line of an outline, `depth` steps in. -/
structure Line where
  depth : Nat
  entry : Entry

namespace Expr

/-- What is particular to a node, behind its range. -/
def details : Expr → String
  | bool _ b => if b then " true" else " false"
  | int _ n => " " ++ Digits.intText n
  | float _ v => " " ++ v.sourceText
  | var _ name => " " ++ Quoted.text name
  | unary _ op _ => " " ++ op.name
  | binary _ op _ _ => " " ++ op.name
  | bind _ b _ _ => " " ++ Quoted.text b.name ++ " : " ++ Binder.typeText b.declared
  | bindRec _ f _ _ _ => " " ++ Quoted.text f.name ++ " : " ++ Binder.typeText f.declared
  | _ => ""

mutual

/-- The lines of an expression that stands `d` steps in. -/
def outline (d : Nat) : Expr → List Line
  | missing => []
  | bool r b => [⟨d, .node (.expr (bool r b))⟩]
  | int r n => [⟨d, .node (.expr (int r n))⟩]
  | float r x => [⟨d, .node (.expr (float r x))⟩]
  | unit r => [⟨d, .node (.expr (unit r))⟩]
  | var r name => [⟨d, .node (.expr (var r name))⟩]
  | unary r op x => ⟨d, .node (.expr (unary r op x))⟩ :: outline (d + 1) x
  | binary r op x y =>
    ⟨d, .node (.expr (binary r op x y))⟩ ::
      (⟨d + 1, .role "X"⟩ :: outline (d + 2) x ++ ⟨d + 1, .role "Y"⟩ :: outline (d + 2) y)
  | cond r c y n i e =>
    ⟨d, .node (.expr (cond r c y n i e))⟩ ::
      (⟨d + 1, .role "Cond"⟩ :: outline (d + 2) c ++ ⟨d + 1, .role "Then"⟩ :: outline (d + 2) y ++
        outlineOption (d + 1) "Else" n)
  | bind r b x n =>
    ⟨d, .node (.expr (bind r b x n))⟩ ::
      (⟨d + 1, .role "Body"⟩ :: outline (d + 2) x ++ outlineOption (d + 1) "Next" n)
  | bindRec r f ps x n =>
    ⟨d, .node (.expr (bindRec r f ps x n))⟩ ::
      (⟨d + 1, .role "Params"⟩ :: ps.map (fun b => ⟨d + 2, .param b⟩) ++
        ⟨d + 1, .role "Body"⟩ :: outline (d + 2) x ++ outlineOption (d + 1) "Next" n)
  | get r a i =>
    ⟨d, .node (.expr (get r a i))⟩ ::
      (⟨d + 1, .role "Array"⟩ :: outline (d + 2) a ++ ⟨d + 1, .role "Index"⟩ :: outline (d + 2) i)
  | put r a i v =>
    ⟨d, .node (.expr (put r a i v))⟩ ::
      (⟨d + 1, .role "Array"⟩ :: outline (d + 2) a ++ ⟨d + 1, .role "Index"⟩ :: outline (d + 2) i ++
        ⟨d + 1, .role "Value"⟩ :: outline (d + 2) v)
  | call r f as =>
    ⟨d, .node (.expr (call r f as))⟩ ::
      (⟨d + 1, .role "Fun"⟩ :: outline (d + 2) f ++ ⟨d + 1, .role "Args"⟩ :: outlineList (d + 2) as)

/-- An optional part, under its role. -/
def outlineOption (d : Nat) (role : String) : Option Expr → List Line
  | none => []
  | some e => ⟨d, .role role⟩ :: outline (d + 1) e

def outlineList (d : Nat) : List Expr → List Line
  | [] => []
  | e :: es => outline d e ++ outlineList d es

end

end Expr

namespace Node

/-- The lines of a tree. -/
def outline : Node → List Line
  | program p => ⟨0, .node (.program p)⟩ :: Expr.outlineList 1 p.items
  | expr e => e.outline 0

/-- The line of a node, without what stands in front of it. -/
def headline : Node → String
  | program p => (Node.program p).typeName ++ " " ++ p.range.render
  | expr e => e.typeName ++ " " ++ e.range.render ++ e.details

end Node

namespace Entry

def text : Entry → String
  | node n => n.headline
  | role name => name ++ ":"
  | param b => b.range.render ++ " " ++ Quoted.text b.name ++ " : " ++ Binder.typeText b.declared

end Entry

namespace Line

def text (l : Line) : String :=
  String.ofList (List.replicate (2 * l.depth) ' ') ++ l.entry.text ++ "\n"

end Line

namespace Node

def outlineText (n : Node) : String := String.join (n.outline.map Line.text)

end Node

end SmallMl
