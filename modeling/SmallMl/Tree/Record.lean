import SmallMl.Json.Value
import SmallMl.Tree.Expr

/-!
# Trees as JSON

`Node.record` gives a tree as a JSON value that keeps everything: the kind of each node, all ranges,
names, operators, literals, declared types, and whether each optional part is there.  The fields of
a record are in alphabetical order.
-/

namespace SmallMl

open Json (Value)

namespace Location

def record (l : Location) : Value :=
  .record [("column", .int l.column), ("line", .int l.line), ("offset", .int l.offset)]

end Location

namespace Range

def record (r : Range) : Value := .record [("end", r.stop.record), ("start", r.start.record)]

end Range

namespace Binder

def record (b : Binder) : Value :=
  .record [("name", .text b.name), ("range", b.range.record),
    ("vartype", .text (typeText b.declared))]

end Binder

namespace Expr

def rangeField (key : String) : Option Range → List (String × Value)
  | none => []
  | some r => [(key, r.record)]

mutual

def record : Expr → Value
  | missing => .null
  | bool r b => .record [("range", r.record), ("type", .text "BoolLit"), ("value", .bool b)]
  | int r n => .record [("range", r.record), ("type", .text "IntLit"), ("value", .int n)]
  | float r v => .record [("range", r.record), ("type", .text "FloatLit"), ("value", .float v)]
  | unit r => .record [("range", r.record), ("type", .text "UnitLit")]
  | var r name => .record [("name", .text name), ("range", r.record), ("type", .text "Var")]
  | unary r op x =>
    .record [("op", .text op.name), ("range", r.record), ("type", .text "UnaryExpr"),
      ("x", x.record)]
  | binary r op x y =>
    .record [("op", .text op.name), ("range", r.record), ("type", .text "BinaryExpr"),
      ("x", x.record), ("y", y.record)]
  | cond r c y n i e =>
    .record (("cond", c.record) :: recordOption "else" n ++ rangeField "elseRange" e ++
      [("ifRange", i.record), ("range", r.record), ("then", y.record), ("type", .text "IfExpr")])
  | bind r b x n =>
    .record (("body", x.record) :: ("name", .text b.name) :: ("nameRange", b.range.record) ::
      recordOption "next" n ++
      [("range", r.record), ("type", .text "LetExpr"),
        ("vartype", .text (Binder.typeText b.declared))])
  | bindRec r f ps x n =>
    .record (("body", x.record) :: ("name", .text f.name) :: ("nameRange", f.range.record) ::
      recordOption "next" n ++
      [("params", .list (ps.map Binder.record)), ("range", r.record),
        ("result", .text (Binder.typeText f.declared)), ("type", .text "LetRecExpr")])
  | get r a i =>
    .record [("array", a.record), ("index", i.record), ("range", r.record),
      ("type", .text "ArrayGet")]
  | put r a i v =>
    .record [("array", a.record), ("index", i.record), ("range", r.record),
      ("type", .text "ArrayPut"), ("value", v.record)]
  | call r f as =>
    .record [("args", .list (recordList as)), ("fun", f.record), ("range", r.record),
      ("type", .text "CallExpr")]

def recordOption (key : String) : Option Expr → List (String × Value)
  | none => []
  | some e => [(key, e.record)]

def recordList : List Expr → List Value
  | [] => []
  | e :: es => e.record :: recordList es

end

end Expr

namespace Node

def record : Node → Value
  | program p =>
    .record [("exprs", .list (Expr.recordList p.items)), ("range", p.range.record),
      ("type", .text "Root")]
  | expr e => e.record

end Node

end SmallMl
