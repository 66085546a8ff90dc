import SmallMl.Tree.Expr

/-!
# Walking a tree

`Node.preorder v n` lists the nodes of a tree in the order of the source, a node before its parts.
The parts of a node are only looked at if the visitor `v` accepts the node; a missing expression is
never visited.
-/

namespace SmallMl

namespace Expr

mutual

/-- The nodes of an expression that a visitor meets. -/
def preorder (v : Node → Bool) : Expr → List Node
  | missing => []
  | bool r b => [.expr (bool r b)]
  | int r n => [.expr (int r n)]
  | float r x => [.expr (float r x)]
  | unit r => [.expr (unit r)]
  | var r name => [.expr (var r name)]
  | unary r op x =>
    .expr (unary r op x) :: (if v (.expr (unary r op x)) then preorder v x else [])
  | binary r op x y =>
    .expr (binary r op x y) ::
      (if v (.expr (binary r op x y)) then preorder v x ++ preorder v y else [])
  | cond r c y n i e =>
    .expr (cond r c y n i e) ::
      (if v (.expr (cond r c y n i e)) then
        preorder v c ++ preorder v y ++ preorderOption v n
      else [])
  | bind r b x n =>
    .expr (bind r b x n) ::
      (if v (.expr (bind r b x n)) then preorder v x ++ preorderOption v n else [])
  | bindRec r f ps x n =>
    .expr (bindRec r f ps x n) ::
      (if v (.expr (bindRec r f ps x n)) then preorder v x ++ preorderOption v n else [])
  | get r a i =>
    .expr (get r a i) :: (if v (.expr (get r a i)) then preorder v a ++ preorder v i else [])
  | put r a i x =>
    .expr (put r a i x) ::
      (if v (.expr (put r a i x)) then preorder v a ++ preorder v i ++ preorder v x else [])
  | call r f as =>
    .expr (call r f as) ::
      (if v (.expr (call r f as)) then preorder v f ++ preorderList v as else [])

def preorderOption (v : Node → Bool) : Option Expr → List Node
  | none => []
  | some e => preorder v e

def preorderList (v : Node → Bool) : List Expr → List Node
  | [] => []
  | e :: es => preorder v e ++ preorderList v es

end

end Expr

namespace Node

/-- The nodes of a tree that a visitor meets. -/
def preorder (v : Node → Bool) : Node → List Node
  | program p => .program p :: (if v (.program p) then Expr.preorderList v p.items else [])
  | expr e => e.preorder v

end Node

end SmallMl
