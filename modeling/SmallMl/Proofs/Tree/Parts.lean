import SmallMl.Tree.Preorder

/-!
# The parts of a node

A walk meets a node and then its parts, each with all that is in it (`Expr.preorder_eq`), so the
parts in the order of the walk are `Node.children`.  Besides them a node has marks: the places of
bound names, of parameters and of the words `if` and `else`.

A property of every node of a tree is a property of the node and of every node of its parts
(`Expr.everywhere_iff`).
-/

namespace SmallMl

/-- Lists on which `f` has the same values are the same under `g` as well, if `f` determines `g` on
their members. -/
theorem map_eq_of_map_eq {α β γ : Type} {f : α → β} {g : α → γ} : ∀ {l m : List α},
    (∀ a ∈ l, ∀ b ∈ m, f a = f b → g a = g b) → l.map f = m.map f → l.map g = m.map g
  | [], [], _, _ => rfl
  | a :: l, b :: m, hf, h => by
    obtain ⟨hab, hlm⟩ := List.cons.inj h
    rw [List.map_cons, List.map_cons, hf a (by simp) b (by simp) hab,
      map_eq_of_map_eq (fun a ha b hb => hf a (by simp [ha]) b (by simp [hb])) hlm]

theorem eq_of_map_eq {α β : Type} {f : α → β} {l m : List α}
    (hf : ∀ a ∈ l, ∀ b ∈ m, f a = f b → a = b) (h : l.map f = m.map f) : l = m := by
  simpa using map_eq_of_map_eq (g := id) hf h

def Node.any (_ : Node) : Bool := true

namespace Expr

def children : Expr → List Expr
  | missing | bool _ _ | int _ _ | float _ _ | unit _ | var _ _ => []
  | unary _ _ x => [x]
  | binary _ _ x y => [x, y]
  | cond _ c y n _ _ => c :: y :: n.toList
  | bind _ _ x n => x :: n.toList
  | bindRec _ _ _ x n => x :: n.toList
  | get _ a i => [a, i]
  | put _ a i v => [a, i, v]
  | call _ f as => f :: as

/-- The places of bound names and words that the expression records. -/
def marks : Expr → List Range
  | cond _ _ _ _ i e => i :: e.toList
  | bind _ b _ _ => [b.range]
  | bindRec _ f ps _ _ => f.range :: ps.map Binder.range
  | _ => []

@[simp] theorem children_withRange (r : Range) (e : Expr) :
    (e.withRange r).children = e.children := by
  cases e <;> rfl

@[simp] theorem marks_withRange (r : Range) (e : Expr) : (e.withRange r).marks = e.marks := by
  cases e <;> rfl

/-- **Induction over the parts of a node.** -/
@[elab_as_elim]
theorem induct_children {motive : Expr → Prop}
    (h : ∀ e, (∀ c ∈ e.children, motive c) → motive e) (e : Expr) : motive e := by
  induction e with
  | missing | bool | int | float | unit | var => exact h _ nofun
  | unary r op x hx => exact h _ (by simp [children, hx])
  | binary r op x y hx hy => exact h _ (by simp [children, hx, hy])
  | cond r c y n i e hc hy hn => exact h _ (by simpa [children, hc, hy] using hn)
  | bind r b x n hx hn => exact h _ (by simpa [children, hx] using hn)
  | bindRec r f ps x n hx hn => exact h _ (by simpa [children, hx] using hn)
  | get r a i ha hi => exact h _ (by simp [children, ha, hi])
  | put r a i v ha hi hv => exact h _ (by simp [children, ha, hi, hv])
  | call r f as hf has => exact h _ (by simpa [children, hf] using has)

theorem preorderList_eq (v : Node → Bool) (es : List Expr) :
    preorderList v es = es.flatMap (preorder v) := by
  induction es with
  | nil => rfl
  | cons e es ih => rw [preorderList, List.flatMap_cons, ih]

theorem preorderOption_eq (v : Node → Bool) (o : Option Expr) :
    preorderOption v o = o.toList.flatMap (preorder v) := by
  cases o with
  | none => rfl
  | some e => simp [preorderOption]

/-- A walk meets a node, and then its parts if the visitor accepts the node. -/
theorem preorder_of_visitor (v : Node → Bool) {e : Expr} (h : e.isMissing = false) :
    e.preorder v = .expr e :: if v (.expr e) then e.children.flatMap (preorder v) else [] := by
  cases e with
  | missing => cases h
  | _ => simp [preorder, children, preorderList_eq, preorderOption_eq]

/-- **A walk meets a node, and then its parts in their order.** -/
theorem preorder_eq {e : Expr} (h : e.isMissing = false) :
    e.preorder Node.any = .expr e :: e.children.flatMap (preorder Node.any) := by
  rw [preorder_of_visitor _ h]
  rfl

def Everywhere (P : Node → Prop) (e : Expr) : Prop := ∀ n ∈ e.preorder Node.any, P n

theorem everywhere_iff {P : Node → Prop} {e : Expr} (h : e.isMissing = false) :
    e.Everywhere P ↔ P (.expr e) ∧ ∀ c ∈ e.children, c.Everywhere P := by
  constructor
  · intro he
    rw [Everywhere, preorder_eq h] at he
    refine ⟨he _ (by simp), ?_⟩
    intro c hc n hn
    exact he n (List.mem_cons_of_mem _ (List.mem_flatMap.2 ⟨c, hc, hn⟩))
  · rintro ⟨hp, hc⟩ n hn
    rw [preorder_eq h] at hn
    rcases List.mem_cons.1 hn with rfl | hn
    · exact hp
    · obtain ⟨c, hcm, hcn⟩ := List.mem_flatMap.1 hn
      exact hc c hcm n hcn

end Expr

namespace Node

def children : Node → List Expr
  | program p => p.items
  | expr e => e.children

def marks : Node → List Range
  | program _ => []
  | expr e => e.marks

def isEmptyProgram : Node → Bool
  | program p => p.items.isEmpty
  | expr _ => false

theorem preorder_program (p : Program) :
    (program p).preorder any = program p :: p.items.flatMap (Expr.preorder any) := by
  rw [preorder, Expr.preorderList_eq]
  rfl

end Node

end SmallMl
