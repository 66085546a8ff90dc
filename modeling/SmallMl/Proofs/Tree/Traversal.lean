import SmallMl.Proofs.Tree.Parts
import SmallMl.Tree.Outline
import Mathlib.Data.List.Lex

/-!
# The nodes of a tree in order

An address leads down a tree: each number in it chooses one of the parts of the node reached so far.
`Node.at?` is the node at an address and `Node.ancestors` are the nodes passed on the way.  In the
alphabetical order of addresses a node stands before its parts and a part before the next one.

`Node.Visits` says which addresses a visitor comes to: those that hold a node and all of whose
ancestors it accepts, in order and each once.  `Traverses` is the way a traversal goes on from a
node to its parts, and whatever goes that way shows the addresses visited (`Traverses.shows`).  Both
the walk (`Node.traverses_preorder`) and the outline (`Node.traverses_outline`) do, so they show the
same nodes (`Node.preorder_eq`, `Node.filter_outline`).
-/

namespace SmallMl

/-- The parts chosen on the way down a tree. -/
abbrev Address := List Nat

namespace Node

def isMissing : Node → Bool
  | program _ => false
  | expr e => e.isMissing

/-- The node at an address; none if the address leads out of the tree. -/
def at? (n : Node) : Address → Option Node
  | [] => if n.isMissing then none else some n
  | i :: p => n.children[i]?.bind fun c => (expr c).at? p

def ancestors (n : Node) : Address → List Node
  | [] => []
  | i :: p => n :: (n.children[i]?.elim [] fun c => (expr c).ancestors p)

/-- How much further in than the node its parts stand. -/
def step : Node → Nat
  | program _ | expr (.unary _ _ _) => 1
  | _ => 2

/-- How far in the node at an address stands. -/
def depth (n : Node) (p : Address) : Nat := (n.ancestors p).foldr (fun m d => m.step + d) 0

/-- A visitor comes to the address. -/
def Visited (n : Node) (v : Node → Bool) (p : Address) : Prop :=
  (n.at? p).isSome ∧ ∀ m ∈ n.ancestors p, v m = true

/-- The addresses that a visitor comes to, in order and each once. -/
structure Visits (n : Node) (v : Node → Bool) (ps : List Address) : Prop where
  ordered : ps.Pairwise (· < ·)
  mem_iff : ∀ p, p ∈ ps ↔ n.Visited v p

/-! ### Addresses -/

variable {n : Node} {v : Node → Bool} {i : Nat} {p : Address}

theorem children_of_isMissing (h : n.isMissing = true) : n.children = [] := by
  cases n with
  | program q => cases h
  | expr e => cases e <;> first | rfl | cases h

theorem at?_of_isMissing (h : n.isMissing = true) (p : Address) : n.at? p = none := by
  cases p with
  | nil => rw [at?, if_pos h]
  | cons i p => rw [at?, children_of_isMissing h]; rfl

theorem visited_nil : n.Visited v [] ↔ n.isMissing = false := by
  simp [Visited, at?, ancestors]

theorem visited_cons :
    n.Visited v (i :: p) ↔
      v n = true ∧ ∃ c, n.children[i]? = some c ∧ (expr c).Visited v p := by
  rw [Visited, at?, ancestors]
  cases n.children[i]? with
  | none => simp
  | some c => simp [Visited, and_left_comm]

theorem not_visited_of_isMissing (h : n.isMissing = true) : ¬ n.Visited v p := by
  rw [Visited, at?_of_isMissing h]
  simp

theorem depth_cons {c : Expr} (h : n.children[i]? = some c) :
    n.depth (i :: p) = n.step + (expr c).depth p := by
  simp [depth, ancestors, h]

/-- **The addresses that a visitor comes to are determined.** -/
theorem Visits.unique {ps qs : List Address} (hp : n.Visits v ps) (hq : n.Visits v qs) :
    ps = qs := by
  have hperm : ps.Perm qs :=
    (List.perm_ext_iff_of_nodup (hp.ordered.imp ne_of_lt) (hq.ordered.imp ne_of_lt)).2
      fun p => (hp.mem_iff p).trans (hq.mem_iff p).symm
  exact hperm.eq_of_pairwise (fun _ _ _ _ h h' => absurd h' (lt_asymm h)) hp.ordered hq.ordered

end Node

/-! ### Going down a tree -/

/-- `w d n` shows what a visitor comes to in a tree that stands `d` steps in: nothing for a missing
expression, else the node itself and, if it is accepted, what is below each of its parts. -/
structure Traverses {α : Type} (v : Node → Bool) (mk : Nat → Node → α) (w : Nat → Node → List α) :
    Prop where
  missing : ∀ d n, n.isMissing = true → w d n = []
  node : ∀ d n, n.isMissing = false →
    w d n = mk d n :: if v n then n.children.flatMap fun c => w (d + n.step) (.expr c) else []

namespace Traverses

open Node

variable {α : Type} {v : Node → Bool} {mk : Nat → Node → α} {w : Nat → Node → List α}

/-- What a traversal shows at the addresses `ps` of a tree that stands `d` steps in. -/
def shown (mk : Nat → Node → α) (d : Nat) (n : Node) (p : Address) : Option α :=
  (n.at? p).map (mk (d + n.depth p))

/-- The traversal shows the tree that stands `d` steps in, at the addresses it visits. -/
def Shows (v : Node → Bool) (mk : Nat → Node → α) (d : Nat) (n : Node) (l : List α) : Prop :=
  ∃ ps, n.Visits v ps ∧ l = ps.filterMap (shown mk d n)

/-- What the traversal shows in the parts `cs`, one after the other. -/
def ShowsParts (v : Node → Bool) (mk : Nat → Node → α) (d : Nat) (cs : List Expr) (l : List α) :
    Prop :=
  ∃ ps : List Address, ps.Pairwise (· < ·) ∧
    (∀ p, p ∈ ps ↔ ∃ i q c, p = i :: q ∧ cs[i]? = some c ∧ (Node.expr c).Visited v q) ∧
    l = ps.filterMap fun p =>
      p.head?.bind fun i => cs[i]?.bind fun c => shown mk d (.expr c) p.tail

theorem showsParts_nil (d : Nat) : ShowsParts v mk d [] [] :=
  ⟨[], .nil, by simp, rfl⟩

/-- The addresses in the parts behind the first are numbered one further. -/
def behind (ps : List Address) : List Address := ps.map (List.modifyHead (· + 1))

theorem pairwise_behind {ps : List Address} (hne : ∀ p ∈ ps, p ≠ [])
    (h : ps.Pairwise (· < ·)) : (behind ps).Pairwise (· < ·) := by
  refine List.pairwise_map.2 (h.imp_of_mem ?_)
  intro p q hp hq hpq
  obtain ⟨i, p, rfl⟩ := List.exists_cons_of_ne_nil (hne p hp)
  obtain ⟨j, q, rfl⟩ := List.exists_cons_of_ne_nil (hne q hq)
  simpa [List.cons_lt_cons_iff] using hpq

theorem ShowsParts.cons {d : Nat} {c : Expr} {cs : List Expr} {l m : List α}
    (hc : Shows v mk d (.expr c) l) (hcs : ShowsParts v mk d cs m) :
    ShowsParts v mk d (c :: cs) (l ++ m) := by
  obtain ⟨ps, hps, rfl⟩ := hc
  obtain ⟨qs, hlt, hmem, rfl⟩ := hcs
  have hne : ∀ q ∈ qs, q ≠ [] := by
    intro q hq
    obtain ⟨i, r, _, rfl, _⟩ := (hmem q).1 hq
    exact List.cons_ne_nil i r
  refine ⟨ps.map (0 :: ·) ++ behind qs, ?ordered, ?mem, ?shown⟩
  case ordered =>
    refine List.pairwise_append.2 ⟨?_, pairwise_behind hne hlt, ?_⟩
    · exact List.pairwise_map.2 (hps.ordered.imp fun h => List.cons_lt_cons_iff.2 (.inr ⟨rfl, h⟩))
    · intro p hp q hq
      obtain ⟨p, _, rfl⟩ := List.mem_map.1 hp
      obtain ⟨r, hr, rfl⟩ := List.mem_map.1 hq
      obtain ⟨j, r, rfl⟩ := List.exists_cons_of_ne_nil (hne r hr)
      exact List.cons_lt_cons_iff.2 (.inl j.succ_pos)
  case mem =>
    intro p
    rw [List.mem_append]
    constructor
    · rintro (hp | hp)
      · obtain ⟨q, hq, rfl⟩ := List.mem_map.1 hp
        exact ⟨0, q, c, rfl, rfl, (hps.mem_iff q).1 hq⟩
      · obtain ⟨q, hq, rfl⟩ := List.mem_map.1 hp
        obtain ⟨i, r, b, rfl, hb, hv⟩ := (hmem q).1 hq
        exact ⟨i + 1, r, b, rfl, hb, hv⟩
    · rintro ⟨i, q, b, rfl, hb, hv⟩
      cases i with
      | zero =>
        cases hb
        exact .inl (List.mem_map.2 ⟨q, (hps.mem_iff q).2 hv, rfl⟩)
      | succ i => exact .inr (List.mem_map.2 ⟨i :: q, (hmem _).2 ⟨i, q, b, rfl, hb, hv⟩, rfl⟩)
  case shown =>
    rw [List.filterMap_append, behind, List.filterMap_map, List.filterMap_map]
    congr 1
    refine List.filterMap_congr fun q hq => ?_
    obtain ⟨i, q, rfl⟩ := List.exists_cons_of_ne_nil (hne q hq)
    rfl

theorem showsParts {d : Nat} {cs : List Expr} {l : Expr → List α}
    (h : ∀ c ∈ cs, Shows v mk d (.expr c) (l c)) : ShowsParts v mk d cs (cs.flatMap l) := by
  induction cs with
  | nil => exact showsParts_nil d
  | cons c cs ih =>
    rw [List.flatMap_cons]
    exact .cons (h c (by simp)) (ih fun b hb => h b (by simp [hb]))

theorem Shows.of_parts {d : Nat} {n : Node} {l : List α} (hm : n.isMissing = false)
    (hv : v n = true) (h : ShowsParts v mk (d + n.step) n.children l) :
    Shows v mk d n (mk d n :: l) := by
  obtain ⟨ps, hlt, hmem, rfl⟩ := h
  refine ⟨[] :: ps, ⟨?ordered, ?mem⟩, ?shown⟩
  case ordered =>
    refine List.pairwise_cons.2 ⟨?_, hlt⟩
    intro p hp
    obtain ⟨i, q, _, rfl, _⟩ := (hmem p).1 hp
    exact List.nil_lt_cons i q
  case mem =>
    intro p
    cases p with
    | nil => simp [visited_nil, hm]
    | cons i p => simp [visited_cons, hv, hmem]
  case shown =>
    have hroot : shown mk d n [] = some (mk d n) := by simp [shown, at?, hm, depth, ancestors]
    rw [List.filterMap_cons, hroot]
    refine congrArg _ (List.filterMap_congr fun p hp => ?_)
    obtain ⟨i, q, c, rfl, hc, _⟩ := (hmem p).1 hp
    simp [shown, at?, hc, depth_cons hc, Nat.add_assoc]

theorem shows_of_rejected {d : Nat} {n : Node} (hm : n.isMissing = false) (hv : v n = false) :
    Shows v mk d n [mk d n] := by
  refine ⟨[[]], ⟨by simp, ?_⟩, by simp [shown, at?, hm, depth, ancestors]⟩
  intro p
  cases p with
  | nil => simp [visited_nil, hm]
  | cons i p => simp [visited_cons, hv]

theorem shows_of_missing {d : Nat} {n : Node} (hm : n.isMissing = true) : Shows v mk d n [] :=
  ⟨[], ⟨.nil, fun _ => by simp [not_visited_of_isMissing hm]⟩, rfl⟩

theorem shows_of_children (h : Traverses v mk w) {n : Node}
    (hp : ∀ c ∈ n.children, ∀ d, Shows v mk d (.expr c) (w d (.expr c))) (d : Nat) :
    Shows v mk d n (w d n) := by
  cases hm : n.isMissing with
  | true =>
    rw [h.missing d n hm]
    exact shows_of_missing hm
  | false =>
    rw [h.node d n hm]
    cases hv : v n with
    | false => exact shows_of_rejected hm hv
    | true => exact .of_parts hm hv (showsParts fun c hc => hp c hc _)

/-- **A traversal shows every address the visitor comes to**, in order and each once. -/
theorem shows (h : Traverses v mk w) (d : Nat) (n : Node) : Shows v mk d n (w d n) := by
  have hexpr : ∀ e : Expr, ∀ d, Shows v mk d (.expr e) (w d (.expr e)) := by
    intro e
    induction e using Expr.induct_children with
    | _ e ih => exact h.shows_of_children ih
  exact h.shows_of_children (fun c _ => hexpr c) d

end Traverses

/-! ### The walk and the outline -/

namespace Line

def isNode (l : Line) : Bool :=
  match l.entry with
  | .node _ => true
  | _ => false

@[simp] theorem isNode_node (d : Nat) (m : Node) : isNode ⟨d, .node m⟩ = true := rfl

@[simp] theorem isNode_role (d : Nat) (name : String) : isNode ⟨d, .role name⟩ = false := rfl

@[simp] theorem isNode_param (d : Nat) (b : Binder) : isNode ⟨d, .param b⟩ = false := rfl

end Line

namespace Node

theorem traverses_preorder (v : Node → Bool) :
    Traverses v (fun _ m => m) fun _ n => n.preorder v where
  missing := by
    intro _ n hm
    cases n with
    | program p => cases hm
    | expr e => cases e <;> first | rfl | cases hm
  node := by
    intro _ n hm
    cases n with
    | program p => rw [preorder, Expr.preorderList_eq]; rfl
    | expr e => exact Expr.preorder_of_visitor v hm

def outlineAt (d : Nat) : Node → List Line
  | program p => ⟨d, .node (.program p)⟩ :: Expr.outlineList (d + 1) p.items
  | expr e => e.outline d

def nodeLines (d : Nat) (n : Node) : List Line := (n.outlineAt d).filter Line.isNode

theorem filter_outlineList (d : Nat) (es : List Expr) :
    (Expr.outlineList d es).filter Line.isNode = es.flatMap fun e => nodeLines d (.expr e) := by
  induction es with
  | nil => rfl
  | cons e es ih => rw [Expr.outlineList, List.filter_append, ih]; rfl

theorem filter_outlineOption (d : Nat) (role : String) (o : Option Expr) :
    (Expr.outlineOption d role o).filter Line.isNode =
      o.toList.flatMap fun e => nodeLines (d + 1) (.expr e) := by
  cases o with
  | none => rfl
  | some e => simp [Expr.outlineOption, nodeLines, outlineAt]

theorem traverses_outline : Traverses any (fun d m => ⟨d, .node m⟩) nodeLines where
  missing := by
    intro d n hm
    cases n with
    | program p => cases hm
    | expr e => cases e <;> first | rfl | cases hm
  node := by
    intro d n hm
    have hany : any n = true := rfl
    rw [if_pos hany]
    cases n with
    | program p => exact congrArg _ (filter_outlineList (d + 1) p.items)
    | expr e =>
      cases e with
      | missing => cases hm
      | _ =>
        simp [nodeLines, outlineAt, Expr.outline, children, Expr.children, step,
          List.filter_cons, filter_outlineList, filter_outlineOption]

/-- **A walk comes to the nodes that the visitor comes to.** -/
theorem preorder_eq (n : Node) (v : Node → Bool) :
    ∃ ps, n.Visits v ps ∧ n.preorder v = ps.filterMap n.at? := by
  obtain ⟨ps, hps, hl⟩ := (traverses_preorder v).shows 0 n
  refine ⟨ps, hps, hl.trans (congrArg (ps.filterMap ·) ?_)⟩
  funext p
  exact Option.map_id_apply

/-- **The outline shows the nodes that a visitor who accepts every node comes to.** -/
theorem filter_outline {n : Node} {ps : List Address} (h : n.Visits any ps) :
    n.outline.filter Line.isNode =
      ps.filterMap fun p => (n.at? p).map fun m => ⟨n.depth p, .node m⟩ := by
  obtain ⟨qs, hqs, hm⟩ := traverses_outline.shows 0 n
  obtain rfl := h.unique hqs
  have houtline : n.outline = n.outlineAt 0 := by cases n <;> rfl
  rw [houtline]
  refine hm.trans (congrArg (ps.filterMap ·) ?_)
  funext p
  rw [Traverses.shown, Nat.zero_add]

end Node

end SmallMl
