import SmallMl.Proofs.Grammar.Operand
import SmallMl.Proofs.Grammar.Progress

/-!
# Operators between operands

A `Chain` is an operand and, one behind the other, operators with their right operands.  Its tree is
defined without any reading: the chain is split at the rightmost of the operators that bind least,
and that operator combines the trees of the two halves (`tree`).  So operators that bind tighter are
further inside, and operators that bind alike are grouped from the left.

The descent goes through the chain from the left instead, and what it calls for a right operand
stops as soon as an operator binds no tighter than the one in front.  `comes_operators` says what
the loop has when it stands in front of an operator: the tree of everything behind it, as long as
nothing behind it binds less than what comes next.  `Chain.reads_as_tree` is the result.
-/

namespace SmallMl.Grammar

/-! ### Chains -/

structure Term where
  ending : Ending
  tokens : List Token
  value : Expr
  isOperand : OperandOf ending tokens value

structure Link where
  sign : Token
  op : Operator
  right : Term
  isOperator : sign.kind = .operator op

structure Chain where
  first : Term
  links : List Link

namespace Link

def tokens (l : Link) : List Token := l.sign :: l.right.tokens

/-- The operator binds at least as tightly as `prec`. -/
def within (prec : Nat) (l : Link) : Bool := prec ≤ l.op.precedence

end Link

def tokensOf (ls : List Link) : List Token := ls.flatMap Link.tokens

theorem tokensOf_cons (l : Link) (ls : List Link) :
    tokensOf (l :: ls) = l.tokens ++ tokensOf ls := rfl

theorem tokensOf_append (ls ms : List Link) :
    tokensOf (ls ++ ms) = tokensOf ls ++ tokensOf ms :=
  List.flatMap_append

def lastTerm (x : Term) : List Link → Term
  | [] => x
  | l :: ls => lastTerm l.right ls

theorem lastTerm_append (x : Term) (ls ms : List Link) :
    lastTerm x (ls ++ ms) = lastTerm (lastTerm x ls) ms := by
  induction ls generalizing x with
  | nil => rfl
  | cons l ls ih => exact ih l.right

namespace Chain

def tokens (c : Chain) : List Token := c.first.tokens ++ tokensOf c.links

/-- The token goes on neither with the last operand nor with the chain. -/
def EndsAt (c : Chain) (t : Token) : Prop :=
  (lastTerm c.first c.links).ending.goesOn t = false ∧ t.kind.operator? = none

/-- The chain up to the first operator that binds less tightly than `prec`. -/
def upTo (c : Chain) (prec : Nat) : Chain := ⟨c.first, c.links.takeWhile (Link.within prec)⟩

/-- The links from that operator on. -/
def beyond (c : Chain) (prec : Nat) : List Link := c.links.dropWhile (Link.within prec)

end Chain

/-! ### The tree of a chain -/

/-- The rightmost of the links whose operators bind least, with the links on both sides of it. -/
def weakest : List Link → Option (List Link × Link × List Link)
  | [] => none
  | l :: ls =>
    match weakest ls with
    | none => some ([], l, [])
    | some (as, m, bs) =>
      if m.op.precedence ≤ l.op.precedence then some (l :: as, m, bs) else some ([], l, ls)

/-- The operator of `m` binds no tighter than those of `as` and less tightly than those of `bs`. -/
structure Weakest (as : List Link) (m : Link) (bs : List Link) : Prop where
  left : ∀ l ∈ as, m.op.precedence ≤ l.op.precedence
  right : ∀ l ∈ bs, m.op.precedence < l.op.precedence

theorem Weakest.le {as bs : List Link} {m : Link} (h : Weakest as m bs) :
    ∀ l ∈ as ++ m :: bs, m.op.precedence ≤ l.op.precedence := by
  intro l hl
  rcases List.mem_append.1 hl with hl | hl
  · exact h.left l hl
  rcases List.mem_cons.1 hl with rfl | hl
  · exact Nat.le_refl _
  · exact (h.right l hl).le

theorem eq_nil_of_weakest {ls : List Link} (h : weakest ls = none) : ls = [] := by
  cases ls with
  | nil => rfl
  | cons l ls =>
    rw [weakest] at h
    split at h
    · cases h
    · split at h <;> cases h

theorem of_weakest : ∀ {ls as bs : List Link} {m : Link}, weakest ls = some (as, m, bs) →
    ls = as ++ m :: bs ∧ Weakest as m bs := by
  intro ls
  induction ls with
  | nil =>
    intro as bs m h
    cases h
  | cons l ls ih =>
    intro as bs m h
    rw [weakest] at h
    split at h
    · next hw =>
      cases h
      rw [eq_nil_of_weakest hw]
      exact ⟨rfl, by simp, by simp⟩
    · next as' m' bs' hw =>
      obtain ⟨hls, hm⟩ := ih hw
      split at h
      · next hle =>
        cases h
        refine ⟨by rw [hls, List.cons_append], fun k hk => ?_, hm.right⟩
        rcases List.mem_cons.1 hk with rfl | hk
        · exact hle
        · exact hm.left k hk
      · next hlt =>
        cases h
        refine ⟨rfl, by simp, fun k hk => ?_⟩
        exact (Nat.lt_of_not_le hlt).trans_le (hm.le k (hls ▸ hk))

theorem weakest_append {m : Link} : ∀ {as bs : List Link}, Weakest as m bs →
    weakest (as ++ m :: bs) = some (as, m, bs) := by
  intro as
  induction as with
  | nil =>
    intro bs h
    rw [List.nil_append, weakest]
    split
    · next hw => rw [eq_nil_of_weakest hw]
    · next as' m' bs' hw =>
      have hm : m' ∈ bs := by
        rw [(of_weakest hw).1]
        exact List.mem_append_right _ List.mem_cons_self
      exact if_neg (Nat.not_le.2 (h.right m' hm))
  | cons l as ih =>
    intro bs h
    rw [List.cons_append, weakest, ih ⟨fun k hk => h.left k (List.mem_cons_of_mem _ hk), h.right⟩]
    exact if_pos (h.left l List.mem_cons_self)

/-- **The tree of `x` and the links**: it is split at the weakest operator. -/
def tree (x : Expr) (ls : List Link) : Expr :=
  match _h : weakest ls with
  | none => x
  | some (as, m, bs) => m.op.combine (tree x as) (tree m.right.value bs)
termination_by ls.length
decreasing_by all_goals
  rw [(of_weakest _h).1, List.length_append, List.length_cons]
  omega

@[simp] theorem tree_nil (x : Expr) : tree x [] = x := by
  rw [tree]
  rfl

theorem tree_append {as bs : List Link} {m : Link} (h : Weakest as m bs) (x : Expr) :
    tree x (as ++ m :: bs) = m.op.combine (tree x as) (tree m.right.value bs) := by
  rw [tree]
  split
  · next hw =>
    rw [weakest_append h] at hw
    cases hw
  · next hw =>
    rw [weakest_append h] at hw
    cases hw
    rfl

def Chain.tree (c : Chain) : Expr := Grammar.tree c.first.value c.links

/-! ### Reading a chain -/

section

open Reader (Passes)
open Reading Descent

variable {r r' : Reader} {x : Term} {ls : List Link}

theorem Ending.goesOn_operator {t : Token} {op : Operator} (h : t.kind = .operator op)
    (e : Ending) : e.goesOn t = false := by
  cases e <;> simp [goesOn, Token.leaf?, h]

/-- The token behind an operand does not go on with it, if nothing goes on with the chain behind its
last operand. -/
theorem goesOn_first (hp : Passes r (tokensOf ls) r')
    (he : (lastTerm x ls).ending.goesOn r'.tok = false) : x.ending.goesOn r.tok = false := by
  cases ls with
  | nil =>
    cases hp
    exact he
  | cons l ls =>
    rw [hp.tok.1]
    exact Ending.goesOn_operator l.isOperator _

theorem binding?_sign (l : Link) (prec : Nat) :
    binding? prec l.sign = if l.within prec then some l.op else none := by
  rw [binding?, l.isOperator]
  rfl

theorem within_of_mem {q : Nat} {l : Link} (h : l ∈ ls.takeWhile (Link.within q)) :
    q ≤ l.op.precedence := by
  have hw : l.within q = true := List.mem_takeWhile_imp h
  exact of_decide_eq_true hw

theorem split_within {prec q : Nat} (hq : prec ≤ q) (ls : List Link) :
    ls.takeWhile (Link.within prec) = ls.takeWhile (Link.within q) ++
        (ls.dropWhile (Link.within q)).takeWhile (Link.within prec) ∧
      ls.dropWhile (Link.within prec)
        = (ls.dropWhile (Link.within q)).dropWhile (Link.within prec) := by
  have hw : ∀ l ∈ ls.takeWhile (Link.within q), l.within prec = true := fun l hl =>
    decide_eq_true (hq.trans (within_of_mem hl))
  constructor
  · rw [← List.takeWhile_append_of_pos hw, List.takeWhile_append_dropWhile]
  · conv_lhs => rw [← List.takeWhile_append_dropWhile (p := Link.within q) (l := ls)]
    exact List.dropWhile_append_of_pos hw

/-- The first link behind the operators that bind at least as tightly as `q` binds less. -/
theorem lt_of_head?_dropWhile {q : Nat} {m : Link}
    (h : m ∈ (ls.dropWhile (Link.within q)).head?) : m.op.precedence < q := by
  have hm := List.head?_dropWhile_not (Link.within q) ls
  rw [Option.mem_def.1 h] at hm
  exact Nat.lt_of_not_le (of_decide_eq_false hm)

/-- **The loop over the operators.**  In front of the links stands the tree of `x` and the links in
`done`, none of which binds less than the next one. -/
theorem comes_operators : ∀ {ls done : List Link} {r : Reader} (x : Expr) (y : Term) (prec : Nat),
    (∀ l ∈ done, ∀ m ∈ ls.head?, m.op.precedence ≤ l.op.precedence) → Passes r (tokensOf ls) r' →
    (lastTerm y ls).ending.goesOn r'.tok = false → r'.tok.kind.operator? = none →
    ∃ r₁, Comes (operators prec (tree x done)) r
        (.ok (tree x (done ++ ls.takeWhile (Link.within prec)))) r₁ ∧
      Passes r (tokensOf (ls.takeWhile (Link.within prec))) r₁ ∧
      Passes r₁ (tokensOf (ls.dropWhile (Link.within prec))) r' := by
  intro ls
  induction hn : ls.length using Nat.strong_induction_on generalizing ls with
  | _ n ih =>
    subst hn
    intro done r x y prec hd hp he ho
    cases ls with
    | nil =>
      cases hp
      have hb : binding? prec r'.tok = none := by
        rw [binding?, ho]
        rfl
      refine ⟨r', ?_, .refl _, .refl _⟩
      rw [List.takeWhile_nil, List.append_nil]
      exact comes_operators_of_stop hb _
    | cons l ls =>
      have hb := binding?_sign l prec
      rw [← hp.tok.1] at hb
      cases hw : l.within prec with
      | false =>
        rw [hw, if_neg Bool.false_ne_true] at hb
        refine ⟨r, ?_, ?_, ?_⟩
        · rw [List.takeWhile_cons, hw, if_neg Bool.false_ne_true, List.append_nil]
          exact comes_operators_of_stop hb _
        · rw [List.takeWhile_cons, hw]
          exact .refl _
        · rw [List.dropWhile_cons, hw]
          exact hp
      | true =>
        rw [hw, if_pos rfl] at hb
        obtain ⟨r₂, hl, h₂⟩ := hp.split
        obtain ⟨r₁, hnext, -, h₁⟩ := hl.next
        -- the right operand, with the operators that bind more tightly
        have hnil : ∀ k ∈ ([] : List Link), ∀ m ∈ ls.head?,
            m.op.precedence ≤ k.op.precedence := by simp
        obtain ⟨r₃, ho₃, h₃, h₄⟩ := ih ls.length (Nat.lt_succ_self _) rfl l.right.value l.right
          (l.op.precedence + 1) hnil h₂ he ho
        rw [tree_nil, List.nil_append] at ho₃
        have hright : Comes (mustExpr (l.op.precedence + 1)) r₁ (.ok (tree l.right.value
            (ls.takeWhile (Link.within (l.op.precedence + 1))))) r₃ :=
          comes_mustExpr (comes_expr (l.right.isOperand.comes h₁ (goesOn_first h₂ he)) ho₃)
        have hweak : Weakest done l (ls.takeWhile (Link.within (l.op.precedence + 1))) :=
          ⟨fun k hk => hd k hk l rfl, fun k hk => within_of_mem hk⟩
        have hop : Comes (operation prec (tree x done)) r (.ok (some (tree x
            (done ++ l :: ls.takeWhile (Link.within (l.op.precedence + 1)))))) r₃ := by
          refine .deeper ?_
          filter_upwards [hright] with n hright
          rw [operation, run_ahead, hb, tree_append hweak]
          dsimp only
          rw [run_bind_of_ok hnext, run_bind_of_ok hright]
          rfl
        -- the rest, the first operator of which binds no more tightly than this one
        have hd' : ∀ k ∈ done ++ l :: ls.takeWhile (Link.within (l.op.precedence + 1)),
            ∀ m ∈ (ls.dropWhile (Link.within (l.op.precedence + 1))).head?,
              m.op.precedence ≤ k.op.precedence := fun k hk m hm =>
          (Nat.le_of_lt_succ (lt_of_head?_dropWhile hm)).trans (hweak.le k hk)
        have hlt : (ls.dropWhile (Link.within (l.op.precedence + 1))).length < ls.length + 1 :=
          Nat.lt_succ_of_le (List.dropWhile_suffix _).length_le
        have he' : (lastTerm (lastTerm l.right (ls.takeWhile (Link.within (l.op.precedence + 1))))
            (ls.dropWhile (Link.within (l.op.precedence + 1)))).ending.goesOn r'.tok = false := by
          rw [← lastTerm_append, List.takeWhile_append_dropWhile]
          exact he
        obtain ⟨r₄, ho₄, h₅, h₆⟩ := ih _ hlt rfl x _ prec hd' h₄ he' ho
        have hq : prec ≤ l.op.precedence + 1 := (of_decide_eq_true hw).trans (Nat.le_succ _)
        obtain ⟨htake, hdrop⟩ := split_within hq ls
        refine ⟨r₄, ?_, ?_, ?_⟩
        · rw [List.append_assoc, List.cons_append] at ho₄
          rw [List.takeWhile_cons, hw, if_pos rfl, htake]
          refine .deeper ?_
          filter_upwards [hop, ho₄] with n hop ho₄
          rw [operators, run_bind_of_ok hop]
          exact ho₄
        · rw [List.takeWhile_cons, hw, if_pos rfl, htake, tokensOf_cons, tokensOf_append]
          exact hl.append (h₃.append h₅)
        · rw [List.dropWhile_cons, hw, if_pos rfl, hdrop]
          exact h₆

/-- A chain is read as its tree, up to the first operator that binds less tightly than `prec`. -/
theorem Chain.comes_expr {c : Chain} (hp : Passes r c.tokens r') (he : c.EndsAt r'.tok)
    (prec : Nat) :
    ∃ r₁, Comes (expr prec) r (.ok (some (c.upTo prec).tree)) r₁ ∧
      Passes r (c.upTo prec).tokens r₁ ∧ Passes r₁ (tokensOf (c.beyond prec)) r' := by
  obtain ⟨r₀, h₀, h₁⟩ := hp.split
  have hnil : ∀ k ∈ ([] : List Link), ∀ m ∈ c.links.head?,
      m.op.precedence ≤ k.op.precedence := by simp
  obtain ⟨r₁, ho, h₂, h₃⟩ := comes_operators c.first.value c.first prec hnil h₁ he.1 he.2
  rw [tree_nil, List.nil_append] at ho
  have hfirst := c.first.isOperand.comes h₀ (goesOn_first h₁ he.1)
  exact ⟨r₁, Descent.comes_expr hfirst ho, h₀.append h₂, h₃⟩

theorem Chain.comes_expr_zero {c : Chain} (hp : Passes r c.tokens r') (he : c.EndsAt r'.tok) :
    Comes (expr 0) r (.ok (some c.tree)) r' := by
  obtain ⟨r₁, h, -, h₁⟩ := c.comes_expr hp he 0
  have hw : ∀ l ∈ c.links, Link.within 0 l = true := fun l _ => decide_eq_true (Nat.zero_le _)
  rw [upTo, List.takeWhile_eq_self_iff.2 hw] at h
  rw [beyond, List.dropWhile_eq_nil_iff.2 hw] at h₁
  cases h₁
  exact h

/-! ### Chains in their places -/

namespace Chain

variable {c : Chain}

theorem endsAt_of_kind {t : Token} (h : t.kind = .rparen ∨ t.kind = .eof) : c.EndsAt t := by
  constructor
  · rcases h with h | h <;> cases (lastTerm c.first c.links).ending <;>
      simp [Ending.goesOn, Token.leaf?, h]
  · rcases h with h | h <;> rw [h] <;> rfl

theorem comes_mustExpr (hp : Passes r c.tokens r')
    (h : r'.tok.kind = .rparen ∨ r'.tok.kind = .eof) : Comes (mustExpr 0) r (.ok c.tree) r' :=
  Descent.comes_mustExpr (comes_expr_zero hp (endsAt_of_kind h))

/-- **A chain in parentheses is an atom**, so it is an operand of other chains. -/
theorem atomOf (c : Chain) {o e : Token} (ho : o.kind = .lparen) (he : e.kind = .rparen) :
    AtomOf (o :: (c.tokens ++ [e])) (c.tree.withRange ⟨o.range.start, e.range.stop⟩) := by
  refine .group ho he fun r r' hp hk => ?_
  have hs : ¬ (decide (r'.tok.kind = .semi) && !c.tree.endsSequence) = true := by simp [hk]
  refine .deeper ?_
  filter_upwards [comes_mustExpr hp (.inl hk)] with n hx
  rw [seqExpr, run_bind_of_ok hx, run_ahead, if_neg hs]
  rfl

end Chain

open Program (tokenAt)

def digitAt (o : Int) (d : Char) (n : Nat) : Term :=
  ⟨.atom, [tokenAt (.int n) o [d]], .int (tokenAt (.int n) o [d]).range n, .atom (.leaf rfl)⟩

def operatorAt (o : Int) (op : Operator) (right : Term) : Link :=
  ⟨tokenAt (.operator op) o op.spelling, op, right, rfl⟩

/-- A chain in parentheses at two offsets of the first line. -/
def groupAt (o p : Int) (c : Chain) : Term :=
  ⟨.atom, _, _, .atom (c.atomOf (o := tokenAt .lparen o ['(']) (e := tokenAt .rparen p [')'])
    rfl rfl)⟩

/-- **Operators between operands are read as the tree of the chain.**  For any strength what is read
is the chain up to the first operator that binds less tightly, and the reader stops in front of that
operator.  A reader with a stack that waits for an expression of that strength comes to the same. -/
theorem Chain.reads_as_tree {c : Chain} (hp : Passes r c.tokens r') (he : c.EndsAt r'.tok) :
    Comes (expr 0) r (.ok (some c.tree)) r' ∧
      ∀ prec, ∃ r₁, Comes (expr prec) r (.ok (some (c.upTo prec).tree)) r₁ ∧
        Passes r (c.upTo prec).tokens r₁ ∧ Passes r₁ (tokensOf (c.beyond prec)) r' ∧
        ∀ items K, Selects K prec →
          r.drive items K .start = r₁.after items K false (c.upTo prec).tree := by
  refine ⟨comes_expr_zero hp he, fun prec => ?_⟩
  obtain ⟨r₁, h, h₀, h₁⟩ := c.comes_expr hp he prec
  refine ⟨r₁, h, h₀, h₁, fun items K hK => ?_⟩
  have hd : r.drive items K .start = r.drive items K .start := rfl
  exact ((follows_expr (agrees _) (Nat.le_refl _) hK hd).of_comes_ok h).1.after.symm

/-- In `1-(2+3)*4<5` the product is the right operand of the difference, and the comparison is
weaker than both, so reading with the strength of a difference stops in front of it. -/
theorem Chain.reads_as_tree_comparison : ∃ (c : Chain) (r r' r₁ : Reader) (x : Term),
    x = groupAt 2 6 ⟨digitAt 3 '2' 2, [operatorAt 4 .plus (digitAt 5 '3' 3)]⟩ ∧
    c.tree = Operator.combine .less (Operator.combine .minus (digitAt 0 '1' 1).value
      (Operator.combine .star x.value (digitAt 8 '4' 4).value)) (digitAt 10 '5' 5).value ∧
    Passes r c.tokens r' ∧ c.EndsAt r'.tok ∧ Comes (expr 0) r (.ok (some c.tree)) r' ∧
    Comes (expr 3) r (.ok (some (c.upTo 3).tree)) r₁ ∧ r₁.tok.kind = .operator .less := by
  let x := groupAt 2 6 ⟨digitAt 3 '2' 2, [operatorAt 4 .plus (digitAt 5 '3' 3)]⟩
  let c : Chain := ⟨digitAt 0 '1' 1, [operatorAt 1 .minus x, operatorAt 7 .star (digitAt 8 '4' 4),
    operatorAt 9 .less (digitAt 10 '5' 5)]⟩
  have hc : (Stream.ofText {} "1-(2+3)*4<5".toList).Gives c.tokens :=
    Stream.gives_of_within (n := 20) rfl
  obtain ⟨src', e, hem, hn, he⟩ := hc
  obtain ⟨t, r', -, hp, rfl⟩ := Reader.exists_passes hem hn (q := .before _) rfl
  have hend : c.EndsAt r'.tok := endsAt_of_kind (.inr (kind_of_isEof he))
  obtain ⟨h₀, hpre⟩ := Chain.reads_as_tree hp hend
  obtain ⟨r₁, h₁, -, hrest, -⟩ := hpre 3
  refine ⟨c, _, r', r₁, x, rfl, ?_, hp, hend, h₀, h₁, ?_⟩
  · have hless : Weakest [operatorAt 1 .minus x, operatorAt 7 .star (digitAt 8 '4' 4)]
        (operatorAt 9 .less (digitAt 10 '5' 5)) [] := ⟨by decide, by simp⟩
    have hminus : Weakest [] (operatorAt 1 .minus x) [operatorAt 7 .star (digitAt 8 '4' 4)] :=
      ⟨by simp, by decide⟩
    have hstar : Weakest [] (operatorAt 7 .star (digitAt 8 '4' 4)) [] := ⟨by simp, by simp⟩
    refine (tree_append hless _).trans ?_
    rw [tree_nil, ← List.nil_append [operatorAt 1 .minus x, _], tree_append hminus, tree_nil,
      ← List.nil_append [operatorAt 7 .star _], tree_append hstar, tree_nil, tree_nil]
    rfl
  · have hb : c.beyond 3 = [operatorAt 9 .less (digitAt 10 '5' 5)] := rfl
    rw [hb] at hrest
    rw [hrest.tok.1]
    rfl

end

end SmallMl.Grammar
