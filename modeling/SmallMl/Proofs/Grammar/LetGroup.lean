import SmallMl.Proofs.Grammar.RoundTrip

/-!
# A group in front of a semicolon

In `let x = v in (e₁); e₂` the parentheses are gone when the reader decides whether the semicolon
goes on with the sequence behind `in`; it looks at the tree of `e₁` (`Expr.endsSequence`).

* If `e₁` is no `let` without `in`, the sequence goes on, and `x` may be used in `e₂`.
* If `e₁` is one, the semicolon ends the sequence as if there were no parentheses.  The program has
  two items, and `e₂` is outside the scope of `x`.

`Program.let_group_items` says so for all binders, for all groups and for all bodies that keep their
own bindings in parentheses.
-/

namespace SmallMl

theorem Expr.endsSequence_withRange (r : Range) (e : Expr) :
    (e.withRange r).endsSequence = e.endsSequence := by
  cases e with
  | bind _ _ _ n | bindRec _ _ _ _ n => cases n <;> rfl
  | _ => rfl

namespace Grammar

section

variable {b : Clause} {o c m : Token} {us es : List Token} {x y : Expr}

/-- The state behind the group. -/
theorem run_group (b : Clause) (hx : Bracketed us x) (ho : o.kind = .lparen) (hc : c.kind = .rparen)
    (l : Location) : State.run ⟨[], [], .start, l⟩ (b.tokens ++ (o :: (us ++ [c])))
      = .ok ⟨[], [b.nextFrame], .atom (x.withRange ⟨o.range.start, c.range.stop⟩),
          c.range.stop⟩ := by
  obtain ⟨l', hb⟩ := @Clause.run b [] [] l
  rw [State.run_append hb]
  exact hx.run_operand ho hc l'

theorem step_group (hm : m.kind = .semi) (stack : List Frame) (l : Location) :
    State.step ⟨[], stack, .atom x, l⟩ m = settle [] l m false x stack :=
  step_atom (by simp [hm]) (by simp [Token.leaf?, hm]) (by simp [hm])

theorem run_group_goesOn (hx : Bracketed us x) (hn : x.endsSequence = false) (ho : o.kind = .lparen)
    (hc : c.kind = .rparen) (hm : m.kind = .semi) (he : Expression es y) (l : Location) :
    ∃ s, State.run ⟨[], [], .start, l⟩ (b.tokens ++ (o :: (us ++ [c])) ++ m :: es) = .ok s ∧
      ∀ t, t.isEof = true → s.step t = .ok ⟨[b.tree (endOf es) (some (followed
        (x.withRange ⟨o.range.start, c.range.stop⟩) m.range y))], [], .top, endOf es⟩ := by
  obtain ⟨t, ts, rfl, _, ht, hte⟩ := he.first
  have hgroup := @run_group o c us x b hx ho hc l
  generalize hx' : x.withRange ⟨o.range.start, c.range.stop⟩ = x' at hgroup ⊢
  have hn' : x'.endsSequence = false := by rw [← hx', Expr.endsSequence_withRange, hn]
  have hsemi : State.step ⟨[], [b.nextFrame], .atom x', c.range.stop⟩ m
      = .ok (.use [] [b.nextFrame] m (.semi x' m.range)) := by
    rw [step_group hm]
    exact settle_next_goesOn b.head hm hn'
  obtain ⟨s, hr, hs⟩ := @Expression.run_end _ _ he [] [.sequel x' m.range, b.nextFrame] rfl
    m.range.stop
  refine ⟨s, ?_, fun e hee => ?_⟩
  · rw [State.run_append hgroup, State.run_cons hsemi]
    exact (run_semi m.range.stop ht hte).trans hr
  · have hk := kind_of_isEof hee
    rw [hs e hee, settle_cons, binding?_eof hk, goesOn_eof hk, taken?_eof hk]
    exact settle_nextFrames_eof hk [b] true _

/-- Behind a `let` without `in` the top level is reached, parentheses or not. -/
theorem run_group_ends (hx : Bracketed us x) (hn : x.endsSequence = true) (ho : o.kind = .lparen)
    (hc : c.kind = .rparen) (hm : m.kind = .semi) (he : Expression es y) (l : Location) :
    ∃ s, State.run ⟨[], [], .start, l⟩ (b.tokens ++ (o :: (us ++ [c])) ++ m :: es) = .ok s ∧
      ∀ t, t.isEof = true → s.step t = .ok ⟨[y, b.tree c.range.stop
        (some (x.withRange ⟨o.range.start, c.range.stop⟩))], [], .top, endOf es⟩ := by
  obtain ⟨t, ts, rfl, ht, _, hte⟩ := he.first
  have hgroup := @run_group o c us x b hx ho hc l
  generalize hx' : x.withRange ⟨o.range.start, c.range.stop⟩ = x' at hgroup ⊢
  have hn' : x'.endsSequence = true := by rw [← hx', Expr.endsSequence_withRange, hn]
  have hsemi : State.step ⟨[], [b.nextFrame], .atom x', c.range.stop⟩ m
      = .ok (.use [b.tree c.range.stop (some x')] [] m .top) := by
    rw [step_group hm]
    exact (settle_next_ends b.head hm hn').trans (settle_chain_one hm)
  obtain ⟨s, hr, hs⟩ := @Expression.run_end _ _ he [b.tree c.range.stop (some x')] [] trivial
    m.range.stop
  refine ⟨s, ?_, fun e hee => ?_⟩
  · rw [State.run_append hgroup, State.run_cons hsemi]
    exact (run_top m.range.stop ht hte).trans hr
  · rw [hs e hee]
    exact settle_nextFrames_eof (kind_of_isEof hee) [] false y

end

end Grammar

namespace Program

open Grammar

/-- **A group in front of a semicolon.**  `let … in (e₁); e₂` is a single item, with the sequence
`e₁; e₂` behind `in`, as long as `e₁` is no `let` without `in`.  If it is one, the program has two
items: the binding ends with the group, and `e₂` is an item of its own. -/
theorem let_group_items {settings : Settings} {text : List Char} {b : Clause} {o c m : Token}
    {us es : List Token} {x y : Expr} (ho : o.kind = .lparen) (hx : Bracketed us x)
    (hc : c.kind = .rparen) (hm : m.kind = .semi) (he : Expression es y)
    (ht : (Stream.ofText settings text).Gives (b.tokens ++ (o :: (us ++ [c])) ++ m :: es)) :
    ∃ p, (parse settings text).result = .ok p ∧
      (x.endsSequence = false → p.items = [b.tree (endOf es) (some (followed
        (x.withRange ⟨o.range.start, c.range.stop⟩) m.range y))]) ∧
      (x.endsSequence = true → p.items = [b.tree c.range.stop
        (some (x.withRange ⟨o.range.start, c.range.stop⟩)), y]) := by
  obtain ⟨w, ws, hw, hk⟩ := first_of_chain [b] (by simp) (o :: (us ++ [c]) ++ m :: es)
  rw [List.flatMap_singleton, ← List.append_assoc] at hw
  have hinit : State.initial.run (b.tokens ++ (o :: (us ++ [c])) ++ m :: es)
      = State.run ⟨[], [], .start, default⟩ (b.tokens ++ (o :: (us ++ [c])) ++ m :: es) := by
    rw [hw]
    exact run_top default (by simp [hk]) (by simp [hk])
  cases hn : x.endsSequence with
  | false =>
    obtain ⟨s, hr, hs⟩ := @run_group_goesOn b o c m us es x y hx hn ho hc hm he default
    obtain ⟨e, hp⟩ := result_parse_of_gives ht (hinit.trans hr) hs
    refine ⟨_, hp, fun _ => ?_, fun h => absurd h (by simp)⟩
    rw [items_program]
    rfl
  | true =>
    obtain ⟨s, hr, hs⟩ := @run_group_ends b o c m us es x y hx hn ho hc hm he default
    obtain ⟨e, hp⟩ := result_parse_of_gives ht (hinit.trans hr) hs
    refine ⟨_, hp, fun h => absurd h (by simp), fun _ => ?_⟩
    rw [items_program]
    rfl

/-- The variable behind the group is an item of its own, out of reach of the first binding. -/
theorem let_group_of_let : ∃ p,
    (parse {} "let x = 1 in (let y = 2); x".toList).result = .ok p ∧ p.items.length = 2 := by
  have hx : Expression (shortLet 14 'y' '2' 2).tokens
      ((shortLet 14 'y' '2' 2).tree ⟨1, 24, 23⟩ none) := by
    refine ⟨⟨[], [.letBody ⟨1, 15, 14⟩ ⟨"y", none, (tokenAt .ident 18 ['y']).range⟩],
      .atom (.int (tokenAt (.int 2) 22 ['2']).range 2), ⟨1, 24, 23⟩⟩, rfl, rfl, fun t ht => ?_⟩
    have hk := kind_of_isEof ht
    rw [step_atom (by simp [hk]) (by simp [Token.leaf?, hk]) (by simp [hk])]
    exact settle_eof_closed hk rfl
  have he : Expression [tokenAt .ident 26 ['x']] (.var (tokenAt .ident 26 ['x']).range "x") :=
    expression_leaf rfl
  have ht : (Stream.ofText {} "let x = 1 in (let y = 2); x".toList).Gives
      ((⟨shortLet 0 'x' '1' 1, tokenAt .inWord 10 ['i', 'n'], rfl⟩ : Clause).tokens ++
        (tokenAt .lparen 13 ['('] :: ((shortLet 14 'y' '2' 2).tokens ++
          [tokenAt .rparen 23 [')']])) ++ tokenAt .semi 24 [';'] :: [tokenAt .ident 26 ['x']]) :=
    Stream.gives_of_within (n := 20) rfl
  obtain ⟨p, hp, _, hi⟩ := let_group_items rfl hx.bracketed rfl rfl he ht
  exact ⟨p, hp, by rw [hi rfl]; rfl⟩

end Program

end SmallMl
