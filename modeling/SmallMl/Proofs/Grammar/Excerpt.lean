import SmallMl.Proofs.Grammar.Trace

/-!
# The text of a node

The range of a node cuts a piece out of the text.  Between parentheses this piece is read as the
node again, whatever stood around it: the tokens of the piece are those that the node was read from
(`Stream.Emits.lexes_cut`), and between parentheses they are the node (`Program.sound_parse`).

`Program.range_reads_back` is the statement.  It leaves out the comparisons that `<>`, `<` and `>`
negate, since their range is that of the negation.
-/

namespace SmallMl

open Grammar

namespace Program

/-- What has been cut out of the tokens is cut out of the text. -/
theorem parse_cut {settings : Settings} {text : List Char} {ts : List Token} {src : Stream}
    {x : Expr} (hem : (Stream.ofText settings text).Emits ts src) (hx : Cut ts x)
    (settings' : Settings) :
    ∃ q y, (parse settings' ('(' :: (x.range.cut text ++ [')']))).result = .ok q ∧
      q.items = [y] ∧ y.bare = x.bare := by
  obtain ⟨us, hne, ⟨pre, post, rfl⟩, hr, hb⟩ := hx
  -- the stream in front of the tokens of the node, and behind them
  obtain ⟨src', h, _⟩ := Stream.emits_append_inv hem
  obtain ⟨src₀, h₀, h₁⟩ := Stream.emits_append_inv h
  have hat := (h₀.placed (Stream.at_ofText settings text)).1
  obtain ⟨t, vs, rfl⟩ := List.exists_cons_of_ne_nil hne
  have hl := List.getLast?_eq_some_getLast hne
  have hcut : x.range = ⟨t.range.start, ((t :: vs).getLast hne).range.stop⟩ := by
    rw [hr, spanOf, startOf_cons, endOf, hl]
  have hlex := h₁.lexes_cut (b := ')') rfl hat hl []
  rw [← hcut] at hlex
  obtain ⟨q, y, hq, -, hy, hyx⟩ := parse_of_lexes (hb.lexes hlex)
    (hb.expression (o := Token.lparen) (c := Token.rparen) rfl rfl) settings'
  exact ⟨q, y, hq, hy, by rw [hyx, Expr.bare_withRange]⟩

/-- **The range of a node cuts out text that means the node.**  Put between parentheses, it is read
as one expression, and that is written as the node is. -/
theorem range_reads_back {settings : Settings} {text : List Char} {p : Program}
    (h : (parse settings text).result = .ok p) {e : Expr}
    (he : Node.expr e ∈ (Node.program p).preorder Node.any)
    (hn : ¬ (Node.expr e).Negated (Stream.ofText settings text).tokens) (settings' : Settings) :
    ∃ q x, (parse settings' ('(' :: (e.range.cut text ++ [')']))).result = .ok q ∧
      q.items = [x] ∧ x.sexpText = e.sexpText := by
  obtain ⟨ts, src, hem, rfl, hs⟩ := sound_parse h
  rw [Node.preorder_program] at he
  rcases List.mem_cons.1 he with he | he
  · cases he
  obtain ⟨x, hx, hxe⟩ := List.mem_flatMap.1 he
  rcases hs x hx _ hxe with ⟨_, ⟨rfl⟩, hc⟩ | hneg
  · obtain ⟨q, y, hq, hy, hb⟩ := parse_cut hem hc settings'
    refine ⟨q, y, hq, hy, ?_⟩
    rw [Expr.sexpText_eq, Expr.sexpText_eq, ← Expr.sexp_bare, hb, Expr.sexp_bare]
  · exact absurd hneg hn

/-- The negation in front of a semicolon, with a call for its left operand. -/
theorem range_reads_back_negation :
    ∃ p r x, (parse {} "(Array.create n < 1; b;)".toList).result = .ok p ∧
      Node.expr (.unary r .not x) ∈ (Node.program p).preorder Node.any ∧
      ¬ (Node.expr (.unary r .not x)).Negated
        (Stream.ofText {} "(Array.create n < 1; b;)".toList).tokens ∧
      r.cut "(Array.create n < 1; b;)".toList = "Array.create n < 1".toList ∧
      ∃ q y, (parse {} "(Array.create n < 1)".toList).result = .ok q ∧ q.items = [y] ∧
        y.sexpText = (Expr.unary r .not x).sexpText := by
  obtain ⟨p, r, x, hp, he, hr⟩ : ∃ p r x,
      (Parse.runWithin 20 .initial (.ofText {} "(Array.create n < 1; b;)".toList)).map Parse.result
        = some (.ok p) ∧
      Node.expr (.unary r .not x) ∈ (Node.program p).preorder Node.any ∧
      r.cut "(Array.create n < 1; b;)".toList = "Array.create n < 1".toList :=
    ⟨_, _, _, rfl, .tail _ (.tail _ (.head _)), rfl⟩
  have hp := result_parse_of_within hp
  have hn : ¬ (Node.expr (.unary r .not x)).Negated
      (Stream.ofText {} "(Array.create n < 1; b;)".toList).tokens := id
  obtain ⟨q, y, hq, hy, hs⟩ := range_reads_back hp he hn {}
  have hcut : (Expr.unary r .not x).range.cut "(Array.create n < 1; b;)".toList
      = "Array.create n < 1".toList := hr
  rw [hcut] at hq
  exact ⟨p, r, x, hp, he, hn, hr, q, y, hq, hy, hs⟩

end Program

end SmallMl
