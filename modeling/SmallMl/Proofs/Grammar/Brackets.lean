import SmallMl.Proofs.Grammar.Bare

/-!
# Expressions in parentheses

An opening parenthesis makes the reader forget what it waits for: up to the closing one it sees
nothing of the frames below.  `Bracketed us x` says that between parentheses the tokens `us` are
`x`, whatever the parentheses belong to.

* `Expression.bracketed`: what is an expression on its own is one between parentheses.
* `Bracketed.expression`: with the parentheses it is an expression on its own.
* `Bracketed.lexes`, `Program.parse_of_lexes`: the same for texts.
-/

namespace SmallMl

namespace Grammar

/-- Between parentheses the tokens are the expression. -/
def Bracketed (us : List Token) (x : Expr) : Prop :=
  ∀ items stack opening slot l, ∃ s,
    State.run ⟨items, .paren opening slot :: stack, .start, l⟩ us = .ok s ∧
      ∀ c, c.kind = .rparen →
        s.step c = .ok (.use items stack c (slot.fill (x.withRange ⟨opening, c.range.stop⟩)))

theorem begin_ne {items : List Expr} {stack : List Frame} {t : Token} {s : State}
    (h : begin items stack t = .ok s) : t.kind ≠ .rparen ∧ t.kind ≠ .operator .star ∧
      t.kind ≠ .operator .starDot := by
  refine ⟨?_, ?_, ?_⟩ <;>
  · intro hk
    simp [begin, Token.leaf?, hk] at h

section

variable {items : List Expr} {stack : List Frame} {us : List Token} {x : Expr} {o c : Token}

namespace Bracketed

theorem first (h : Bracketed us x) : ∃ t ts, us = t :: ts ∧ t.kind ≠ .rparen ∧
    t.kind ≠ .operator .star ∧ t.kind ≠ .operator .starDot := by
  obtain ⟨s, hr, hc⟩ := h [] [] default .operand default
  cases us with
  | nil =>
    cases hr
    have hb : begin [] [.paren default .operand] ⟨.rparen, default, []⟩ = .ok _ :=
      hc ⟨.rparen, default, []⟩ rfl
    exact absurd rfl (begin_ne hb).1
  | cons t ts =>
    obtain ⟨s₁, h₁, _⟩ := State.run_cons_inv hr
    exact ⟨t, ts, rfl, begin_ne h₁⟩

/-- Behind an opening parenthesis, whatever it belongs to. -/
theorem run_opened (h : Bracketed us x) (hc : c.kind = .rparen) (opening : Location) (slot : Slot)
    (l : Location) : State.run ⟨items, stack, .opened opening slot, l⟩ (us ++ [c])
      = .ok (.use items stack c (slot.fill (x.withRange ⟨opening, c.range.stop⟩))) := by
  obtain ⟨t, ts, rfl, ht, -, -⟩ := h.first
  obtain ⟨s, hr, hs⟩ := h items stack opening slot l
  have ho : State.run ⟨items, stack, .opened opening slot, l⟩ (t :: ts) = .ok s := by
    rw [← hr]
    simp only [State.run, State.step, ht, if_false]
  rw [State.run_append ho]
  exact State.run_cons (hs c hc) []

theorem run_operand (h : Bracketed us x) (ho : o.kind = .lparen) (hc : c.kind = .rparen)
    (l : Location) : State.run ⟨items, stack, .start, l⟩ (o :: (us ++ [c]))
      = .ok (.use items stack c (.atom (x.withRange ⟨o.range.start, c.range.stop⟩))) := by
  have hs : State.step ⟨items, stack, .start, l⟩ o
      = .ok (.use items stack o (.opened o.range.start .operand)) := by
    simp [State.step, begin, Token.leaf?, ho]
  rw [State.run_cons hs]
  exact h.run_opened hc _ _ _

theorem run_argument (h : Bracketed us x) (ho : o.kind = .lparen) (hc : c.kind = .rparen)
    (fn : Expr) (args : List Expr) (l : Location) :
    State.run ⟨items, stack, .call fn args, l⟩ (o :: (us ++ [c]))
      = .ok (.use items stack c
        (.call fn (x.withRange ⟨o.range.start, c.range.stop⟩ :: args))) := by
  have hs : State.step ⟨items, stack, .call fn args, l⟩ o
      = .ok (.use items stack o (.opened o.range.start (.argument fn args))) := by
    simp [State.step, State.stepCall, State.goOn, Token.leaf?, ho]
  rw [State.run_cons hs]
  exact h.run_opened hc _ _ _

/-- **Parentheses make an expression.** -/
theorem expression (h : Bracketed us x) (ho : o.kind = .lparen) (hc : c.kind = .rparen) :
    Expression (o :: (us ++ [c])) (x.withRange ⟨o.range.start, c.range.stop⟩) := by
  refine ⟨_, h.run_operand ho hc default, rfl, fun e he => ?_⟩
  have hk := kind_of_isEof he
  simp [State.step, State.use, State.stepCall, State.complete, State.callOf, Token.leaf?, hk,
    settle_nil, binding?_eof hk, top]

end Bracketed

/-! ### The closing parenthesis

It completes what the end completes, except that a parenthesis takes it. -/

theorem binding?_rparen (hc : c.kind = .rparen) (n : Nat) : binding? n c = none :=
  binding?_of_kind hc rfl n

theorem goesOn_rparen (hc : c.kind = .rparen) (f : Frame) (whole : Bool) (y : Expr) :
    f.goesOn whole y c = false := by
  simp [Frame.goesOn, hc]

theorem taken?_rparen (hc : c.kind = .rparen) {f : Frame} {y z : Expr} {last : Location}
    (h : f.closed? last y = some z) : f.taken? c y = none := by
  cases f with
  | paren | index | condition => cases h
  | consequent | letBody | recBody => simp [Frame.taken?, hc]
  | _ => rfl

theorem settle_rparen (hc : c.kind = .rparen) {f : Frame} {y z : Expr} {last : Location}
    (h : f.closed? last y = some z) (whole : Bool) :
    settle items last c whole y (f :: stack) = settle items last c f.isSequel z stack := by
  rw [settle_cons, binding?_rparen hc, goesOn_rparen hc, taken?_rparen hc h, h]
  rfl

theorem settle_paren_rparen (hc : c.kind = .rparen) (opening : Location) (slot : Slot)
    (last : Location) (whole : Bool) (y : Expr) :
    settle items last c whole y (.paren opening slot :: stack)
      = .ok (.use items stack c (slot.fill (y.withRange ⟨opening, c.range.stop⟩))) := by
  rw [settle_cons, binding?_rparen hc, goesOn_rparen hc]
  simp [Frame.taken?, hc]

theorem settle_rparen_over {e : Token} (he : e.kind = .eof) (hc : c.kind = .rparen)
    {inner fs : List Frame} {last : Location} {y : Expr} :
    ∀ {whole : Bool} {x : Expr}, settle [] last e whole x inner = .ok ⟨[y], [], .top, last⟩ →
      ∃ w, settle items last c whole x (inner ++ fs) = settle items last c w y fs := by
  induction inner with
  | nil =>
    intro whole x h
    rw [settle_nil, binding?_eof he] at h
    simp only [top, he] at h
    cases h
    exact ⟨whole, rfl⟩
  | cons f inner ih =>
    intro whole x h
    rw [settle_cons, binding?_eof he, goesOn_eof he, taken?_eof he] at h
    simp only [Bool.false_eq_true, if_false] at h
    split at h
    · next z hz =>
      rw [List.cons_append, settle_rparen hc hz]
      exact ih h
    · cases h

/-- An expression with a closing parenthesis behind it goes to the frames below it. -/
theorem Expression.run_rparen (h : Expression us x) {fs : List Frame} (hl : Loose fs)
    (l : Location) : ∃ s, State.run ⟨items, fs, .start, l⟩ us = .ok s ∧
      ∀ c, c.kind = .rparen → ∃ w, s.step c = settle items s.last c w x fs := by
  obtain ⟨s, hr, hn, hf, _, hne, he⟩ := h.spec
  refine ⟨s.over items fs, ?_, fun c hc => ?_⟩
  · rw [Expression.run_start hne]
    exact State.run_over hl (by simp [State.fresh]) hr hn
  · have hek : (Stream.endToken default).kind = .eof := rfl
    obtain ⟨whole, y, hm, hs⟩ := he (Stream.endToken default) rfl
    rw [State.step_eq (s := s.over items fs) hf]
    simp only [State.over]
    rw [focusMove_closing (.inr hc) hm]
    exact settle_rparen_over hek hc hs

/-- **What is an expression on its own is one between parentheses.** -/
theorem Expression.bracketed (h : Expression us x) : Bracketed us x := by
  intro items stack opening slot l
  have hl : Loose (.paren opening slot :: stack) := rfl
  obtain ⟨s, hr, hs⟩ := h.run_rparen hl l
  refine ⟨s, hr, fun c hc => ?_⟩
  obtain ⟨w, hw⟩ := hs c hc
  rw [hw, settle_paren_rparen hc]

end

/-- Tokens that differ in their places only are expressions that differ in places only. -/
theorem Expression.of_bare_eq {ts us : List Token} {x : Expr} (h : Expression us x)
    (hb : ts.map Token.bare = us.map Token.bare) : ∃ y, Expression ts y ∧ y.bare = x.bare := by
  obtain ⟨s, hr, hn, he⟩ := h
  obtain ⟨s', hr', hs'⟩ := State.run_of_bare_eq hb hr
  have hi : s'.items = [] := by
    have := congrArg State.items hs'
    simpa [State.bare, hn] using this
  have hf : s'.focus ≠ .top := by
    have hsf := (State.run_ne_top (by simp [State.fresh]) hr hn).1
    intro hf
    have := congrArg State.focus hs'
    simp only [State.bare, hf] at this
    revert hsf this
    cases s.focus <;> simp [Focus.bare]
  have hstep := s'.step_bare (Stream.endToken default)
  have hstep' := s.step_bare (Stream.endToken default)
  rw [hs', hstep', he _ rfl] at hstep
  cases hsp : s'.step (Stream.endToken default) with
  | error i =>
    rw [hsp] at hstep
    cases hstep
  | ok s'' =>
    obtain ⟨y, rfl, hall⟩ := State.step_eof_item hf rfl hsp
    rw [hsp, hi] at hstep
    have hy := congrArg State.items (Except.ok.inj hstep)
    refine ⟨y, ⟨s', hr', hi, fun t ht => ?_⟩, ?_⟩
    · rw [hall t (kind_of_isEof ht), hi]
    · simpa [State.bare] using hy.symm

end Grammar

/-! ### Texts -/

/-- An opening parenthesis, without its place. -/
def Token.lparen : Token := ⟨.lparen, default, ['(']⟩

def Token.rparen : Token := ⟨.rparen, default, [')']⟩

theorem Lexeme.read_lparen {r : List Char} (h : r.head? ≠ some '*') :
    Lexeme.read '(' r = ⟨['('], r, .ok .lparen, false⟩ := by
  cases r with
  | nil => rfl
  | cons c r =>
    have hc : c ≠ '*' := by simpa using h
    show Lexeme.paren (c :: r) = _
    rw [Lexeme.paren, if_neg hc]

theorem Lexeme.operatorKind_star {run : List Char} {k : Kind} (h : operatorKind run = .ok k)
    (hr : run.head? = some '*') : k = .operator .star ∨ k = .operator .starDot := by
  rcases operatorKind_cases h with ⟨-, rfl⟩ | ⟨-, rfl⟩ | ⟨op, rfl, rfl⟩
  · cases hr
  · cases hr
  · cases op <;> first | exact .inl rfl | exact .inr rfl | cases hr

theorem Lexeme.found_star {r : List Char} {k : Kind} (h : (Lexeme.read '*' r).found = .ok k) :
    k = .operator .star ∨ k = .operator .starDot := by
  have ha := splitOperator_append ('*' :: r)
  have hn : (splitOperator ('*' :: r)).1 ≠ [] := operator_text_ne_nil (c := '*') rfl r
  obtain ⟨c, w, hw⟩ := List.exists_cons_of_ne_nil hn
  rw [hw, List.cons_append] at ha
  have hh : (splitOperator ('*' :: r)).1.head? = some '*' := by
    rw [hw, (List.cons.inj ha).1]
    rfl
  exact operatorKind_star h hh

namespace Lexes

variable {cs rest : List Char} {u : Token} {us : List Token}

theorem head_ne_star (h : Lexes cs (u :: us) rest) (h₁ : u.kind ≠ .operator .star)
    (h₂ : u.kind ≠ .operator .starDot) : cs.head? ≠ some '*' := by
  intro hc
  obtain ⟨r, rfl⟩ : ∃ r, cs = '*' :: r := by
    cases cs with
    | nil => cases hc
    | cons c r => exact ⟨r, by rw [Option.some.inj hc]⟩
  obtain ⟨ts, s', he, -, ht⟩ := h (.ofText {} ('*' :: r)) rfl
  cases he with
  | refl => cases ht
  | @head _ _ t ts hn _ _ =>
    have hk : t.bare.kind = u.kind := congrArg Token.kind (List.cons.inj ht).1
    have hread : (Stream.ofText {} ('*' :: r)).read.1
        = (Stream.ofText {} ('*' :: r)).result (Lexeme.read '*' r) := rfl
    rw [Stream.result] at hread
    cases hf : (Lexeme.read '*' r).found with
    | error f =>
      rw [hf] at hread
      rw [Stream.next_of_error hread, hread] at hn
      cases hn
    | ok k =>
      rw [hf] at hread
      have hs := Lexeme.found_star hf
      have hcom : k.isComment = false := by rcases hs with rfl | rfl <;> rfl
      rw [Stream.next_of_token hread hcom, hread] at hn
      cases hn
      rcases hs with rfl | rfl
      · exact h₁ hk.symm
      · exact h₂ hk.symm

theorem lparen {r : List Char} (h : r.head? ≠ some '*') : Lexes ('(' :: r) [Token.lparen] r :=
  token rfl (Lexeme.read_lparen h) rfl rfl

theorem rparen (r : List Char) : Lexes (')' :: r) [Token.rparen] r :=
  token rfl rfl rfl rfl

/-- **A text in parentheses.** -/
theorem parens (h : Lexes (cs ++ ')' :: rest) (u :: us) (')' :: rest))
    (h₁ : u.kind ≠ .operator .star) (h₂ : u.kind ≠ .operator .starDot) :
    Lexes ('(' :: (cs ++ ')' :: rest)) (Token.lparen :: (u :: us ++ [Token.rparen])) rest :=
  (lparen (h.head_ne_star h₁ h₂)).append (h.append (rparen rest))

end Lexes

theorem Grammar.Bracketed.lexes {cs rest : List Char} {us : List Token} {x : Expr}
    (h : Bracketed us x) (hl : Lexes (cs ++ ')' :: rest) (us.map Token.bare) (')' :: rest)) :
    Lexes ('(' :: (cs ++ ')' :: rest)) ((Token.lparen :: (us ++ [Token.rparen])).map Token.bare)
      rest := by
  obtain ⟨t, ts, rfl, -, h₁, h₂⟩ := h.first
  rw [List.map_cons, List.map_append]
  exact Lexes.parens hl h₁ h₂

/-- **A text with the tokens of an expression** is read as that expression, places aside. -/
theorem Program.parse_of_lexes {text : List Char} {us : List Token} {x : Expr}
    (hl : Lexes text (us.map Token.bare) []) (h : Grammar.Expression us x) (settings : Settings) :
    ∃ p y, (parse settings text).result = .ok p ∧ (parse settings text).warnings = [] ∧
      p.items = [y] ∧ y.bare = x.bare := by
  obtain ⟨ts, src, hem, hr, ht⟩ := hl (.ofText settings text) rfl
  obtain ⟨y, hy, hyx⟩ := h.of_bare_eq ht
  have hn := Stream.next_of_body_nil (s := src) (by rw [Stream.body, hr]; rfl)
  obtain ⟨t, us, rfl, hts, _, hte⟩ := hy.first
  obtain ⟨s, hrun, _, he⟩ := hy
  have hinit : Grammar.State.initial.run (t :: us) = .ok s :=
    (Grammar.run_top default hts hte).trans hrun
  have hp := Parse.run_eq hem hinit
    (.finish (t := Stream.endToken src.here) (by rw [hn]) rfl (he _ rfl))
  refine ⟨_, y, by rw [parse, hp], ?_, by rw [Grammar.items_program]; rfl, hyx⟩
  rw [parse, hp, Parse.warnings, hn]
  exact hem.warnings_eq

end SmallMl
