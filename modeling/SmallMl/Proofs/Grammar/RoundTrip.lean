import SmallMl.Proofs.Grammar.Brackets
import SmallMl.Proofs.Grammar.LetChain
import SmallMl.Proofs.Number.Digits
import SmallMl.Proofs.Tree.Written

/-!
# Reading a written tree

A tree that is written with parentheses around each part is read back: the text is read as one
expression, the tree itself up to places (`Program.parse_written`).

The proof goes through tokens.  A part in parentheses is read as an atom wherever it stands
(`Group.run`), so the tokens of an expression are read one construct at a time, with the constructs
around it out of sight; that is one lemma for each construct (`expression_binary` and so on).  On
the side of the text, a blank, a point or a parenthesis stands behind every word, so the tokens of
the text are put together from those of its pieces.
-/

namespace SmallMl

open Ty (inParens)

namespace Grammar

/-! ### Parts in parentheses -/

def Group (ws : List Token) (x : Expr) : Prop :=
  ∃ us y, ws = Token.lparen :: (us ++ [Token.rparen]) ∧ Bracketed us y ∧ x = y.withRange default

section

variable {items : List Expr} {stack : List Frame} {ws vs : List Token} {x y : Expr} {l : Location}
  {t : Token}

namespace Group

theorem run (h : Group ws x) (l : Location) :
    State.run ⟨items, stack, .start, l⟩ ws = .ok ⟨items, stack, .atom x, default⟩ := by
  obtain ⟨us, y, rfl, hb, rfl⟩ := h
  exact hb.run_operand rfl rfl l

theorem run_call (h : Group ws x) (fn : Expr) (args : List Expr) (l : Location) :
    State.run ⟨items, stack, .call fn args, l⟩ ws
      = .ok ⟨items, stack, .call fn (x :: args), default⟩ := by
  obtain ⟨us, y, rfl, hb, rfl⟩ := h
  exact hb.run_argument rfl rfl fn args l

theorem run_atom (h : Group ws x) (fn : Expr) (l : Location) :
    State.run ⟨items, stack, .atom fn, l⟩ ws = .ok ⟨items, stack, .call fn [x], default⟩ := by
  rw [← h.run_call fn [] l]
  obtain ⟨us, y, rfl, hb, rfl⟩ := h
  rfl

end Group

/-- Behind an atom a token that neither indexes nor applies it completes it. -/
theorem step_atom (hd : t.kind ≠ .dot) (hl : t.leaf? = none) (hp : t.kind ≠ .lparen) :
    State.step ⟨items, stack, .atom x, l⟩ t = settle items l t false x stack := by
  simp [State.step, State.stepCall, State.complete, State.callOf, hd, hl, hp]

theorem settle_eof_closed {f : Frame} (ht : t.kind = .eof) (h : f.closed? l x = some y) :
    settle [] l t false x [f] = .ok ⟨[y], [], .top, l⟩ := by
  rw [settle_cons, binding?_eof ht, goesOn_eof ht, taken?_eof ht, h]
  simp only [Bool.false_eq_true, if_false, settle_nil, binding?_eof ht, top, ht]

/-- An expression that ends with the part its construct waits for. -/
theorem expression_of_closed {f : Frame}
    (hr : State.fresh.run ws = .ok ⟨[], [f], .atom x, default⟩)
    (h : f.closed? default x = some y) : Expression ws y := by
  refine ⟨_, hr, rfl, fun e he => ?_⟩
  have hk := kind_of_isEof he
  rw [step_atom (by simp [hk]) (by simp [Token.leaf?, hk]) (by simp [hk])]
  exact settle_eof_closed hk h

end

/-! ### One construct at a time -/

section

variable {t u w o c : Token} {ws vs zs us : List Token} {x y z : Expr}

theorem expression_unit (ho : o.kind = .lparen) (hc : c.kind = .rparen) :
    Expression [o, c] (.unit ⟨o.range.start, c.range.stop⟩) := by
  refine ⟨⟨[], [], .atom (.unit ⟨o.range.start, c.range.stop⟩), c.range.stop⟩, ?_, rfl, ?_⟩
  · simp [State.run, State.step, State.fresh, begin, Token.leaf?, ho, hc, State.use, State.goOn,
      Slot.fill]
  · intro e he
    have hk := kind_of_isEof he
    rw [step_atom (by simp [hk]) (by simp [Token.leaf?, hk]) (by simp [hk]), settle_nil,
      binding?_eof hk]
    simp only [top, hk]

theorem step_prefixOp {op : UnaryOp} (ht : prefixOp? t.kind = some op) :
    State.fresh.step t = .ok ⟨[], [.operand op t.range.start], .start, t.range.stop⟩ := by
  show begin [] [] t = _
  unfold prefixOp? at ht
  split at ht
  · next hk =>
    cases ht
    simp [begin, Token.leaf?, hk, State.use]
  · next hk =>
    cases ht
    simp [begin, Token.leaf?, hk, State.use]
  · next hk =>
    cases ht
    simp [begin, Token.leaf?, hk, State.use]
  · cases ht

theorem expression_unary {op : UnaryOp} (ht : prefixOp? t.kind = some op) (h : Group ws x) :
    ∃ r, Expression (t :: ws) (.unary r op x) := by
  refine ⟨_, expression_of_closed (f := .operand op t.range.start) ?_ rfl⟩
  rw [State.run_cons (step_prefixOp ht)]
  exact h.run _

theorem expression_binary {op : Operator} (h : Group ws x) (ht : t.kind = .operator op)
    (g : Group vs y) : Expression (ws ++ t :: vs) (op.combine x y) := by
  refine expression_of_closed (f := .right x op) ?_ rfl
  have hb : binding? 0 t = some op := by
    rw [binding?, ht]
    rfl
  have hs : State.step ⟨[], [], .atom x, default⟩ t
      = .ok ⟨[], [.right x op], .start, t.range.stop⟩ := by
    rw [step_atom (by simp [ht]) (by simp [Token.leaf?, ht]) (by simp [ht]), settle_nil, hb]
    rfl
  rw [State.fresh, State.run_append (h.run default), State.run_cons hs]
  exact g.run _

theorem run_condition (ht : t.kind = .ifWord) (h : Group ws x) (hu : u.kind = .thenWord) :
    State.fresh.run (t :: (ws ++ [u]))
      = .ok ⟨[], [.consequent t.range x], .start, u.range.stop⟩ := by
  have hs : State.fresh.step t = .ok ⟨[], [.condition t.range], .start, t.range.stop⟩ := by
    simp [State.step, State.fresh, begin, Token.leaf?, ht, State.use]
  have hs' : State.step ⟨[], [.condition t.range], .atom x, default⟩ u
      = .ok (.use [] [.consequent t.range x] u .start) := by
    rw [step_atom (by simp [hu]) (by simp [Token.leaf?, hu]) (by simp [hu]), settle_cons,
      binding?_of_kind hu rfl]
    simp [Frame.goesOn, Frame.taken?, hu]
  rw [State.run_cons hs, State.run_append (h.run _)]
  exact State.run_cons hs' []

theorem expression_cond (ht : t.kind = .ifWord) (h : Group ws x) (hu : u.kind = .thenWord)
    (g : Group vs y) : ∃ r i, Expression (t :: (ws ++ [u]) ++ vs) (.cond r x y none i none) := by
  refine ⟨_, _, expression_of_closed (f := .consequent t.range x) ?_ rfl⟩
  rw [State.run_append (run_condition ht h hu)]
  exact g.run _

theorem expression_condElse (ht : t.kind = .ifWord) (h : Group ws x) (hu : u.kind = .thenWord)
    (g : Group vs y) (hw : w.kind = .elseWord) (k : Group zs z) :
    ∃ r i e, Expression (t :: (ws ++ [u]) ++ (vs ++ w :: zs))
      (.cond r x y (some z) i (some e)) := by
  refine ⟨_, _, _, expression_of_closed (f := .alternative t.range x y w.range) ?_ rfl⟩
  have hs : State.step ⟨[], [.consequent t.range x], .atom y, default⟩ w
      = .ok ⟨[], [.alternative t.range x y w.range], .start, w.range.stop⟩ := by
    rw [step_atom (by simp [hw]) (by simp [Token.leaf?, hw]) (by simp [hw]), settle_cons,
      binding?_of_kind hw rfl]
    simp [Frame.goesOn, Frame.taken?, hw, State.use]
  rw [State.run_append (run_condition ht h hu), State.run_append (g.run _), State.run_cons hs]
  exact k.run _

theorem expression_binding {hd : Head} (hh : HeadOf us hd) (h : Group ws x) :
    ∃ r, Expression (us ++ ws) (hd.tree r x none) := by
  obtain ⟨l, hr⟩ := @HeadOf.run [] [] us hd hh default
  refine ⟨_, expression_of_closed (f := hd.bodyFrame (startOf us)) ?_ (by cases hd <;> rfl)⟩
  rw [State.fresh, State.run_append hr]
  exact h.run l

theorem expression_bindingIn {hd : Head} (hh : HeadOf us hd) (h : Group ws x)
    (ht : t.kind = .inWord) (g : Group vs y) :
    ∃ r, Expression (us ++ (ws ++ t :: vs)) (hd.tree r x (some y)) := by
  obtain ⟨l, hr⟩ := @HeadOf.run [] [] us hd hh default
  refine ⟨_, expression_of_closed (f := hd.nextFrame (startOf us) x) ?_ (by cases hd <;> rfl)⟩
  have hs : State.step ⟨[], [hd.bodyFrame (startOf us)], .atom x, default⟩ t
      = .ok ⟨[], [hd.nextFrame (startOf us) x], .start, t.range.stop⟩ := by
    rw [step_atom (by simp [ht]) (by simp [Token.leaf?, ht]) (by simp [ht]), settle_body_in hd ht]
    rfl
  rw [State.fresh, State.run_append hr, State.run_append (h.run l), State.run_cons hs]
  exact g.run _

theorem run_index (h : Group ws x) (ht : t.kind = .dot) (ho : o.kind = .lparen)
    (g : Expression us y) (hc : c.kind = .rparen) :
    State.fresh.run (ws ++ t :: o :: (us ++ [c])) = .ok ⟨[], [], .indexed x y, c.range.stop⟩ := by
  have hs : State.step ⟨[], [], .atom x, default⟩ t = .ok ⟨[], [], .dot x, t.range.stop⟩ := by
    simp [State.step, State.goOn, ht, State.use]
  have hs' : State.step ⟨[], [], .dot x, t.range.stop⟩ o
      = .ok ⟨[], [.index x o.range.start], .start, o.range.stop⟩ := by
    simp [State.step, State.use, State.await, ho]
  have hl : Loose [.index x o.range.start] := rfl
  obtain ⟨s, hr, hcl⟩ := @Expression.run_rparen [] us y g _ hl o.range.stop
  obtain ⟨b, hb⟩ := hcl c hc
  have hs'' : s.step c = .ok ⟨[], [], .indexed x y, c.range.stop⟩ := by
    rw [hb, settle_cons, binding?_rparen hc, goesOn_rparen hc]
    simp [Frame.taken?, hc, State.use]
  rw [State.fresh, State.run_append (h.run default), State.run_cons hs, State.run_cons hs',
    State.run_append hr]
  exact State.run_cons hs'' []

theorem expression_get (h : Group ws x) (ht : t.kind = .dot) (ho : o.kind = .lparen)
    (g : Expression us y) (hc : c.kind = .rparen) :
    ∃ r, Expression (ws ++ t :: o :: (us ++ [c])) (.get r x y) := by
  refine ⟨⟨x.range.start, c.range.stop⟩, _, run_index h ht ho g hc, rfl, fun e he => ?_⟩
  have hk := kind_of_isEof he
  simp [State.step, State.stepIndexed, State.complete, State.since, hk, settle_nil,
    binding?_eof hk, top]

theorem expression_put (h : Group ws x) (ht : t.kind = .dot) (ho : o.kind = .lparen)
    (g : Expression us y) (hc : c.kind = .rparen) (hw : w.kind = .leftArrow) (k : Group zs z) :
    ∃ r, Expression (ws ++ t :: o :: (us ++ [c]) ++ w :: zs) (.put r x y z) := by
  refine ⟨_, expression_of_closed (f := .value x y) ?_ rfl⟩
  have hs : State.step ⟨[], [], .indexed x y, c.range.stop⟩ w
      = .ok ⟨[], [.value x y], .start, w.range.stop⟩ := by
    simp [State.step, State.stepIndexed, State.await, hw, State.use]
  rw [State.run_append (run_index h ht ho g hc), State.run_cons hs]
  exact k.run _

theorem run_arguments {gs : List (List Token × Expr)} (h : ∀ g ∈ gs, Group g.1 g.2) :
    ∀ (args : List Expr) (l : Location), ∃ l',
      State.run ⟨[], [], .call x args, l⟩ (gs.flatMap Prod.fst)
        = .ok ⟨[], [], .call x ((gs.map Prod.snd).reverse ++ args), l'⟩ := by
  induction gs with
  | nil => exact fun args l => ⟨l, rfl⟩
  | cons g gs ih =>
    intro args l
    obtain ⟨l', hr⟩ := ih (fun a ha => h a (by simp [ha])) (g.2 :: args) default
    refine ⟨l', ?_⟩
    rw [List.flatMap_cons, State.run_append ((h g (by simp)).run_call x args l), hr]
    simp

theorem expression_call {gs : List (List Token × Expr)} (hf : Group ws x)
    (h : ∀ g ∈ gs, Group g.1 g.2) (hne : gs ≠ []) :
    ∃ r, Expression (ws ++ gs.flatMap Prod.fst) (.call r x (gs.map Prod.snd)) := by
  obtain ⟨g, gs, rfl⟩ := List.exists_cons_of_ne_nil hne
  obtain ⟨l, hr⟩ := @run_arguments x gs (fun a ha => h a (by simp [ha])) [g.2] default
  refine ⟨⟨x.range.start, l⟩, ⟨[], [], .call x ((gs.map Prod.snd).reverse ++ [g.2]), l⟩, ?_, rfl,
    fun e he => ?_⟩
  · rw [State.fresh, State.run_append (hf.run default), List.flatMap_cons,
      State.run_append ((h g (by simp)).run_atom x default), hr]
  · have hk := kind_of_isEof he
    simp [State.step, State.stepCall, State.complete, State.callOf, State.since, Token.leaf?, hk,
      settle_nil, binding?_eof hk, top]

end

end Grammar

/-! ### Words -/

namespace Lexes

variable {cs ds rest : List Char} {us vs : List Token}

theorem spaced (h : Lexes cs us []) (g : Lexes ds vs rest) (hv : vs ≠ []) :
    Lexes (cs ++ ' ' :: ds) (us ++ vs) rest :=
  (h.extend (by simp; rfl)).append (g.blank rfl hv)

end Lexes

namespace Kind.SpelledAs

variable {k : Kind} {cs : List Char}

theorem lexes (h : k.SpelledAs cs) (hc : k.isComment = false) (he : k.isEof = false) :
    Lexes cs [⟨k, default, cs⟩] [] := by
  obtain ⟨c, r, rfl, hb, hr⟩ := h
  exact .token hb hr hc he

end Kind.SpelledAs

/-- The digits of a number that fits a word are a token. -/
theorem Kind.spelledAs_int {n : Nat} (h : n < Nat.pow 2 63) :
    (Kind.int n).SpelledAs (Digits.ofNat n) := by
  obtain ⟨c, r, hcr⟩ := List.exists_cons_of_ne_nil (Digits.ofNat_ne_nil n)
  have hall := Digits.isDigit_ofNat n
  have hc : Digits.isDigit c = true := hall c (by simp [hcr])
  have hread : Numeral.read (Digits.ofNat n) = (⟨Digits.ofNat n, none, none⟩, []) := by
    have ht : (Digits.ofNat n).takeWhile Digits.isDigit = Digits.ofNat n :=
      List.takeWhile_eq_self_iff.2 hall
    have hd : (Digits.ofNat n).dropWhile Digits.isDigit = [] := List.dropWhile_eq_nil_iff.2 hall
    simp only [Numeral.read, ht, hd, Numeral.readFraction, Exponent.read]
  have hk : Lexeme.numeral (Digits.ofNat n) = ⟨Digits.ofNat n, [], .ok (.int n), false⟩ := by
    have hv : Numeral.toInt? ⟨Digits.ofNat n, none, none⟩ = some n := by
      simp only [Numeral.toInt?, Digits.toNat_ofNat]
      exact if_pos h
    simp [Lexeme.numeral, hread, Numeral.text, Numeral.fractionText, Numeral.exponentText,
      Lexeme.numeralKind, Numeral.isFloat, hv]
  refine ⟨c, r, hcr, ?_, ?_⟩
  · cases hb : Lexeme.isBlank c with
    | false => rfl
    | true => rcases Lexeme.eq_of_isBlank hb with rfl | rfl | rfl | rfl <;> cases hc
  · rw [Lexeme.read, if_neg (by simp [Lexeme.not_isLetter_of_isDigit hc]), if_pos hc, ← hcr, hk]

/-- The operator that stands for the operation, with the operands as they are written. -/
def BinaryOp.operator : BinaryOp → Operator
  | add => .plus
  | sub => .minus
  | mul => .star
  | div => .slash
  | xor => .lxor
  | or => .lor
  | and => .land
  | shiftLeft => .lsl
  | shiftRight => .lsr
  | fadd => .plusDot
  | fsub => .minusDot
  | fmul => .starDot
  | fdiv => .slashDot
  | equal => .equal
  | lessEqual | unknown _ => .lessEqual

theorem BinaryOp.spelledAs_name {op : BinaryOp} (h : op ∈ BinaryOp.all) :
    op.operator.form = ⟨op, false, false⟩ ∧
      (Kind.operator op.operator).SpelledAs op.name.toList := by
  cases op <;> first | exact ⟨rfl, _, _, rfl, rfl, rfl⟩ | simp [BinaryOp.all] at h

theorem UnaryOp.spelledAs_name {op : UnaryOp} (h : op ∈ UnaryOp.all) :
    ∃ k, Kind.SpelledAs k op.name.toList ∧ Grammar.prefixOp? k = some op ∧
      k.isComment = false ∧ k.isEof = false := by
  cases op with
  | not => exact ⟨.notWord, ⟨_, _, rfl, rfl, rfl⟩, rfl, rfl, rfl⟩
  | neg => exact ⟨.operator .minus, ⟨_, _, rfl, rfl, rfl⟩, rfl, rfl, rfl⟩
  | fneg => exact ⟨.operator .minusDot, ⟨_, _, rfl, rfl, rfl⟩, rfl, rfl, rfl⟩
  | unknown n => simp [UnaryOp.all] at h

/-! ### Types, binders and heads -/

namespace Grammar

theorem Ty.chars_array {ty : Ty} (h : ty.Plain) :
    (Ty.array ty).chars = ty.chars ++ ' ' :: arrayWord := by
  cases h <;> rfl

theorem exists_typeOf {ty : Ty} (h : ty.Plain) :
    ∃ ts, TypeOf ts ty ∧ ts ≠ [] ∧ Lexes ty.chars (ts.map Token.bare) [] := by
  induction h with
  | basic b =>
    refine ⟨[⟨.ident, default, b.name⟩], .basic rfl (by cases b <;> rfl), by simp, ?_⟩
    have hs : Kind.ident.SpelledAs b.name := by cases b <;> exact ⟨_, _, rfl, rfl, rfl⟩
    exact hs.lexes rfl rfl
  | @array ty hp ih =>
    obtain ⟨ts, ht, _, hl⟩ := ih
    refine ⟨ts ++ [⟨.ident, default, arrayWord⟩], .array ht rfl rfl, by simp, ?_⟩
    have hs : Kind.ident.SpelledAs arrayWord := ⟨_, _, rfl, rfl, rfl⟩
    rw [Ty.chars_array hp, List.map_append]
    exact hl.spaced (hs.lexes rfl rfl) (by simp)

theorem colon_lexes : Lexes [':'] [⟨.colon, default, [':']⟩] [] :=
  Kind.SpelledAs.lexes (k := .colon) ⟨_, _, rfl, rfl, rfl⟩ rfl rfl

theorem equals_lexes : Lexes ['='] [⟨.operator .equal, default, ['=']⟩] [] :=
  Kind.SpelledAs.lexes (k := .operator .equal) ⟨_, _, rfl, rfl, rfl⟩ rfl rfl

theorem exists_binderOf {b : Binder} (h : b.Writable) : ∃ ts b', BinderOf ts b' ∧
    b'.bare = b.bare ∧ Lexes b.text (ts.map Token.bare) [] := by
  obtain ⟨name, declared, r⟩ := b
  obtain ⟨hn, hty⟩ := h
  have hl := hn.lexes rfl rfl
  cases declared with
  | none =>
    refine ⟨[⟨.ident, default, name.toList⟩], _, .bare rfl, ?_, hl⟩
    simp [Binder.bare, Token.name]
  | some ty =>
    obtain ⟨ts, ht, hne, hlt⟩ := exists_typeOf (hty ty rfl)
    refine ⟨_, _, .annotated (a := Token.lparen) (n := ⟨.ident, default, name.toList⟩)
      (c := ⟨.colon, default, [':']⟩) (b := Token.rparen) rfl rfl rfl ht rfl, ?_, ?_⟩
    · simp [Binder.bare, Token.name]
    · have hin := hl.spaced (colon_lexes.spaced hlt (by simpa using hne)) (by simp)
      have hp := Lexes.parens (hin.extend (m := [')']) (by simp; rfl)) (by simp) (by simp)
      simpa [Binder.text, Ty.inParens, Token.bare, Token.lparen, Token.rparen] using hp

theorem exists_letHead {b : Binder} (h : b.Writable) : ∃ us b', LetHead us b' ∧
    b'.bare = b.bare ∧ Lexes b.letText (us.map Token.bare) [] := by
  obtain ⟨ts, b', hb, hbare, hl⟩ := exists_binderOf h
  have hlet : Kind.letWord.SpelledAs ['l', 'e', 't'] := ⟨_, _, rfl, rfl, rfl⟩
  refine ⟨_, b', .intro (l := ⟨.letWord, default, ['l', 'e', 't']⟩)
    (e := ⟨.operator .equal, default, ['=']⟩) rfl hb rfl, hbare, ?_⟩
  rw [List.map_cons, List.map_append]
  exact (hlet.lexes rfl rfl).spaced (hl.spaced equals_lexes (by simp)) (by simp)

theorem exists_paramsOf {ps : List Binder} (h : ∀ p ∈ ps, p.Writable) :
    ∃ ts ps', ParamsOf ts ps' ∧ ps'.map Binder.bare = ps.map Binder.bare ∧
      ∀ m : List Char, (∀ b ∈ m.head?, Lexeme.isStop b = true) →
        Lexes (ps.flatMap (fun p => ' ' :: p.text) ++ m) (ts.map Token.bare) m := by
  induction ps using List.reverseRecOn with
  | nil => exact ⟨[], [], .nil, rfl, fun m _ => .nil m⟩
  | append_singleton ps p ih =>
    obtain ⟨ts, ps', hps, hbare, hl⟩ := ih fun q hq => h q (by simp [hq])
    obtain ⟨us, p', hp, hpb, hlp⟩ := exists_binderOf (h p (by simp))
    refine ⟨ts ++ us, ps' ++ [p'], .snoc hps hp, by simp [hbare, hpb], fun m hm => ?_⟩
    have h₁ := hl (' ' :: (p.text ++ m)) (by simp; rfl)
    have h₂ := (hlp.extend hm).blank (b := ' ') rfl (by simpa using hp.ne_nil)
    simpa using h₁.append h₂

theorem exists_resultOf {ty : Option Ty} (h : ∀ t ∈ ty, t.Plain) : ∃ us, ResultOf us ty ∧
    Lexes (Binder.resultText ty ++ [' ', '='])
      (us.map Token.bare ++ [⟨.operator .equal, default, ['=']⟩]) [] := by
  cases ty with
  | none => exact ⟨[], .none, equals_lexes.blank rfl (by simp)⟩
  | some ty =>
    obtain ⟨ts, ht, hne, hlt⟩ := exists_typeOf (h ty rfl)
    refine ⟨_, .some (c := ⟨.colon, default, [':']⟩) rfl ht, ?_⟩
    have hl := (colon_lexes.spaced (hlt.spaced equals_lexes (by simp)) (by simp)).blank
      (b := ' ') rfl (by simp)
    exact hl

theorem exists_recHead {f : Binder} {ps : List Binder} (hf : f.Writable) (hne : ps ≠ [])
    (h : ∀ p ∈ ps, p.Writable) : ∃ us f' ps', RecHead us f' ps' ∧ f'.bare = f.bare ∧
      ps'.map Binder.bare = ps.map Binder.bare ∧ Lexes (f.recText ps) (us.map Token.bare) [] := by
  obtain ⟨name, declared, r⟩ := f
  obtain ⟨hn, hty⟩ := hf
  obtain ⟨ts, ps', hps, hbare, hl⟩ := exists_paramsOf h
  obtain ⟨us, hu, hlu⟩ := exists_resultOf hty
  have hne' : ps' ≠ [] := by
    rintro rfl
    exact hne (by simpa using hbare.symm)
  refine ⟨_, _, ps', .intro (l := ⟨.letWord, default, ['l', 'e', 't']⟩)
    (r := ⟨.recWord, default, ['r', 'e', 'c']⟩) (n := ⟨.ident, default, name.toList⟩)
    (e := ⟨.operator .equal, default, ['=']⟩) rfl rfl rfl hps hne' hu rfl, ?_, hbare, ?_⟩
  · simp [Binder.bare, Token.name]
  · have hlet : Kind.letWord.SpelledAs ['l', 'e', 't'] := ⟨_, _, rfl, rfl, rfl⟩
    have hrec : Kind.recWord.SpelledAs ['r', 'e', 'c'] := ⟨_, _, rfl, rfl, rfl⟩
    -- a blank stands behind the name and behind the parameters
    have hstop : ∀ b ∈ (Binder.resultText declared ++ [' ', '=']).head?,
        Lexeme.isStop b = true := by
      cases declared <;> (simp [Binder.resultText]; rfl)
    have hstop' : ∀ b ∈ (ps.flatMap (fun p => ' ' :: p.text) ++
        (Binder.resultText declared ++ [' ', '='])).head?, Lexeme.isStop b = true := by
      cases ps with
      | nil => exact hstop
      | cons p ps =>
        simp
        rfl
    have hname := (hn.lexes rfl rfl).extend hstop'
    have hall := hname.append ((hl _ hstop).append hlu)
    have := (hlet.lexes rfl rfl).spaced ((hrec.lexes rfl rfl).spaced hall (by simp)) (by simp)
    simpa [Binder.recText, Token.bare] using this

/-! ### Trees -/

/-- The text is read as the expression, places aside. -/
def ReadAs (cs : List Char) (e : Expr) : Prop :=
  ∃ us x, Lexes cs (us.map Token.bare) [] ∧ Expression us x ∧ x.bare = e.bare

theorem ReadAs.inParens {cs : List Char} {e : Expr} (h : ReadAs cs e) :
    ∃ us x, Expression us x ∧ x.bare = e.bare ∧ ∀ m, Lexes (inParens cs ++ m)
      ((Token.lparen :: (us ++ [Token.rparen])).map Token.bare) m := by
  obtain ⟨us, x, hl, hx, hb⟩ := h
  refine ⟨us, x, hx, hb, fun m => ?_⟩
  have := hx.bracketed.lexes (hl.extend (m := ')' :: m) (by simp; rfl))
  simpa [Ty.inParens] using this

/-- The text in parentheses is the part `e` of a construct, with the tokens `ws`. -/
structure Enclosed (cs : List Char) (e : Expr) (ws : List Token) (x : Expr) : Prop where
  group : Group ws x
  bare_eq : x.bare = e.bare
  ne_nil : ws.map Token.bare ≠ []
  lexes_append : ∀ m, Lexes (Ty.inParens cs ++ m) (ws.map Token.bare) m

namespace Enclosed

theorem lexes {cs : List Char} {e x : Expr} {ws : List Token} (h : Enclosed cs e ws x) :
    Lexes (Ty.inParens cs) (ws.map Token.bare) [] := by
  have := h.lexes_append []
  rwa [List.append_nil] at this

end Enclosed

namespace ReadAs

variable {cs ds ns is : List Char} {e x y z : Expr} {r : Range}

theorem enclosed (h : ReadAs cs e) : ∃ ws x, Enclosed cs e ws x := by
  obtain ⟨us, x, hx, hb, hl⟩ := h.inParens
  exact ⟨_, _, ⟨us, x, rfl, hx.bracketed, rfl⟩, by rw [Expr.bare_withRange, hb], by simp, hl⟩

theorem parens (h : ReadAs cs e) : ReadAs (Ty.inParens cs) e := by
  obtain ⟨us, x, hx, hb, hl⟩ := h.inParens
  refine ⟨_, _, ?_, hx.bracketed.expression (o := Token.lparen) (c := Token.rparen) rfl rfl, ?_⟩
  · simpa using hl []
  · rw [Expr.bare_withRange, hb]

theorem index (h : ReadAs cs e) (hi : Expr.IndexText cs is) :
    ∃ us x, Expression us x ∧ x.bare = e.bare ∧
      ∀ m, Lexes (is ++ m) ((Token.lparen :: (us ++ [Token.rparen])).map Token.bare) m := by
  rcases hi with rfl | rfl
  · exact h.inParens
  · exact h.parens.inParens

theorem leaf {t : Token} (hl : Lexes cs [t.bare] []) (ht : t.leaf? = some x)
    (hx : x.bare = e.bare) : ReadAs cs e :=
  ⟨[t], x, hl, expression_leaf ht, hx⟩

theorem bool (r : Range) (b : Bool) :
    ReadAs (if b then ['t', 'r', 'u', 'e'] else ['f', 'a', 'l', 's', 'e']) (.bool r b) := by
  have hs : (Kind.bool b).SpelledAs
      (if b then ['t', 'r', 'u', 'e'] else ['f', 'a', 'l', 's', 'e']) := by
    cases b <;> exact ⟨_, _, rfl, rfl, rfl⟩
  exact leaf (t := ⟨.bool b, default, _⟩) (hs.lexes rfl rfl) rfl rfl

theorem int {n : Int} (h0 : 0 ≤ n) (hlt : n.toNat < Nat.pow 2 63) :
    ReadAs (Digits.intText n).toList (.int r n) := by
  obtain ⟨n, rfl⟩ := Int.eq_ofNat_of_zero_le h0
  have ht : (Digits.intText n).toList = Digits.ofNat n := by
    rw [Digits.intText, if_neg (by omega)]
    simp [Digits.text]
  have hs : (Kind.int n).SpelledAs (Digits.ofNat n) := Kind.spelledAs_int hlt
  rw [ht]
  exact leaf (t := ⟨.int n, default, _⟩) (hs.lexes rfl rfl) rfl rfl

theorem float {v : Binary64} (h : (Kind.float v).SpelledAs cs) : ReadAs cs (.float r v) :=
  leaf (t := ⟨.float v, default, _⟩) (h.lexes rfl rfl) rfl rfl

theorem unit (r : Range) : ReadAs ['(', ')'] (.unit r) := by
  refine ⟨[Token.lparen, Token.rparen], _, ?_, expression_unit rfl rfl, rfl⟩
  exact (Lexes.lparen (by simp)).append (Lexes.rparen [])

theorem var {name : String} (h : Kind.ident.SpelledAs name.toList) :
    ReadAs name.toList (.var r name) := by
  refine leaf (t := ⟨.ident, default, name.toList⟩) (h.lexes rfl rfl) rfl ?_
  simp [Expr.bare, Token.name]

theorem unary {op : UnaryOp} (hop : op ∈ UnaryOp.all) (h : ReadAs cs x) :
    ReadAs (' ' :: (op.name.toList ++ ' ' :: Ty.inParens cs)) (.unary r op x) := by
  obtain ⟨ws, x', hp⟩ := h.enclosed
  obtain ⟨k, hs, hk, hc, he⟩ := UnaryOp.spelledAs_name hop
  obtain ⟨r', hx⟩ := expression_unary (t := ⟨k, default, op.name.toList⟩) hk hp.group
  refine ⟨_, _, ?_, hx, by simp [Expr.bare, hp.bare_eq]⟩
  exact ((hs.lexes hc he).spaced hp.lexes hp.ne_nil).blank rfl (by simp)

theorem binary {op : BinaryOp} (hop : op ∈ BinaryOp.all) (h : ReadAs cs x) (g : ReadAs ds y) :
    ReadAs (Ty.inParens cs ++ ' ' :: (op.name.toList ++ ' ' :: Ty.inParens ds))
      (.binary r op x y) := by
  obtain ⟨ws, x', hp⟩ := h.enclosed
  obtain ⟨vs, y', hq⟩ := g.enclosed
  obtain ⟨hform, hs⟩ := BinaryOp.spelledAs_name hop
  refine ⟨_, _, ?_, expression_binary (t := ⟨.operator op.operator, default, op.name.toList⟩)
    hp.group rfl hq.group, ?_⟩
  · rw [List.map_append, List.map_cons]
    exact hp.lexes.spaced ((hs.lexes rfl rfl).spaced hq.lexes hq.ne_nil) (by simp)
  · simp [hp.bare_eq, hq.bare_eq, Operator.combine, hform, Expr.bare, Range.span]

theorem if_lexes : Lexes ['i', 'f'] [⟨.ifWord, default, ['i', 'f']⟩] [] :=
  Kind.SpelledAs.lexes (k := .ifWord) ⟨_, _, rfl, rfl, rfl⟩ rfl rfl

theorem then_lexes :
    Lexes ['t', 'h', 'e', 'n'] [⟨.thenWord, default, ['t', 'h', 'e', 'n']⟩] [] :=
  Kind.SpelledAs.lexes (k := .thenWord) ⟨_, _, rfl, rfl, rfl⟩ rfl rfl

theorem else_lexes :
    Lexes ['e', 'l', 's', 'e'] [⟨.elseWord, default, ['e', 'l', 's', 'e']⟩] [] :=
  Kind.SpelledAs.lexes (k := .elseWord) ⟨_, _, rfl, rfl, rfl⟩ rfl rfl

theorem in_lexes : Lexes ['i', 'n'] [⟨.inWord, default, ['i', 'n']⟩] [] :=
  Kind.SpelledAs.lexes (k := .inWord) ⟨_, _, rfl, rfl, rfl⟩ rfl rfl

theorem leftArrow_lexes : Lexes ['<', '-'] [⟨.leftArrow, default, ['<', '-']⟩] [] :=
  Kind.SpelledAs.lexes (k := .leftArrow) ⟨_, _, rfl, rfl, rfl⟩ rfl rfl

theorem cond {i : Range} {o : Option Range} (h : ReadAs cs x) (g : ReadAs ds y) :
    ReadAs (['i', 'f'] ++ ' ' :: (Ty.inParens cs ++
      ' ' :: (['t', 'h', 'e', 'n'] ++ ' ' :: Ty.inParens ds))) (.cond r x y none i o) := by
  obtain ⟨ws, x', hp⟩ := h.enclosed
  obtain ⟨vs, y', hq⟩ := g.enclosed
  obtain ⟨r', i', hc⟩ := expression_cond (t := ⟨.ifWord, default, ['i', 'f']⟩)
    (u := ⟨.thenWord, default, ['t', 'h', 'e', 'n']⟩) rfl hp.group rfl hq.group
  refine ⟨_, _, ?_, hc, by simp [Expr.bare, hp.bare_eq, hq.bare_eq]⟩
  have hl := if_lexes.spaced (hp.lexes.spaced (then_lexes.spaced hq.lexes hq.ne_nil) (by simp))
    (by simp)
  simpa [Token.bare] using hl

theorem condElse {i : Range} {o : Option Range} (h : ReadAs cs x) (g : ReadAs ds y)
    (k : ReadAs ns z) :
    ReadAs (['i', 'f'] ++ ' ' :: (Ty.inParens cs ++
      ' ' :: (['t', 'h', 'e', 'n'] ++ ' ' :: (Ty.inParens ds ++
        ' ' :: (['e', 'l', 's', 'e'] ++ ' ' :: Ty.inParens ns))))) (.cond r x y (some z) i o) := by
  obtain ⟨ws, x', hp⟩ := h.enclosed
  obtain ⟨vs, y', hq⟩ := g.enclosed
  obtain ⟨zs, z', hn⟩ := k.enclosed
  obtain ⟨r', i', e', hc⟩ := expression_condElse (t := ⟨.ifWord, default, ['i', 'f']⟩)
    (u := ⟨.thenWord, default, ['t', 'h', 'e', 'n']⟩)
    (w := ⟨.elseWord, default, ['e', 'l', 's', 'e']⟩) rfl hp.group rfl hq.group rfl hn.group
  refine ⟨_, _, ?_, hc, by simp [Expr.bare, hp.bare_eq, hq.bare_eq, hn.bare_eq]⟩
  have hl := if_lexes.spaced (hp.lexes.spaced (then_lexes.spaced (hq.lexes.spaced
    (else_lexes.spaced hn.lexes hn.ne_nil) (by simp)) (by simp)) (by simp)) (by simp)
  simpa [Token.bare] using hl

theorem binding {us : List Token} {hd : Head} {hs : List Char} (hh : HeadOf us hd)
    (hl : Lexes hs (us.map Token.bare) []) (h : ReadAs cs x)
    (he : ∀ r x', x'.bare = x.bare → (hd.tree r x' none).bare = e.bare) :
    ReadAs (hs ++ ' ' :: Ty.inParens cs) e := by
  obtain ⟨ws, x', hp⟩ := h.enclosed
  obtain ⟨r', hx⟩ := expression_binding hh hp.group
  refine ⟨_, _, ?_, hx, he r' x' hp.bare_eq⟩
  rw [List.map_append]
  exact hl.spaced hp.lexes hp.ne_nil

theorem bindingIn {us : List Token} {hd : Head} {hs : List Char} (hh : HeadOf us hd)
    (hl : Lexes hs (us.map Token.bare) []) (h : ReadAs cs x) (g : ReadAs ds y)
    (he : ∀ r x' y', x'.bare = x.bare → y'.bare = y.bare →
      (hd.tree r x' (some y')).bare = e.bare) :
    ReadAs (hs ++ ' ' :: (Ty.inParens cs ++ ' ' :: (['i', 'n'] ++ ' ' :: Ty.inParens ds))) e := by
  obtain ⟨ws, x', hp⟩ := h.enclosed
  obtain ⟨vs, y', hq⟩ := g.enclosed
  obtain ⟨r', hx⟩ := expression_bindingIn (t := ⟨.inWord, default, ['i', 'n']⟩) hh hp.group rfl
    hq.group
  refine ⟨_, _, ?_, hx, he r' x' y' hp.bare_eq hq.bare_eq⟩
  rw [List.map_append, List.map_append, List.map_cons]
  exact hl.spaced (hp.lexes.spaced (in_lexes.spaced hq.lexes hq.ne_nil) (by simp)) (by simp)

theorem get (h : ReadAs cs x) (g : ReadAs ds y) (hi : Expr.IndexText ds is) :
    ReadAs (Ty.inParens cs ++ '.' :: is) (.get r x y) := by
  obtain ⟨ws, x', hp⟩ := h.enclosed
  obtain ⟨us, y', hy, hb, hl⟩ := g.index hi
  obtain ⟨r', hx⟩ := expression_get (t := ⟨.dot, default, ['.']⟩) (o := Token.lparen)
    (c := Token.rparen) hp.group rfl rfl hy rfl
  refine ⟨_, _, ?_, hx, by simp [Expr.bare, hp.bare_eq, hb]⟩
  have hdot : Lexes ('.' :: is) [⟨.dot, default, ['.']⟩] is := .token rfl rfl rfl rfl
  have hi := hl []
  rw [List.append_nil] at hi
  rw [List.map_append]
  exact (hp.lexes_append _).append (hdot.append hi)

theorem put (h : ReadAs cs x) (g : ReadAs ds y) (hi : Expr.IndexText ds is) (k : ReadAs ns z) :
    ReadAs (Ty.inParens cs ++ '.' :: (is ++ ' ' :: (['<', '-'] ++ ' ' :: Ty.inParens ns)))
      (.put r x y z) := by
  obtain ⟨ws, x', hp⟩ := h.enclosed
  obtain ⟨us, y', hy, hb, hl⟩ := g.index hi
  obtain ⟨zs, z', hq⟩ := k.enclosed
  obtain ⟨r', hx⟩ := expression_put (t := ⟨.dot, default, ['.']⟩) (o := Token.lparen)
    (c := Token.rparen) (w := ⟨.leftArrow, default, ['<', '-']⟩) hp.group rfl rfl hy rfl rfl
    hq.group
  refine ⟨_, _, ?_, hx, by simp [Expr.bare, hp.bare_eq, hb, hq.bare_eq]⟩
  have hdot : ∀ m, Lexes ('.' :: m) [⟨.dot, default, ['.']⟩] m := fun m => .token rfl rfl rfl rfl
  have hv := (leftArrow_lexes.spaced hq.lexes hq.ne_nil).blank (b := ' ') rfl (by simp)
  have := (hp.lexes_append _).append ((hdot _).append ((hl _).append hv))
  simpa [Token.bare] using this

theorem arguments {as : List (Expr × List Char)} (h : ∀ a ∈ as, ReadAs a.2 a.1) :
    ∃ gs : List (List Token × Expr), (∀ g ∈ gs, Group g.1 g.2) ∧
      (gs.map Prod.snd).map Expr.bare = (as.map Prod.fst).map Expr.bare ∧
      Lexes (as.flatMap fun a => ' ' :: Ty.inParens a.2) ((gs.flatMap Prod.fst).map Token.bare)
        [] := by
  induction as with
  | nil => exact ⟨[], by simp, rfl, .nil []⟩
  | cons a as ih =>
    obtain ⟨gs, hg, hb, hl⟩ := ih fun b hb => h b (by simp [hb])
    obtain ⟨ws, x, hp⟩ := (h a (by simp)).enclosed
    refine ⟨(ws, x) :: gs, List.forall_mem_cons.2 ⟨hp.group, hg⟩, by simp [hp.bare_eq, hb], ?_⟩
    rw [List.flatMap_cons, List.flatMap_cons, List.map_append]
    exact ((hp.lexes_append _).blank rfl hp.ne_nil).append hl

theorem call {as : List (Expr × List Char)} (h : ReadAs cs x) (ha : ∀ a ∈ as, ReadAs a.2 a.1)
    (hne : as ≠ []) :
    ReadAs (Ty.inParens cs ++ as.flatMap fun a => ' ' :: Ty.inParens a.2)
      (.call r x (as.map Prod.fst)) := by
  obtain ⟨ws, x', hp⟩ := h.enclosed
  obtain ⟨gs, hg, hb, hl⟩ := arguments ha
  have hgs : gs ≠ [] := by
    rintro rfl
    exact hne (by simpa using hb.symm)
  obtain ⟨r', hx⟩ := expression_call hp.group hg hgs
  refine ⟨_, _, ?_, hx, ?_⟩
  · rw [List.map_append]
    exact (hp.lexes_append _).append hl
  · simp only [Expr.bare, Expr.bareList_eq, hp.bare_eq, hb]

/-- **Every text of a writable tree is read as the tree**, by induction on the text. -/
theorem of_written (h : e.Written cs) (hw : e.Writable) : ReadAs cs e := by
  induction h with
  | bool => exact bool _ _
  | int => exact int hw.spellable.1 hw.spellable.2
  | float hs => exact float hs
  | unit => exact unit _
  | var => exact var hw.spellable
  | unary _ ih => exact unary hw.spellable (ih hw.child)
  | binary _ _ ihx ihy => exact binary hw.spellable (ihx hw.child) (ihy hw.child)
  | cond _ _ ihc ihy => exact cond (ihc hw.child) (ihy hw.child)
  | condElse _ _ _ ihc ihy ihn => exact condElse (ihc hw.child) (ihy hw.child) (ihn hw.child)
  | bind _ ih =>
    obtain ⟨us, b', hh, hb, hl⟩ := exists_letHead hw.spellable
    refine binding (.plain hh) hl (ih hw.child) fun r x' hx => ?_
    simp only [Head.tree, Expr.bare, Expr.bareOption_eq, hb, hx, Option.map_none]
  | bindIn _ _ ih ihn =>
    obtain ⟨us, b', hh, hb, hl⟩ := exists_letHead hw.spellable
    refine bindingIn (.plain hh) hl (ih hw.child) (ihn hw.child) fun r x' y' hx hy => ?_
    simp only [Head.tree, Expr.bare, Expr.bareOption_eq, hb, hx, hy, Option.map_some]
  | bindRec _ ih =>
    obtain ⟨hf, hne, hps⟩ := hw.spellable
    obtain ⟨us, f', ps', hh, hb, hpb, hl⟩ := exists_recHead hf hne hps
    refine binding (.function hh) hl (ih hw.child) fun r x' hx => ?_
    simp only [Head.tree, Expr.bare, Expr.bareOption_eq, hb, hpb, hx, Option.map_none]
  | bindRecIn _ _ ih ihn =>
    obtain ⟨hf, hne, hps⟩ := hw.spellable
    obtain ⟨us, f', ps', hh, hb, hpb, hl⟩ := exists_recHead hf hne hps
    refine bindingIn (.function hh) hl (ih hw.child) (ihn hw.child) fun r x' y' hx hy => ?_
    simp only [Head.tree, Expr.bare, Expr.bareOption_eq, hb, hpb, hx, hy, Option.map_some]
  | get _ _ hi iha ihi => exact get (iha hw.child) (ihi hw.child) hi
  | put _ _ hi _ iha ihi ihv => exact put (iha hw.child) (ihi hw.child) hi (ihv hw.child)
  | call _ _ ihf iha =>
    refine call (ihf hw.child) (fun a ha => iha a ha (hw.child ?_)) ?_
    · exact List.mem_cons_of_mem _ (List.mem_map_of_mem ha)
    · rintro rfl
      exact hw.spellable rfl

end ReadAs

end Grammar

namespace Program

/-- **A written tree is read back.**  Every writable tree has a text, and every text of it, with or
without parentheses around the whole, is read without a warning as one expression: the tree, places
aside. -/
theorem parse_written (settings : Settings) {e : Expr} (h : e.Writable) :
    (∃ cs, e.Written cs) ∧ ∀ cs, e.Written cs → ∀ text ∈ [cs, inParens cs],
      ∃ p x, (parse settings text).result = .ok p ∧ (parse settings text).warnings = [] ∧
        p.items = [x] ∧ x.bare = e.bare := by
  refine ⟨Expr.exists_written h, fun cs hw text ht => ?_⟩
  have hr : Grammar.ReadAs text e := by
    have hr := Grammar.ReadAs.of_written hw h
    rcases List.mem_cons.1 ht with rfl | ht
    · exact hr
    · rw [List.mem_singleton.1 ht]
      exact hr.parens
  obtain ⟨us, x, hl, hx, hb⟩ := hr
  obtain ⟨p, y, hp, hw, hi, hy⟩ := parse_of_lexes hl hx settings
  exact ⟨p, y, hp, hw, hi, hy.trans hb⟩

/-- An annotated array whose element is set to a negated float. -/
theorem written_put_read :
    ∃ e, e = Expr.bind default ⟨"x", some (.array (.basic .float)), default⟩ (.var default "y")
        (some (.put default (.var default "x") (.int default 7)
          (.unary default .fneg (.float default ⟨0x4004000000000000⟩)))) ∧
      e.Writable ∧
      e.Written "let (x : float array) = (y) in ((x).(7) <- ( -. (2.50)))".toList ∧
      ∃ p x, (parse {} "let (x : float array) = (y) in ((x).(7) <- ( -. (2.50)))".toList).result
        = .ok p ∧ p.items = [x] ∧ x.bare = e.bare := by
  have hv : (Kind.float ⟨0x4004000000000000⟩).SpelledAs ['2', '.', '5', '0'] :=
    ⟨_, _, rfl, rfl, rfl⟩
  have hx : Kind.ident.SpelledAs "x".toList := ⟨_, _, rfl, rfl, rfl⟩
  have hy : Kind.ident.SpelledAs "y".toList := ⟨_, _, rfl, rfl, rfl⟩
  have hd : (Digits.intText 7).toList = ['7'] := by
    rw [Digits.intText, if_neg (by omega), Digits.text, Digits.ofNat]
    rfl
  have hvar : ∀ {s : String}, Kind.ident.SpelledAs s.toList → (Expr.var default s).Writable :=
    fun h => .intro h (by simp [Expr.children])
  obtain ⟨e, he⟩ : ∃ e, e = Expr.bind default ⟨"x", some (.array (.basic .float)), default⟩
      (.var default "y") (some (.put default (.var default "x") (.int default 7)
        (.unary default .fneg (.float default ⟨0x4004000000000000⟩)))) := ⟨_, rfl⟩
  have hw : e.Writable := by
    rw [he]
    refine .intro ⟨hx, ?_⟩ ?_
    · rintro ty ⟨⟩
      exact .array (.basic .float)
    · rintro c (_ | ⟨_, _ | ⟨_, ⟨⟩⟩⟩)
      · exact hvar hy
      · refine .intro trivial ?_
        rintro c (_ | ⟨_, _ | ⟨_, _ | ⟨_, ⟨⟩⟩⟩⟩)
        · exact hvar hx
        · exact .intro ⟨by decide, by decide⟩ (by simp [Expr.children])
        · refine .intro (by simp [Expr.Spellable, UnaryOp.all]) ?_
          rintro c (_ | ⟨_, ⟨⟩⟩)
          exact .intro ⟨_, hv⟩ (by simp [Expr.children])
  have hi : Expr.Written (.int default 7) ['7'] := hd ▸ .int
  have ht : e.Written "let (x : float array) = (y) in ((x).(7) <- ( -. (2.50)))".toList := by
    rw [he]
    exact .bindIn .var (.put .var hi (.inl rfl) (.unary (.float hv)))
  obtain ⟨p, y, hp, _, hitems, hb⟩ := (parse_written {} hw).2 _ ht _ List.mem_cons_self
  exact ⟨e, he, hw, ht, p, y, hp, hitems, hb⟩

end Program

end SmallMl
