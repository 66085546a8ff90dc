import SmallMl.Proofs.Grammar.Extent
import SmallMl.Proofs.Grammar.Held

/-!
# What every node was read from

Every node of a program that was read covers a stretch of the tokens that, between parentheses, is
read as that node (`Cut`).  The only nodes without such a stretch are the comparisons that `<>`, `<`
and `>` negate: their tokens are those of the negation (`Node.Negated`).

The invariant, `Traced`, splits the tokens that were read into those of the items, of each frame and
of the focus, and says of each part that it is read in the same way on other bases.  A construct is
completed by handing an expression down the stack; `Given` is what is known of the expression on its
way.
-/

namespace SmallMl

/-- A comparison that is the negation of what is written: `<>`, `<` or `>` stands between its
operands. -/
def Node.Negated (ts : List Token) : Node → Prop
  | expr (.binary _ _ x y) => ∃ u t v op, [u, t, v] <:+: ts ∧ t.kind = .operator op ∧
      op.form.negate = true ∧
      if op.form.swap then y.range.stop = u.range.stop ∧ x.range.start = v.range.start
      else x.range.stop = u.range.stop ∧ y.range.start = v.range.start
  | _ => False

namespace Grammar

/-- The range of the expression covers tokens that are the expression between parentheses. -/
def Cut (all : List Token) (x : Expr) : Prop :=
  ∃ us, us ≠ [] ∧ us <:+: all ∧ x.range = spanOf us ∧ Bracketed us x

/-- The node is cut out of the tokens, unless it is a negated comparison. -/
def Good (all : List Token) (n : Node) : Prop := (∃ x, n = .expr x ∧ Cut all x) ∨ n.Negated all

/-- All nodes of the expression are cut out of the tokens. -/
abbrev Sound (all : List Token) (x : Expr) : Prop := x.Everywhere (Good all)

section

variable {all us vs ws : List Token} {t : Token} {S K gs : List Frame} {focus : Focus} {f : Frame}
  {x y : Expr} {whole : Bool} {items : List Expr}

theorem Cut.sound (h : Cut all x) (hm : x.isMissing = false) (hp : ∀ c ∈ x.children, Sound all c) :
    Sound all x :=
  (Expr.everywhere_iff hm).2 ⟨.inl ⟨x, rfl, h⟩, hp⟩

theorem parts_of_sound (hm : x.isMissing = false) (h : Sound all x) :
    ∀ c ∈ x.children, Sound all c :=
  ((Expr.everywhere_iff hm).1 h).2

theorem sound_binary {r : Range} {o : BinaryOp} (hn : (Node.expr (.binary r o x y)).Negated all)
    (hx : Sound all x) (hy : Sound all y) : Sound all (.binary r o x y) :=
  (Expr.everywhere_iff rfl).2 ⟨.inr hn, by simp [Expr.children, hx, hy]⟩

/-- The negated comparison inside an operation. -/
theorem sound_negated {op : Operator} {r : Range} (hx : Derives .expr us x)
    (ht : t.kind = .operator op) (hy : Derives .expr vs y) (hi : us ++ (t :: vs) <:+: all)
    (hn : op.form.negate = true) (hpx : Sound all x) (hpy : Sound all y) :
    Sound all (if op.form.swap then .binary r op.form.op y x else .binary r op.form.op x y) := by
  obtain ⟨u, v, huv, hu, hv⟩ := hx.between hy hi
  split
  · next hs =>
    refine sound_binary ⟨u, t, v, op, huv, ht, hn, ?_⟩ hpy hpx
    rw [if_pos hs]
    exact ⟨hu, hv⟩
  · next hs =>
    refine sound_binary ⟨u, t, v, op, huv, ht, hn, ?_⟩ hpx hpy
    rw [if_neg hs]
    exact ⟨hu, hv⟩

/-! ### Expressions on their way down -/

/-- What is known of the expression `x` that is handed to the stack in front of the token `t`.  The
semicolon at the end of a sequence belongs to its tokens, but not to its range. -/
structure Given (all : List Token) (t : Token) (S : List Frame) (whole : Bool) (us : List Token)
    (x : Expr) : Prop where
  handed : Handed t S whole us x
  hands : Hands t whole us x S
  front : ∃ vs w, vs <+: us ∧ x.range = spanOf vs ∧ Hands Token.rparen w vs x S
  parts : ∀ c ∈ x.children, Sound all c

namespace Given

theorem of_expr (hx : Derives .expr us x) (hh : Hands t false us x S)
    (hp : ∀ c ∈ x.children, Sound all c) : Given all t S false us x :=
  ⟨.expr hx, hh, ⟨us, false, List.prefix_refl us, hx.range_eq_spanOf (by simp), hh.rparen⟩, hp⟩

theorem isMissing_eq (h : Given all t S whole us x) : x.isMissing = false := by
  cases h.handed with
  | expr hx => exact hx.isMissing_eq
  | seq hx _ _ => exact hx.isMissing_eq

theorem sound (h : Given all t S whole us x) (hi : us <:+: all) : Sound all x := by
  obtain ⟨vs, w, hv, hr, hh⟩ := h.front
  exact Cut.sound ⟨vs, hh.1, hv.isInfix.trans hi, hr, hh.bracketed⟩ h.isMissing_eq h.parts

end Given

/-- Behind a semicolon the stack waits for a sequence, and without it the tokens in front are
handed down. -/
def Trailing (us : List Token) (focus : Focus) (S : List Frame) : Prop :=
  ∀ x r, focus = .semi x r → onSequence S = true ∧
    ∃ vs m w, us = vs ++ [m] ∧ Hands Token.rparen w vs x S

/-- **A focus that is complete** hands its expression down. -/
theorem Given.of_move (h : Reaches us [] focus S) (hf : FocusOf us focus) (hn : focus ≠ .top)
    (hp : ∀ e ∈ focus.held, Sound all e) (hs : Trailing us focus S)
    (hm : focusMove (endOf us) t focus = .hand whole x) : Given all t S whole us x := by
  have hh := Hands.of_move h hn hm
  rcases focusMove_hand hm with ⟨rfl, rfl⟩ | ⟨fn, args, rfl, rfl, rfl⟩ | ⟨a, i, rfl, rfl, rfl⟩
    | ⟨r, rfl, rfl, ho⟩
  · cases hf with
    | atom hx =>
      exact .of_expr (.exprOperand (.operandCallee (.calleeAtom hx))) hh
        (parts_of_sound hx.isMissing_eq (hp x (by simp [Focus.held])))
  · cases hf with
    | call hc =>
      have hx := Derives.exprOperand (hc.operand (s := ⟨[], [], .start, endOf us⟩) rfl)
      refine .of_expr hx hh ?_
      cases args with
      | nil => exact parts_of_sound hx.isMissing_eq (hp fn (by simp [Focus.held]))
      | cons a as =>
        intro c hc
        refine hp c ?_
        simpa [State.callOf, Expr.children, Focus.held, or_comm] using hc
  · cases hf with
    | @indexed ts vs d o c _ _ ha hd ho hi hc =>
      have hr : (⟨a.range.start, endOf (ts ++ (d :: o :: (vs ++ [c])))⟩ : Range)
          = spanOf (ts ++ (d :: o :: (vs ++ [c]))) := by
        rw [ha.start_eq, spanOf, startOf_append ha.ne_nil]
      rw [hr] at hh ⊢
      exact .of_expr (.exprOperand (.operandArray (.get ha hd ho hi hc))) hh hp
  · cases hf with
    | @semi ts m _ hx hk =>
      obtain ⟨hon, vs, m', w, hv, hw⟩ := hs x _ rfl
      obtain ⟨rfl, -⟩ := List.append_inj' hv rfl
      have hpx := parts_of_sound hx.isMissing_eq (hp x (by simp [Focus.held]))
      exact ⟨.seq (.seqTrailing hx hk) hon ho, hh,
        ⟨ts, w, List.prefix_append _ _, hx.range_eq_spanOf (by simp), hw⟩, hpx⟩

theorem sound_parts {last : Location} (hg : Given all t (f :: K) whole vs x) (hf : FrameOf us f)
    (hi : us ++ vs <:+: all) (hp : ∀ e ∈ f.held, Sound all e) (hc : f.closed? last x = some y) :
    ∀ c ∈ y.children, Sound all c := by
  have hx := hg.sound (List.IsInfix.trans ⟨us, [], by simp⟩ hi)
  rcases closed?_parts hc with ⟨left, op, rfl, rfl⟩ | hall
  · have hl := hp left (by simp [Frame.held])
    intro c hcm
    rcases combine_parts op left x c hcm with rfl | rfl | ⟨hn, r, rfl⟩
    · exact hl
    · exact hx
    · cases hf with
      | @right ts o _ _ ha ho =>
        rw [List.append_assoc] at hi
        exact sound_negated ha ho hg.handed.derives hi hn hl hx
  · intro c hcm
    rcases hall c hcm with rfl | hcm
    · exact hx
    · exact hp c hcm

/-- **A construct that is completed** is handed to the frames below. -/
theorem Given.close (h : Given all t (f :: K) whole vs x) (ho : Opens us f K) (hf : FrameOf us f)
    (hs : f.isSequel = true → onSequence K = true) (hp : ∀ e ∈ f.held, Sound all e)
    (hi : us ++ vs <:+: all) (hl : f.Leaves whole x t) (ht : f.taken? t x = none)
    (hc : f.closed? (endOf vs) x = some y) : Given all t K f.isSequel (us ++ vs) y := by
  have hy := hf.closed h.handed.derives rfl hc
  have hh := h.hands.close ho hl ht hc
  have hpy := sound_parts h hf hi hp hc
  cases hq : f.isSequel with
  | false =>
    rw [hq] at hy hh
    exact .of_expr hy hh hpy
  | true =>
    rw [hq] at hy hh
    cases f with
    | sequel first semi =>
      cases hc
      -- the semicolon at the end is not in the range of the sequence
      obtain ⟨zs, w, hz, hr, hw⟩ := h.front
      have hlr : Frame.Leaves (.sequel first semi) w x Token.rparen :=
        ⟨rfl, goesOn_rparen rfl _ _ _⟩
      refine ⟨.seq hy (hs rfl) (operator?_of_binding? hl.binding), hh, ⟨us ++ zs, true,
        (List.prefix_append_right_inj us).2 hz, ?_, hw.close ho hlr rfl rfl⟩, hpy⟩
      cases hf with
      | @sequel ts m _ ha hm =>
        show Range.span first.range x.range = _
        rw [ha.range_eq_spanOf (by simp), hr, List.append_assoc]
        exact span_spanOf ha.ne_nil hw.1 [m]
    | _ => cases hq

/-! ### Expressions that a token makes -/

/-- What a closing parenthesis hands down is the expression between parentheses. -/
theorem Reaches.bracketed (h : Reaches us [] focus K) (hn : focus ≠ .top)
    (hm : focusMove (endOf us) Token.rparen focus = .hand whole x) : Bracketed us x :=
  (Hands.of_move h hn hm).bracketed

theorem sound_leaf (hx : t.leaf? = some x) (hi : [t] <:+: all) : Sound all x := by
  have hr : Reaches [t] [] (.atom x) [] := .of_start (by simp [startMove, hx])
  refine Cut.sound ⟨[t], by simp, hi, (leaf?_range hx).1, hr.bracketed (by simp) rfl⟩
    (leaf?_range hx).2 ?_
  rw [(leaf?_parts hx).1]
  simp

theorem sound_make (ht : t.kind = .arrayMake) (hi : [t] <:+: all) :
    Sound all (.var t.range arrayMake) := by
  have hr : Reaches [t] [] (.call (.var t.range arrayMake) []) [] :=
    .of_start (by simp [startMove, Token.leaf?, ht])
  exact Cut.sound ⟨[t], by simp, hi, rfl, hr.bracketed (by simp) rfl⟩ rfl
    (by simp [Expr.children])

theorem sound_unit {o : Token} (ho : o.kind = .lparen) (ht : t.kind = .rparen)
    (hi : [o, t] <:+: all) : Sound all (.unit ⟨o.range.start, t.range.stop⟩) := by
  have hr : Reaches [o] [] (.opened o.range.start .operand) [] :=
    .of_start (by simp [startMove, Token.leaf?, ho])
  have hr' : Reaches [o, t] [] (.atom (.unit ⟨o.range.start, t.range.stop⟩)) [] :=
    hr.move (by simp) (by simp [focusMove, ht, Slot.fill])
  exact Cut.sound ⟨[o, t], by simp, hi, rfl, hr'.bracketed (by simp) rfl⟩ rfl
    (by simp [Expr.children])

theorem Made.sound (h : Made (endOf us) t focus x) (hr : Reaches us [] focus S)
    (hf : FocusOf us focus) (hp : ∀ e ∈ focus.held, Sound all e) (hi : us ++ [t] <:+: all) :
    Sound all x := by
  have ht : [t] <:+: all := List.IsInfix.trans ⟨us, [], by simp⟩ hi
  cases h with
  | leaf hx => exact sound_leaf hx ht
  | make hk => exact sound_make hk ht
  | unit hk =>
    cases hf with
    | @opened ts o _ _ ho => exact sound_unit ho hk (List.IsInfix.trans ⟨ts, [], by simp⟩ hi)
  | get =>
    have hg := Given.of_move (t := Token.rparen) hr hf (by simp) hp
      (fun _ _ h => by cases h) rfl
    exact hg.sound (List.IsInfix.trans ⟨[], [t], rfl⟩ hi)

theorem sound_paren {o : Token} (hg : Given all t S whole us x) (ho : o.kind = .lparen)
    (ht : t.kind = .rparen) (hi : o :: (us ++ [t]) <:+: all) :
    Sound all (x.withRange ⟨o.range.start, t.range.stop⟩) := by
  have hx := hg.isMissing_eq
  have he := hg.hands.bracketed.expression ho ht
  refine Cut.sound ⟨_, by simp, hi, ?_, he.bracketed⟩ (by rw [isMissing_withRange, hx]) ?_
  · rw [Expr.range_withRange _ hx, spanOf, startOf_cons, ← List.cons_append,
      endOf_append (by simp), endOf_singleton]
  · rw [Expr.children_withRange]
    exact hg.parts

/-! ### The invariant -/

/-- The frames have been read from the tokens, each on the frames below it. -/
inductive Stacked (all : List Token) : List Token → List Frame → Prop
  | nil (ts : List Token) : Stacked all ts []
  | cons {ts us : List Token} {f : Frame} {K : List Frame} : Stacked all ts K → Opens us f K →
      (∀ e ∈ f.held, Sound all e) → (f.isSequel = true → onSequence K = true) →
      Stacked all (ts ++ us) (f :: K)

/-- **The state has been read from the tokens**, and all its expressions are cut out of `all`. -/
inductive Traced (all : List Token) : List Token → State → Prop
  | top {ts : List Token} {items : List Expr} {l : Location} : (∀ e ∈ items, Sound all e) →
      Traced all ts ⟨items, [], .top, l⟩
  | start {ts : List Token} {items : List Expr} {S : List Frame} {l : Location} :
      (∀ e ∈ items, Sound all e) → Stacked all ts S → Traced all ts ⟨items, S, .start, l⟩
  | focus {ts us : List Token} {items : List Expr} {S : List Frame} {focus : Focus} :
      (∀ e ∈ items, Sound all e) → Stacked all ts S → Reaches us [] focus S → focus ≠ .top →
      (∀ e ∈ focus.held, Sound all e) → Trailing us focus S →
      Traced all (ts ++ us) ⟨items, S, focus, endOf us⟩

theorem Traced.sound_items {s : State} (h : Traced all ws s) : ∀ e ∈ s.items, Sound all e := by
  cases h with
  | top hp | start hp _ | focus hp _ _ _ _ _ => exact hp

theorem Traced.use (hp : ∀ e ∈ items, Sound all e) (hK : Stacked all ws K)
    (hr : Reaches (us ++ [t]) gs focus K) (hn : focus ≠ .top) (hs : Shape gs focus)
    (hh : ∀ e ∈ heldIn gs focus, Sound all e) :
    Traced all (ws ++ (us ++ [t])) (.use items (gs ++ K) t focus) := by
  cases hs with
  | stay hf =>
    have h := Traced.focus hp hK hr hn (fun e he => hh e (by simpa [heldIn] using he))
      (fun x r h => absurd h (hf x r))
    rwa [endOf_append (by simp), endOf_singleton] at h
  | push hf =>
    refine .start hp (.cons hK (.inl hr) (fun e he => hh e ?_) (by simp [hf]))
    simpa [heldIn, Focus.held] using he

theorem begin_traced {s' : State} (hp : ∀ e ∈ items, Sound all e) (hK : Stacked all ws K)
    (ht : [t] <:+: all) (h : begin items K t = .ok s') : Traced all (ws ++ [t]) s' := by
  have hb := @begin_eq items K default t []
  rw [List.nil_append, h] at hb
  cases hm : startMove [] t with
  | use gs focus =>
    rw [hm] at hb
    cases hb
    obtain ⟨hs, hh⟩ := startMove_held default .start hm
    show Traced all (ws ++ ([] ++ [t])) _
    refine Traced.use hp hK (.of_start hm) (startMove_ne_top hm) hs fun e he => ?_
    cases hh e he with
    | leaf hx => exact sound_leaf hx ht
    | make hk => exact sound_make hk ht
  | hand whole x => exact absurd hm (startMove_ne_hand _)
  | refuse i =>
    rw [hm] at hb
    cases hb

theorem top_traced {last : Location} {s' : State} (hp : ∀ e ∈ items, Sound all e)
    (hi : ws ++ t.used <:+: all) (h : top items last t = .ok s') :
    Traced all (ws ++ t.used) s' := by
  unfold top at h
  split at h
  · cases h
    exact .top hp
  · cases h
    exact .top hp
  · next hk _ =>
    rw [Token.used_of_ne_eof hk] at hi ⊢
    exact begin_traced hp (.nil ws) (List.IsInfix.trans ⟨ws, [], by simp⟩ hi) h

/-! ### Steps -/

theorem Given.binding {op : Operator} (hg : Given all t S whole us x)
    (hp : ∀ e ∈ items, Sound all e) (hS : Stacked all ws S) (hi : ws ++ (us ++ t.used) <:+: all)
    (ho : binding? (strengthOf S) t = some op) :
    Traced all (ws ++ (us ++ t.used)) (.use items (.right x op :: S) t .start) := by
  rw [Token.used_of_kind (kind_of_operator? (binding?_eq_some ho)) rfl] at hi ⊢
  have hx := hg.sound (List.IsInfix.trans ⟨ws, [t], by simp⟩ hi)
  refine .use hp hS (hg.hands.binding ho) (by simp) (.push rfl) fun e he => ?_
  have he : e = x := by simpa [heldIn, Focus.held, Frame.held] using he
  rwa [he]

theorem Given.goOn (hg : Given all t (f :: K) whole us x) (hp : ∀ e ∈ items, Sound all e)
    (hS : Stacked all ws (f :: K)) (hi : us <:+: all) (hgo : f.goesOn whole x t = true) :
    Traced all (ws ++ (us ++ t.used)) (.use items (f :: K) t (.semi x t.range)) := by
  obtain ⟨hsq, rfl, ht, hx⟩ := Frame.goesOn_iff.1 hgo
  rw [Token.used_of_kind ht rfl]
  have htr : Trailing (us ++ [t]) (.semi x t.range) (f :: K) := by
    rintro y r ⟨⟩
    exact ⟨hsq, us, t, false, rfl, hg.hands.rparen⟩
  have hs : Traced all (ws ++ (us ++ [t]))
      ⟨items, f :: K, .semi x t.range, endOf (us ++ [t])⟩ :=
    .focus hp hS (hg.hands.goOn hsq ht hx) (by simp)
      (fun e he => by
        rw [List.mem_singleton.1 he]
        exact hg.sound hi) htr
  rwa [endOf_append (by simp), endOf_singleton] at hs

theorem Given.take (hg : Given all t (f :: K) whole vs x) (ho : Opens us f K) (hf : FrameOf us f)
    (hp : ∀ e ∈ items, Sound all e) (hK : Stacked all ws K) (hh : ∀ e ∈ f.held, Sound all e)
    (hi : us ++ vs ++ t.used <:+: all) (hl : f.Leaves whole x t)
    (hk : f.taken? t x = some (gs, focus)) :
    Traced all (ws ++ (us ++ vs ++ t.used)) (.use items (gs ++ K) t focus) := by
  obtain ⟨hu, -, -⟩ := hf.taken .nil hg.handed.derives hk
  obtain ⟨hs, hm⟩ := taken?_held hk
  rw [hu] at hi ⊢
  refine .use hp hK ?_ (taken?_ne_top hk) hs fun e hem => ?_
  · rw [List.append_assoc]
    exact hg.hands.take ho hl hk
  · rcases hm e hem with hem | rfl | ⟨o, slot, rfl, ht, rfl⟩
    · exact hh e hem
    · exact hg.sound (List.IsInfix.trans ⟨us, [t], rfl⟩ hi)
    · cases hf with
      | @paren ts o' _ _ ho' =>
        exact sound_paren hg ho' ht (List.IsInfix.trans ⟨ts, [], by simp⟩ hi)

/-- **What an expression does on its way down the stack**, by induction on the frames: where a frame
is completed, its tokens join those of the expression. -/
theorem settle_traced (he : ∀ u ∈ all, u.isEof = false) (hp : ∀ e ∈ items, Sound all e)
    {s' : State} (hS : Stacked all ws S) : ∀ {whole : Bool} {us : List Token} {x : Expr},
      Given all t S whole us x → ws ++ (us ++ t.used) <:+: all →
      settle items (endOf us) t whole x S = .ok s' → Traced all (ws ++ (us ++ t.used)) s' := by
  induction hS with
  | nil ts =>
    intro whole us x hg hi h
    rw [settle_nil] at h
    split at h
    · next op ho =>
      cases h
      exact hg.binding hp (.nil ts) hi ho
    · rw [← List.append_assoc] at hi ⊢
      refine top_traced (List.forall_mem_cons.2 ⟨?_, hp⟩) hi h
      exact hg.sound (List.IsInfix.trans ⟨ts, t.used, by simp⟩ hi)
  | @cons ts vs f K hK ho hh hq ih =>
    intro whole us x hg hi h
    have hS := Stacked.cons hK ho hh hq
    have hf := ho.frameOf fun u hu => he u (hi.subset (by simp [hu]))
    rw [settle_cons] at h
    split at h
    · next op hb =>
      cases h
      exact hg.binding hp hS hi hb
    next hb =>
    split at h
    · next hgo =>
      cases h
      exact hg.goOn hp hS (List.IsInfix.trans ⟨ts ++ vs, t.used, by simp⟩ hi) hgo
    next hgo =>
    have hl : f.Leaves whole x t := ⟨hb, by simpa using hgo⟩
    rw [List.append_assoc, ← List.append_assoc vs] at hi ⊢
    split at h
    · next gs focus hk =>
      cases h
      exact hg.take ho hf hp hK hh (List.IsInfix.trans ⟨ts, [], by simp⟩ hi) hl hk
    next hk =>
    split at h
    · next y hc =>
      have hy := hg.close ho hf hq hh (List.IsInfix.trans ⟨ts, t.used, by simp⟩ hi) hl hk hc
      rw [← endOf_append hg.hands.1 vs] at h
      exact ih hy hi h
    · cases h

/-- **A step keeps the invariant.** -/
theorem State.step_traced (he : ∀ u ∈ all, u.isEof = false) {s s' : State} (hs : Traced all ws s)
    (hi : ws ++ t.used <:+: all) (h : s.step t = .ok s') : Traced all (ws ++ t.used) s' := by
  cases hs with
  | top hp => exact top_traced hp hi h
  | start hp hS =>
    have hb : begin _ _ t = .ok s' := h
    rw [Token.used_of_ne_eof fun hk => begin_eof hk hb] at hi ⊢
    exact begin_traced hp hS (List.IsInfix.trans ⟨ws, [], by simp⟩ hi) hb
  | @focus ts us items S focus hp hS hr hn hh ht =>
    have hf := hr.focusOf fun u hu => he u (hi.subset (by simp [hu]))
    have hst := h
    rw [step_eq hn] at hst
    rw [List.append_assoc] at hi ⊢
    cases hm : focusMove (endOf us) t focus with
    | hand whole x =>
      rw [hm] at hst
      exact settle_traced he hp hS (.of_move hr hf hn hh ht hm) hi hst
    | refuse i =>
      rw [hm] at hst
      cases hst
    | use gs focus' =>
      rw [hm] at hst
      cases hst
      -- the end is not used up inside an item
      have hu : t.kind ≠ .eof := fun hk => focusMove_ne_top hm (focus_of_step_eof hk h)
      rw [Token.used_of_ne_eof hu] at hi ⊢
      have hi' : us ++ [t] <:+: all := List.IsInfix.trans ⟨ts, [], by simp⟩ hi
      rcases focusMove_use hm with ⟨f, hs, hw, rfl, hm'⟩ | ⟨hsh, hk⟩
      · -- an expression starts behind the focus, which becomes a frame
        have hS' : Stacked all (ts ++ us) (f :: S) := by
          refine .cons hS (.inr ⟨focus, hw, hr⟩) (by rwa [held_waiting hw]) fun hq => ?_
          cases focus <;> cases hw
          · cases hq
          · exact (ht _ _ rfl).1
        have hb : begin items (f :: S) t = .ok (.use items (hs ++ f :: S) t focus') := by
          have hb := @begin_eq items (f :: S) default t []
          rwa [hm'] at hb
        rw [← List.append_assoc, List.append_assoc hs]
        exact begin_traced hp hS' (List.IsInfix.trans ⟨us, [], by simp⟩ hi') hb
      · refine .use hp hS (hr.move hn hm) (focusMove_ne_top hm) hsh fun e hem => ?_
        rcases hk e hem with hem | hem
        · exact hh e hem
        · exact hem.sound hr hf hh hi'

end

end Grammar

open Grammar

namespace Program

/-- **Every node of a program is cut out of its tokens**, negated comparisons excepted. -/
theorem sound_parse {settings : Settings} {text : List Char} {p : Program}
    (h : (parse settings text).result = .ok p) :
    ∃ ts src, (Stream.ofText settings text).Emits ts src ∧
      ts = (Stream.ofText settings text).tokens ∧ ∀ x ∈ p.items, Sound ts x := by
  obtain ⟨ts, src, s, hem, hr, hp⟩ := Parse.run_halts .initial (.ofText settings text)
  have he := hem.isEof_eq_false
  have hs : Traced ts ts s := by
    refine @State.run_invariant (fun us s => us <:+: ts → Traced ts us s)
      (fun us s t s' ht hi hs hu => ?_) ts [] .initial s he (fun _ => .top (by simp)) hr
      (List.infix_refl ts)
    have hs' := State.step_traced he (hi (List.IsInfix.trans ⟨[], [t], rfl⟩ hu))
      (by rwa [Token.used_of_not_eof ht]) hs
    rwa [Token.used_of_not_eof ht] at hs'
  rw [parse] at h
  generalize Parse.run .initial (.ofText settings text) = r at h hp
  cases hp with
  | fault _ => cases h
  | issue _ _ => cases h
  | @finish e s' hn hee hstep =>
    cases h
    refine ⟨ts, src, hem, (Stream.tokens_eq hem hn hee).symm, ?_⟩
    have hu : e.used = [] := if_pos hee
    have hs' := State.step_traced he hs (by simp [hu]) hstep
    rw [items_program]
    simpa using hs'.sound_items

end Program

end SmallMl
