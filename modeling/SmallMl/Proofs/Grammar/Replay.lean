import SmallMl.Proofs.Grammar.Brackets

/-!
# Reading the same tokens on another base

While an expression is read, frames come and go on top of a base, the stack that was there when the
expression started.  The base itself is only asked whether it takes an operator or a semicolon.  So
the tokens are read in the same way on another base that takes at least as much (`Admits`), and
every base lets them be read between parentheses.

What some tokens do is therefore stated for all bases at once.

* `Reaches us gs focus K`: behind the tokens the frames `gs` stand on the base, with that focus.
* `Opens us f K`: behind the tokens the frame `f` waits for an expression.
* `Hands t whole us x K`: the token `t` behind the tokens hands the expression `x` to the base, and
  so does a closing parenthesis.

The rules below follow the cases of a move (`Reaches.move`, `Hands.of_move`) and of `settle`
(`Hands.binding`, `Hands.goOn`, `Hands.take`, `Hands.close`).  Expressions that are handed over are
`Bracketed`.
-/

namespace SmallMl.Grammar

/-! ### Bases -/

/-- How tightly an operator has to bind for the top of the stack to leave it to an expression. -/
def strengthOf : List Frame → Nat
  | [] => 0
  | f :: _ => f.strength

/-- The base `B` takes every operator that `K` takes, and semicolons if `K` does. -/
structure Admits (K B : List Frame) : Prop where
  strength : strengthOf B ≤ strengthOf K
  sequence : onSequence K = true → onSequence B = true

theorem Admits.cons (f : Frame) (K B : List Frame) : Admits (f :: K) (f :: B) := ⟨Nat.le_refl _, id⟩

theorem Admits.paren (K B : List Frame) (opening : Location) (slot : Slot) :
    Admits K (.paren opening slot :: B) :=
  ⟨Nat.zero_le _, fun _ => rfl⟩

theorem binding?_mono {m n : Nat} {t : Token} {op : Operator} (h : binding? n t = some op)
    (hm : m ≤ n) : binding? m t = some op := by
  rw [binding?, Option.filter_eq_some_iff] at h ⊢
  obtain ⟨ho, hn⟩ := h
  exact ⟨ho, decide_eq_true (hm.trans (of_decide_eq_true hn))⟩

/-! ### What a token does on a base -/

section

variable {items : List Expr} {last : Location} {t : Token} {whole : Bool} {x y : Expr} {f : Frame}
  {B gs : List Frame} {focus : Focus} {op : Operator}

theorem settle_binding (h : binding? (strengthOf B) t = some op) :
    settle items last t whole x B = .ok (.use items (.right x op :: B) t .start) := by
  cases B with
  | nil =>
    rw [settle_nil, show binding? 0 t = some op from h]
  | cons g B =>
    rw [settle_cons, show binding? g.strength t = some op from h]

theorem settle_goesOn (hB : onSequence B = true) (ht : t.kind = .semi)
    (hx : x.endsSequence = false) :
    settle items last t false x B = .ok (.use items B t (.semi x t.range)) := by
  cases B with
  | nil => cases hB
  | cons g B =>
    have hg : g.isSequence = true := hB
    rw [settle_cons, binding?_of_kind ht rfl]
    exact if_pos (by simp [Frame.goesOn, hg, ht, hx])

/-- The token neither binds to the expression in front of it nor goes on with a sequence. -/
structure Frame.Leaves (f : Frame) (whole : Bool) (x : Expr) (t : Token) : Prop where
  binding : binding? f.strength t = none
  goesOn : f.goesOn whole x t = false

theorem settle_taken (h : f.Leaves whole x t) (ht : f.taken? t x = some (gs, focus)) :
    settle items last t whole x (f :: B) = .ok (.use items (gs ++ B) t focus) := by
  rw [settle_cons, h.binding, h.goesOn, ht]
  rfl

theorem settle_closed (h : f.Leaves whole x t) (ht : f.taken? t x = none)
    (hc : f.closed? last x = some y) :
    settle items last t whole x (f :: B) = settle items last t f.isSequel y B := by
  rw [settle_cons, h.binding, h.goesOn, ht, hc]
  rfl

end

/-! ### Reaching a state -/

/-- Behind the tokens the frames `gs` stand on the base. -/
def Reaches (us : List Token) (gs : List Frame) (focus : Focus) (K : List Frame) : Prop :=
  us ≠ [] ∧ ∀ items B l, Admits K B →
    State.run ⟨items, B, .start, l⟩ us = .ok ⟨items, gs ++ B, focus, endOf us⟩

/-- The frame that the focus becomes when an expression starts behind it. -/
def Focus.waiting? : Focus → Option Frame
  | opened opening slot => some (.paren opening slot)
  | semi x r => some (.sequel x r)
  | _ => none

/-- Behind the tokens the frame `f` waits for an expression, if need be as soon as it starts. -/
def Opens (us : List Token) (f : Frame) (K : List Frame) : Prop :=
  Reaches us [f] .start K ∨ ∃ focus, focus.waiting? = some f ∧ Reaches us [] focus K

/-- Behind the tokens the token `t` hands the expression `x` to the base, and so does a closing
parenthesis. -/
def Hands (t : Token) (whole : Bool) (us : List Token) (x : Expr) (K : List Frame) : Prop :=
  us ≠ [] ∧ ∀ items B l, Admits K B → ∃ s, State.run ⟨items, B, .start, l⟩ us = .ok s ∧
    ∀ c, c = t ∨ c.kind = .rparen → s.step c = settle items (endOf us) c whole x B

section

variable {t : Token} {us vs : List Token} {x y : Expr} {f : Frame} {K gs : List Frame}
  {focus focus' : Focus} {whole : Bool}

theorem Reaches.of_start (h : startMove [] t = .use gs focus) : Reaches [t] gs focus K := by
  refine ⟨by simp, fun items B l _ => ?_⟩
  have hs : State.step ⟨items, B, .start, l⟩ t = .ok (.use items (gs ++ B) t focus) := by
    have hb := @begin_eq items B l t []
    rw [h] at hb
    exact hb
  rw [State.run_cons hs]
  rfl

theorem Reaches.move (h : Reaches us [] focus K) (hf : focus ≠ .top)
    (hm : focusMove (endOf us) t focus = .use gs focus') : Reaches (us ++ [t]) gs focus' K := by
  refine ⟨by simp, fun items B l hB => ?_⟩
  have hs : State.step ⟨items, [] ++ B, focus, endOf us⟩ t
      = .ok (.use items (gs ++ B) t focus') := by
    rw [State.step_eq hf, hm]
    rfl
  rw [State.run_append (h.2 items B l hB), State.run_cons hs, endOf_append (by simp)]
  rfl

/-- The frame does not look at the expression that starts behind it. -/
theorem step_waiting {items : List Expr} {B : List Frame} {l : Location}
    (hf : focus.waiting? = some f) (hr : t.kind ≠ .rparen) (he : t.kind ≠ .eof) :
    State.step ⟨items, B, focus, l⟩ t = begin items (f :: B) t := by
  cases focus with
  | opened o slot =>
    cases hf
    simp [State.step, hr]
  | semi y r =>
    cases hf
    simp [State.step, hr, he]
  | _ => cases hf

/-- Reading goes on as if the frame had been there. -/
theorem Opens.run (h : Opens us f K) {items : List Expr} {B : List Frame} {l l' : Location}
    {s : State} (hB : Admits K B) (hv : vs ≠ [])
    (hr : State.run ⟨items, f :: B, .start, l'⟩ vs = .ok s) :
    State.run ⟨items, B, .start, l⟩ (us ++ vs) = .ok s := by
  obtain ⟨t, ts, rfl⟩ := List.exists_cons_of_ne_nil hv
  obtain ⟨s₁, h₁, h₂⟩ := State.run_cons_inv hr
  have hb : begin items (f :: B) t = .ok s₁ := h₁
  rcases h with h | ⟨focus, hf, h⟩
  · rw [State.run_append (h.2 items B l hB)]
    exact (State.run_cons h₁ ts).trans h₂
  · rw [State.run_append (h.2 items B l hB)]
    refine (State.run_cons ?_ ts).trans h₂
    rw [List.nil_append, step_waiting hf (begin_ne hb).1 (fun he => begin_eof he hb), hb]

theorem Hands.of_move (h : Reaches us [] focus K) (hf : focus ≠ .top)
    (hm : focusMove (endOf us) t focus = .hand whole x) : Hands t whole us x K := by
  refine ⟨h.1, fun items B l hB => ⟨_, h.2 items B l hB, fun c hc => ?_⟩⟩
  have hm' : focusMove (endOf us) c focus = .hand whole x := by
    rcases hc with rfl | hc
    · exact hm
    · exact focusMove_closing (.inr hc) hm
  rw [State.step_eq (s := ⟨items, [] ++ B, focus, endOf us⟩) hf]
  simp only [hm']
  rfl

namespace Hands

theorem rparen (h : Hands t whole us x K) : Hands Token.rparen whole us x K := by
  refine ⟨h.1, fun items B l hB => ?_⟩
  obtain ⟨s, hr, hs⟩ := h.2 items B l hB
  refine ⟨s, hr, fun c hc => hs c (.inr ?_)⟩
  rcases hc with rfl | hc
  · rfl
  · exact hc

/-- What becomes of the expression on the base, if it is the same on all bases. -/
theorem reaches (h : Hands t whole us x K) (hs : ∀ items B, Admits K B →
    settle items (endOf us) t whole x B = .ok (.use items (gs ++ B) t focus)) :
    Reaches (us ++ [t]) gs focus K := by
  refine ⟨by simp, fun items B l hB => ?_⟩
  obtain ⟨s, hr, hc⟩ := h.2 items B l hB
  have ht : s.step t = .ok (.use items (gs ++ B) t focus) :=
    (hc t (.inl rfl)).trans (hs items B hB)
  rw [State.run_append hr, State.run_cons ht, endOf_append (by simp)]
  rfl

theorem binding {op : Operator} (h : Hands t whole us x K)
    (ho : binding? (strengthOf K) t = some op) : Reaches (us ++ [t]) [.right x op] .start K :=
  h.reaches fun _ _ hB => settle_binding (binding?_mono ho hB.strength)

theorem goOn (h : Hands t false us x K) (hK : onSequence K = true) (ht : t.kind = .semi)
    (hx : x.endsSequence = false) : Reaches (us ++ [t]) [] (.semi x t.range) K :=
  h.reaches fun _ _ hB => settle_goesOn (hB.sequence hK) ht hx

theorem under (h : Hands t whole vs x (f :: K)) (ho : Opens us f K) (items : List Expr)
    {B : List Frame} (l : Location) (hB : Admits K B) :
    ∃ s, State.run ⟨items, B, .start, l⟩ (us ++ vs) = .ok s ∧
      ∀ c, c = t ∨ c.kind = .rparen →
        s.step c = settle items (endOf (us ++ vs)) c whole x (f :: B) := by
  obtain ⟨s, hr, hs⟩ := h.2 items (f :: B) l (.cons f K B)
  rw [endOf_append h.1]
  exact ⟨s, ho.run hB h.1 hr, hs⟩

theorem take (h : Hands t whole vs x (f :: K)) (ho : Opens us f K) (hl : f.Leaves whole x t)
    (ht : f.taken? t x = some (gs, focus)) : Reaches (us ++ (vs ++ [t])) gs focus K := by
  refine ⟨by simp, fun items B l hB => ?_⟩
  obtain ⟨s, hr, hs⟩ := h.under ho items l hB
  have hst : s.step t = .ok (.use items (gs ++ B) t focus) :=
    (hs t (.inl rfl)).trans (settle_taken hl ht)
  rw [← List.append_assoc, State.run_append hr, State.run_cons hst, endOf_append (by simp)]
  rfl

/-- **A completed construct is handed on** from where its frame was opened. -/
theorem close (h : Hands t whole vs x (f :: K)) (ho : Opens us f K) (hl : f.Leaves whole x t)
    (ht : f.taken? t x = none) (hc : f.closed? (endOf vs) x = some y) :
    Hands t f.isSequel (us ++ vs) y K := by
  refine ⟨by simp [h.1], fun items B l hB => ?_⟩
  obtain ⟨s, hr, hs⟩ := h.under ho items l hB
  rw [← endOf_append h.1 us] at hc
  refine ⟨s, hr, fun c hct => (hs c hct).trans ?_⟩
  rcases hct with rfl | hk
  · exact settle_closed hl ht hc
  · exact settle_rparen hk hc whole

/-- **Between parentheses the tokens are the expression.** -/
theorem bracketed (h : Hands t whole us x K) : Bracketed us x := by
  intro items stack opening slot l
  obtain ⟨s, hr, hs⟩ := h.2 items (.paren opening slot :: stack) l (.paren K stack opening slot)
  exact ⟨s, hr, fun c hc => by rw [hs c (.inr hc), settle_paren_rparen hc]⟩

end Hands

/-! ### What has been read

Between parentheses the tokens are all there is to read, so they are what the focus or the frame has
read. -/

theorem ItemsOf.kind_of_nil (h : ItemsOf us []) : ∀ t ∈ us, t.kind = .semi := by
  generalize hx : ([] : List Expr) = items at h
  induction h with
  | nil => simp
  | semi _ ht ih =>
    intro u hu
    rcases List.mem_append.1 hu with hu | hu
    · exact ih hx u hu
    · rw [List.mem_singleton.1 hu, ht]
  | item => cases hx

theorem Reaches.reads (h : Reaches us gs focus K) (he : ∀ t ∈ us, t.isEof = false) :
    Reads (Token.lparen :: us) ⟨[], gs ++ [.paren default .operand], focus, endOf us⟩ := by
  have hp : StackOf [Token.lparen] [.paren default .operand] :=
    .cons .nil (FrameOf.paren (t := Token.lparen) .operand rfl) (by simp [Frame.isSequel])
  have hi : Reads [Token.lparen] ⟨[], [.paren default .operand], .start, default⟩ :=
    .inside .nil hp .start (by simp)
  exact hi.run he (h.2 [] [.paren default .operand] default (.paren K [] default .operand))

theorem StackOf.paren_inv {o : Location} (h : StackOf us [.paren o .operand]) :
    ∃ t, us = [t] := by
  cases h with
  | cons hk hf _ =>
    cases hk
    cases hf with
    | paren hs _ =>
      cases hs
      exact ⟨_, rfl⟩

/-- The stack and the focus have read the tokens behind the parenthesis. -/
theorem Reaches.parts (h : Reaches us gs focus K) (he : ∀ t ∈ us, t.isEof = false) :
    ∃ ks fs, StackOf ks (gs ++ [.paren default .operand]) ∧ FocusOf fs focus ∧
      ∀ t vs, ks ++ fs = t :: vs → vs = us := by
  have hr := h.reads he
  generalize hst : gs ++ [Frame.paren default .operand] = stack at hr ⊢
  generalize endOf us = l at hr
  generalize hts : Token.lparen :: us = ts at hr
  cases hr with
  | top => simp at hst
  | @inside is ks fs _ _ _ hi hk hf _ =>
    refine ⟨ks, fs, hk, hf, fun t vs hv => ?_⟩
    rw [hv] at hts
    cases is with
    | nil => exact (List.cons.inj hts).2.symm
    | cons u is =>
      have hu := hi.kind_of_nil u (by simp)
      rw [← (List.cons.inj hts).1] at hu
      cases hu

theorem Reaches.focusOf (h : Reaches us [] focus K) (he : ∀ t ∈ us, t.isEof = false) :
    FocusOf us focus := by
  obtain ⟨ks, fs, hk, hf, hu⟩ := h.parts he
  obtain ⟨t, rfl⟩ := hk.paren_inv
  rwa [← hu t fs rfl]

theorem Opens.frameOf (h : Opens us f K) (he : ∀ t ∈ us, t.isEof = false) : FrameOf us f := by
  rcases h with h | ⟨focus, hw, h⟩
  · obtain ⟨ks, fs, hk, hf, hu⟩ := h.parts he
    cases hf
    cases hk with
    | @cons _ vs _ _ hk hf _ =>
      obtain ⟨t, rfl⟩ := hk.paren_inv
      rwa [← hu t vs (by simp)]
  · cases h.focusOf he with
    | opened hs ho =>
      cases hw
      exact .paren hs ho
    | semi hx hm =>
      cases hw
      exact .sequel hx hm
    | _ => cases hw

end

end SmallMl.Grammar
