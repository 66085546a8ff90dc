import SmallMl.Proofs.Grammar.Context
import SmallMl.Proofs.Token.Cutting
import SmallMl.Proofs.Tree.Bare

/-!
# Places do not matter

The reader looks at the kinds and the spellings of tokens and never at their places; it only copies
places into the tree and into issues.  So it commutes with forgetting them: `bare` is defined on
everything a state is made of, and a step on bare tokens is the bare step (`State.step_bare`).

Two texts with the same tokens, places aside, are therefore read alike (`State.run_bare`).
-/

namespace SmallMl

namespace Grammar

/-! ### Forgetting places -/

def Slot.bare : Slot → Slot
  | operand => operand
  | argument fn args => argument fn.bare (args.map Expr.bare)

def FunctionHead.bare (h : FunctionHead) : FunctionHead :=
  ⟨default, h.name, default, h.params.map Binder.bare⟩

def Header.bare : Header → Header
  | plain _ => plain default
  | function h => function h.bare

def Frame.bare : Frame → Frame
  | right left op => right left.bare op
  | operand op _ => operand op default
  | paren _ slot => paren default slot.bare
  | index array _ => index array.bare default
  | value array i => value array.bare i.bare
  | condition _ => condition default
  | consequent _ c => consequent default c.bare
  | alternative _ c yes _ => alternative default c.bare yes.bare default
  | letBody _ b => letBody default b.bare
  | letNext _ b body => letNext default b.bare body.bare
  | recBody _ fn ps => recBody default fn.bare (ps.map Binder.bare)
  | recNext _ fn ps body => recNext default fn.bare (ps.map Binder.bare) body.bare
  | sequel first _ => sequel first.bare default

def Focus.bare : Focus → Focus
  | top => top
  | start => start
  | opened _ slot => opened default slot.bare
  | atom x => atom x.bare
  | call fn args => call fn.bare (args.map Expr.bare)
  | dot array => dot array.bare
  | indexed array i => indexed array.bare i.bare
  | semi x _ => semi x.bare default
  | letWord _ => letWord default
  | equals _ b => equals default b.bare
  | recWord _ => recWord default
  | params h => params h.bare
  | resultColon h => resultColon h.bare
  | resultType h ty => resultType h.bare ty
  | binderOpened h _ => binderOpened h.bare default
  | binderName h _ name => binderName h.bare default name
  | binderColon h _ name => binderColon h.bare default name
  | binderType h _ name ty => binderType h.bare default name ty

def State.bare (s : State) : State :=
  ⟨s.items.map Expr.bare, s.stack.map Frame.bare, s.focus.bare, default⟩

end Grammar

def Issue.bare (i : Issue) : Issue := { i with loc := default }

namespace Grammar

def Outcome.bare : Outcome → Outcome
  | .ok s => .ok s.bare
  | .error i => .error i.bare

def Move.bare : Move → Move
  | use gs focus => use (gs.map Frame.bare) focus.bare
  | hand whole x => hand whole x.bare
  | refuse i => refuse i.bare

/-! ### Parts -/

theorem ite_bare {α β : Type} (g : α → β) {c c' : Prop} [Decidable c] [Decidable c'] (hc : c' ↔ c)
    {a b : α} {a' b' : β} (ha : a' = g a) (hb : b' = g b) :
    (if c' then a' else b') = g (if c then a else b) := by
  by_cases h : c
  · rw [if_pos h, if_pos (hc.2 h), ha]
  · rw [if_neg h, if_neg (mt hc.1 h), hb]

@[simp] theorem combine_bare (op : Operator) (x y : Expr) :
    (op.combine x y).bare = op.combine x.bare y.bare := by
  cases op <;> simp [Operator.combine, Operator.form, Expr.bare, Range.span]

@[simp] theorem leaf?_bare (t : Token) : t.bare.leaf? = t.leaf?.map Expr.bare := by
  unfold Token.leaf?
  rw [Token.bare_kind]
  cases t.kind <;> rfl

@[simp] theorem binding?_bare (n : Nat) (t : Token) : binding? n t.bare = binding? n t := rfl

@[simp] theorem fill_bare (slot : Slot) (x : Expr) :
    (slot.fill x).bare = slot.bare.fill x.bare := by
  cases slot <;> rfl

@[simp] theorem bound_bare (h : Header) (b : Binder) :
    (h.bound b).bare = h.bare.bound b.bare := by
  cases h <;> rfl

@[simp] theorem malformed_bare (h : Header) : h.bare.malformed = h.malformed := by
  cases h <;> rfl

@[simp] theorem frame_bare (h : FunctionHead) (ty : Option Ty) :
    (h.frame ty).bare = h.bare.frame ty := by
  simp [FunctionHead.frame, Frame.bare, FunctionHead.bare, Binder.bare]

namespace Frame

@[simp] theorem strength_bare (f : Frame) : f.bare.strength = f.strength := by
  cases f <;> rfl

@[simp] theorem isSequence_bare (f : Frame) : f.bare.isSequence = f.isSequence := by
  cases f <;> rfl

@[simp] theorem isSequel_bare (f : Frame) : f.bare.isSequel = f.isSequel := by
  cases f <;> rfl

theorem goesOn_bare (f : Frame) (whole : Bool) (x : Expr) (t : Token) :
    f.bare.goesOn whole x.bare t.bare = f.goesOn whole x t := by
  unfold goesOn
  rw [isSequence_bare, Expr.endsSequence_bare]
  rfl

theorem closed?_bare (last : Location) (f : Frame) (x : Expr) :
    f.bare.closed? default x.bare = (f.closed? last x).map Expr.bare := by
  cases f with
  | right left op => exact congrArg some (combine_bare op left x).symm
  | value array i =>
    simp [closed?, Frame.bare, Expr.bare]
    rfl
  | sequel first r => simp [closed?, Frame.bare, Expr.bare, Binder.bare, Range.span]
  | _ => rfl

theorem taken?_bare (f : Frame) (t : Token) (x : Expr) :
    f.bare.taken? t.bare x.bare
      = (f.taken? t x).map fun p => (p.1.map Frame.bare, p.2.bare) := by
  cases f with
  | paren o slot =>
    refine ite_bare (Option.map _) Iff.rfl ?_ rfl
    rw [Option.map_some, fill_bare, Expr.bare_withRange]
    exact congrArg (fun y => some ([], slot.bare.fill y)) x.withRange_bare
  | index | condition | consequent | letBody | recBody =>
    exact ite_bare (Option.map _) Iff.rfl rfl rfl
  | _ => rfl

theorem refusal_bare (f : Frame) (t : Token) : f.bare.refusal t.bare = (f.refusal t).bare := by
  cases f <;> rfl

end Frame

/-! ### Moves -/

theorem startMove_bare (gs : List Frame) (t : Token) :
    startMove (gs.map Frame.bare) t.bare = (startMove gs t).bare := by
  unfold startMove
  rw [leaf?_bare]
  cases t.leaf? with
  | some x => rfl
  | none =>
    dsimp only [Option.map_none]
    rw [Token.bare_kind]
    generalize hk : t.kind = k
    cases k with
    | operator op => cases op <;> rfl
    | _ => rfl

theorem callMove_bare (last : Location) (fn : Expr) (args : List Expr) (t : Token) :
    callMove default fn.bare (args.map Expr.bare) t.bare = (callMove last fn args t).bare := by
  unfold callMove
  rw [leaf?_bare]
  cases t.leaf? with
  | some x => rfl
  | none =>
    refine ite_bare Move.bare Iff.rfl rfl ?_
    cases args with
    | nil => rfl
    | cons a as =>
      simp [Move.bare, State.callOf, State.since, Expr.bare]
      rfl

theorem binderMove_bare (h : Header) (t : Token) :
    binderMove h.bare t.bare = (binderMove h t).bare := by
  unfold binderMove
  rw [Token.bare_kind]
  split
  · exact congrArg (Move.use []) (bound_bare h ⟨t.name, none, t.range⟩).symm
  · rfl
  · rw [malformed_bare]
    rfl

theorem typeMove_bare (t : Token) (focus focus' : Ty → Focus)
    (h : ∀ ty, (focus ty).bare = focus' ty) :
    typeMove t.bare focus' = (typeMove t focus).bare := by
  refine ite_bare Move.bare Iff.rfl ?_ rfl
  rw [Token.bare_lit]
  cases Basic.ofName? t.lit with
  | some b => exact congrArg (Move.use []) (h (.basic b)).symm
  | none => rfl

theorem equalsMove_bare (t : Token) (f : Frame) :
    equalsMove t.bare f.bare = (equalsMove t f).bare :=
  ite_bare Move.bare Iff.rfl rfl rfl

theorem focusMove_bare (last : Location) (t : Token) (focus : Focus) :
    focusMove default t.bare focus.bare = (focusMove last t focus).bare := by
  cases focus with
  | top | start => exact startMove_bare [] t
  | opened o slot =>
    refine ite_bare Move.bare Iff.rfl ?_ (startMove_bare [.paren o slot] t)
    exact congrArg (Move.use []) (fill_bare slot (.unit ⟨o, t.range.stop⟩)).symm
  | atom x => exact ite_bare Move.bare Iff.rfl rfl (callMove_bare last x [] t)
  | call fn args => exact callMove_bare last fn args t
  | dot array => exact ite_bare Move.bare Iff.rfl rfl rfl
  | indexed array i =>
    simp only [focusMove, Focus.bare]
    rw [Token.bare_kind, Expr.range_bare]
    split <;> rfl
  | semi x r => exact ite_bare Move.bare Iff.rfl rfl (startMove_bare [.sequel x r] t)
  | letWord start => exact ite_bare Move.bare Iff.rfl rfl (binderMove_bare (.plain start) t)
  | equals start b => exact equalsMove_bare t (.letBody start b)
  | recWord start => exact ite_bare Move.bare Iff.rfl rfl rfl
  | params h =>
    refine ite_bare Move.bare Iff.rfl (binderMove_bare (.function h) t) ?_
    refine ite_bare Move.bare (by simp [FunctionHead.bare]) rfl ?_
    refine ite_bare Move.bare Iff.rfl rfl ?_
    rw [← frame_bare]
    exact equalsMove_bare t (h.frame none)
  | resultColon h => exact typeMove_bare t _ _ fun ty => rfl
  | resultType h ty =>
    refine ite_bare Move.bare Iff.rfl rfl ?_
    rw [← frame_bare]
    exact equalsMove_bare t (h.frame (some ty))
  | binderOpened h o | binderName h o name =>
    refine ite_bare Move.bare Iff.rfl rfl ?_
    rw [malformed_bare]
    rfl
  | binderColon h o name => exact typeMove_bare t _ _ fun ty => rfl
  | binderType h o name ty =>
    refine ite_bare Move.bare Iff.rfl rfl (ite_bare Move.bare Iff.rfl ?_ ?_)
    · exact congrArg (Move.use []) (bound_bare h ⟨name, some ty, ⟨o, t.range.stop⟩⟩).symm
    · rw [malformed_bare]
      rfl

/-! ### Steps and runs -/

theorem top_bare (items : List Expr) (last : Location) (t : Token) :
    top (items.map Expr.bare) default t.bare = Outcome.bare (top items last t) := by
  have hb : begin (items.map Expr.bare) [] t.bare = Outcome.bare (begin items [] t) := by
    have h := @begin_eq items [] last t []
    have h' := @begin_eq (items.map Expr.bare) [] default t.bare []
    have hm := startMove_bare [] t
    rw [List.nil_append] at h h'
    rw [h, h', show startMove [] t.bare = (startMove [] t).bare from hm]
    cases hs : startMove [] t with
    | use gs focus => simp [Move.bare, Move.on, Outcome.bare, State.use, State.bare]; rfl
    | hand whole x => exact absurd hs (startMove_ne_hand _)
    | refuse i => rfl
  unfold top
  rw [Token.bare_kind]
  split
  · rfl
  · rfl
  · exact hb

theorem settle_bare (items : List Expr) (last : Location) (t : Token) (stack : List Frame) :
    ∀ (whole : Bool) (x : Expr),
      settle (items.map Expr.bare) default t.bare whole x.bare (stack.map Frame.bare)
        = Outcome.bare (settle items last t whole x stack) := by
  induction stack with
  | nil =>
    intro whole x
    rw [List.map_nil, settle_nil, settle_nil, binding?_bare]
    cases binding? 0 t with
    | some op => rfl
    | none => exact top_bare (x :: items) last t
  | cons f fs ih =>
    intro whole x
    rw [List.map_cons, settle_cons, settle_cons, binding?_bare, Frame.strength_bare,
      Frame.goesOn_bare, Frame.taken?_bare, Frame.closed?_bare last, Frame.refusal_bare,
      Frame.isSequel_bare]
    cases binding? f.strength t with
    | some op => rfl
    | none =>
      dsimp only
      split
      · rfl
      cases f.taken? t x with
      | some p => simp [Outcome.bare, State.use, State.bare]; rfl
      | none =>
        dsimp only [Option.map_none]
        cases f.closed? last x with
        | some y => exact ih f.isSequel y
        | none => rfl

namespace State

/-- **A step does not look at places.** -/
theorem step_bare (s : State) (t : Token) : s.bare.step t.bare = Outcome.bare (s.step t) := by
  by_cases hf : s.focus = .top
  · have hb : s.bare.focus = .top := by rw [bare, hf]; rfl
    rw [step, step, hf, hb]
    exact top_bare s.items s.last t
  · have hb : s.bare.focus ≠ .top := by
      rw [bare]
      cases hc : s.focus <;> first | exact absurd hc hf | simp [Focus.bare]
    rw [step_eq hf, step_eq hb]
    have hm := focusMove_bare s.last t s.focus
    show (focusMove default t.bare s.focus.bare).on (s.items.map Expr.bare)
      (s.stack.map Frame.bare) default t.bare = _
    rw [hm]
    cases focusMove s.last t s.focus with
    | use gs focus => simp [Move.bare, Move.on, Outcome.bare, use, bare]; rfl
    | hand whole x => exact settle_bare s.items s.last t s.stack whole x
    | refuse i => rfl

theorem run_bare (s : State) (ts : List Token) :
    s.bare.run (ts.map Token.bare) = Outcome.bare (s.run ts) := by
  induction ts generalizing s with
  | nil => rfl
  | cons t ts ih =>
    rw [List.map_cons, run, run, step_bare]
    cases s.step t with
    | ok s' => exact ih s'
    | error i => rfl

/-- Tokens that differ in their places only take the reader to states that differ in places only. -/
theorem run_of_bare_eq {s s' : State} {ts us : List Token}
    (h : us.map Token.bare = ts.map Token.bare) (hr : s.run ts = .ok s') :
    ∃ s'', s.run us = .ok s'' ∧ s''.bare = s'.bare := by
  have hb := s.run_bare us
  rw [h, run_bare, hr] at hb
  cases hu : s.run us with
  | ok s'' =>
    rw [hu] at hb
    exact ⟨s'', rfl, (Except.ok.inj hb).symm⟩
  | error i =>
    rw [hu] at hb
    cases hb

end State

end Grammar

end SmallMl
