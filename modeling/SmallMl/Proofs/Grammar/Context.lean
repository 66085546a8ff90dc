import SmallMl.Proofs.Grammar.Reading
import SmallMl.Proofs.Token.Placement

/-!
# Expressions in context

The reader looks at the stack only through `settle`, and at the frames below an expression only when
the expression is complete.  So an expression is read in the same way wherever it stands:

* `focusMove` says what a token does to a focus, whatever the stack; `State.step_eq` says that a
  step is just that.
* `State.run_over`: a run that completes no item runs the same over more frames.
* `Expression ts x`: the tokens `ts`, read on their own, are the expression `x`.
  `Expression.run_end` says that they are `x` in every context that ends behind them.
* `Program.parse_of_expression`: a text with such tokens is a program with the one item.
-/

namespace SmallMl

namespace Grammar

/-! ### Moves -/

inductive Move
  /-- The token is used up, the frames are put on the stack and the focus changes. -/
  | use (gs : List Frame) (focus : Focus)
  /-- The focus is complete and is handed down the stack. -/
  | hand (whole : Bool) (x : Expr)
  | refuse (i : Issue)

def Move.on (items : List Expr) (stack : List Frame) (last : Location) (t : Token) :
    Move → Outcome
  | use gs focus => .ok (.use items (gs ++ stack) t focus)
  | hand whole x => settle items last t whole x stack
  | refuse i => .error i

/-- The token starts an expression on the frames `gs`. -/
def startMove (gs : List Frame) (t : Token) : Move :=
  match t.leaf? with
  | some x => .use gs (.atom x)
  | none =>
    match t.kind with
    | .lparen => .use gs (.opened t.range.start .operand)
    | .notWord => .use (.operand .not t.range.start :: gs) .start
    | .operator .minus => .use (.operand .neg t.range.start :: gs) .start
    | .operator .minusDot => .use (.operand .fneg t.range.start :: gs) .start
    | .ifWord => .use (.condition t.range :: gs) .start
    | .letWord => .use gs (.letWord t.range.start)
    | .arrayMake => .use gs (.call (.var t.range arrayMake) [])
    | _ => .refuse (.unexpected t)

def callMove (last : Location) (fn : Expr) (args : List Expr) (t : Token) : Move :=
  match t.leaf? with
  | some x => .use [] (.call fn (x :: args))
  | none =>
    if t.kind = .lparen then .use [] (.opened t.range.start (.argument fn args))
    else .hand false (State.callOf ⟨[], [], .start, last⟩ fn args)

def binderMove (h : Header) (t : Token) : Move :=
  match t.kind with
  | .ident => .use [] (h.bound ⟨t.name, none, t.range⟩)
  | .lparen => .use [] (.binderOpened h t.range.start)
  | _ => .refuse (.raise t t.range.start h.malformed)

def typeMove (t : Token) (focus : Ty → Focus) : Move :=
  if t.kind = .ident then
    match Basic.ofName? t.lit with
    | some b => .use [] (focus (.basic b))
    | none => .refuse (.raise t t.range.start (.unknownType t.name))
  else .refuse (.raise t t.range.start .expectedType)

def equalsMove (t : Token) (f : Frame) : Move :=
  if t.kind = .operator .equal then .use [f] .start
  else .refuse (.raise t t.range.start .expectedEquals)

/-- What the token `t` does at a focus inside an item; `last` is the end of the last token. -/
def focusMove (last : Location) (t : Token) : Focus → Move
  | .top | .start => startMove [] t
  | .opened opening slot =>
    if t.kind = .rparen then .use [] (slot.fill (.unit ⟨opening, t.range.stop⟩))
    else startMove [.paren opening slot] t
  | .atom x => if t.kind = .dot then .use [] (.dot x) else callMove last x [] t
  | .call fn args => callMove last fn args t
  | .dot array =>
    if t.kind = .lparen then .use [.index array t.range.start] .start
    else .refuse (.raise t t.range.start .expectedIndex)
  | .indexed array index =>
    match t.kind with
    | .leftArrow => .use [.value array index] .start
    | .dot => .use [] (.dot (.get ⟨array.range.start, last⟩ array index))
    | _ => .hand false (.get ⟨array.range.start, last⟩ array index)
  | .semi x r =>
    if t.kind = .rparen || t.kind = .eof then .hand true x else startMove [.sequel x r] t
  | .letWord start =>
    if t.kind = .recWord then .use [] (.recWord start) else binderMove (.plain start) t
  | .equals start b => equalsMove t (.letBody start b)
  | .recWord start =>
    if t.kind = .ident then .use [] (.params ⟨start, t.name, t.range, []⟩)
    else .refuse (.raise t t.range.start .expectedFunctionName)
  | .params h =>
    if t.kind = .ident || t.kind = .lparen then binderMove (.function h) t
    else if h.params.isEmpty then .refuse (.raise t t.range.start .malformedParams)
    else if t.kind = .colon then .use [] (.resultColon h)
    else equalsMove t (h.frame none)
  | .resultColon h => typeMove t (.resultType h)
  | .resultType h type =>
    if State.isArrayWord t then .use [] (.resultType h (.array type))
    else equalsMove t (h.frame (some type))
  | .binderOpened h opening =>
    if t.kind = .ident then .use [] (.binderName h opening t.name)
    else .refuse (.raise t opening h.malformed)
  | .binderName h opening name =>
    if t.kind = .colon then .use [] (.binderColon h opening name)
    else .refuse (.raise t opening h.malformed)
  | .binderColon h opening name => typeMove t (.binderType h opening name)
  | .binderType h opening name type =>
    if State.isArrayWord t then .use [] (.binderType h opening name (.array type))
    else if t.kind = .rparen then
      .use [] (h.bound ⟨name, some type, ⟨opening, t.range.stop⟩⟩)
    else .refuse (.raise t opening h.malformed)

section

variable {items : List Expr} {stack : List Frame} {last : Location} {t : Token}

theorem begin_eq (gs : List Frame) :
    begin items (gs ++ stack) t = (startMove gs t).on items stack last t := by
  unfold begin startMove
  cases t.leaf? with
  | some x => rfl
  | none =>
    dsimp only
    generalize t.kind = k
    cases k with
    | operator op => cases op <;> rfl
    | _ => rfl

theorem State.stepCall_eq (s : State) (fn : Expr) (args : List Expr) :
    s.stepCall fn args t = (callMove s.last fn args t).on s.items s.stack s.last t := by
  unfold State.stepCall callMove
  cases t.leaf? with
  | some x => rfl
  | none =>
    dsimp only
    split <;> rfl

theorem State.stepBinder_eq (s : State) (h : Header) :
    s.stepBinder h t = (binderMove h t).on s.items s.stack s.last t := by
  unfold State.stepBinder binderMove
  generalize t.kind = k
  cases k <;> rfl

theorem State.stepType_eq (s : State) (focus : Ty → Focus) :
    s.stepType t focus = (typeMove t focus).on s.items s.stack s.last t := by
  unfold State.stepType typeMove
  split
  · cases Basic.ofName? t.lit <;> rfl
  · rfl

theorem State.stepEquals_eq (s : State) (f : Frame) :
    s.stepEquals t f = (equalsMove t f).on s.items s.stack s.last t := by
  unfold State.stepEquals equalsMove
  split <;> rfl

/-- **A step is the move of its focus**, between two items excepted. -/
theorem State.step_eq {s : State} (h : s.focus ≠ .top) :
    s.step t = (focusMove s.last t s.focus).on s.items s.stack s.last t := by
  obtain ⟨items, stack, focus, last⟩ := s
  cases focus with
  | top => exact absurd rfl h
  | start => exact begin_eq []
  | opened opening slot =>
    simp only [State.step, focusMove]
    split
    · rfl
    · exact begin_eq [.paren opening slot]
  | atom x =>
    simp only [State.step, focusMove]
    split
    · rfl
    · exact State.stepCall_eq _ x []
  | call fn args => exact State.stepCall_eq _ fn args
  | indexed array index =>
    simp only [State.step, focusMove, State.stepIndexed]
    generalize t.kind = k
    cases k <;> rfl
  | semi x r =>
    simp only [State.step, focusMove]
    split
    · rfl
    · exact begin_eq [.sequel x r]
  | letWord start =>
    simp only [State.step, focusMove]
    split
    · rfl
    · exact State.stepBinder_eq _ _
  | equals start b => exact State.stepEquals_eq _ _
  | params hd =>
    simp only [State.step, focusMove, State.stepParams]
    split
    · exact State.stepBinder_eq _ _
    split
    · rfl
    split
    · rfl
    · exact State.stepEquals_eq _ _
  | resultColon hd => exact State.stepType_eq _ _
  | binderColon hd opening name => exact State.stepType_eq _ _
  | resultType hd type =>
    simp only [State.step, focusMove]
    split
    · rfl
    · exact State.stepEquals_eq _ _
  | dot | recWord | binderOpened | binderName =>
    simp only [State.step, focusMove]
    split <;> rfl
  | binderType hd opening name type =>
    simp only [State.step, focusMove]
    split
    · rfl
    split <;> rfl

end

/-! ### More frames below -/

/-- The state with other items and with more frames below its own. -/
def State.over (s : State) (items : List Expr) (fs : List Frame) : State :=
  ⟨items, s.stack ++ fs, s.focus, s.last⟩

/-- The frame on top takes every operator into the expression that it waits for, as the top level
does. -/
def Loose : List Frame → Prop
  | [] => True
  | f :: _ => f.strength = 0

theorem fill_ne_top (slot : Slot) (x : Expr) : slot.fill x ≠ .top := by
  cases slot <;> simp [Slot.fill]

theorem bound_ne_top (h : Header) (b : Binder) : h.bound b ≠ .top := by
  cases h <;> simp [Header.bound]

theorem taken?_ne_top {f : Frame} {t : Token} {x : Expr} {gs : List Frame} {focus : Focus}
    (h : f.taken? t x = some (gs, focus)) : focus ≠ .top := by
  cases f with
  | paren | index | condition | consequent | letBody | recBody =>
    rw [Frame.taken?] at h
    split at h
    · cases h
      first | exact fill_ne_top _ _ | simp
    · cases h
  | _ => cases h

section

variable {items : List Expr} {fs : List Frame} {last : Location} {t : Token} {s' : State}

theorem items_begin {stack : List Frame} (h : begin items stack t = .ok s') : s'.items = items := by
  unfold begin at h
  split at h
  · cases h
    rfl
  split at h <;> cases h <;> rfl

theorem items_top (h : top items last t = .ok s') : s'.items = items := by
  unfold top at h
  split at h
  · cases h
    rfl
  · cases h
    rfl
  · exact items_begin h

/-- Handing an expression down loses no item. -/
theorem items_settle {stack : List Frame} : ∀ {whole : Bool} {x : Expr},
    settle items last t whole x stack = .ok s' → s'.items = [] → items = [] := by
  induction stack with
  | nil =>
    intro whole x h hn
    rw [settle_nil] at h
    split at h
    · cases h
      exact hn
    · rw [items_top h] at hn
      cases hn
  | cons f fs ih =>
    intro whole x h hn
    rw [settle_cons] at h
    split at h
    · cases h
      exact hn
    split at h
    · cases h
      exact hn
    split at h
    · cases h
      exact hn
    split at h
    · exact ih h hn
    · cases h

/-- **Handing an expression down over more frames.** -/
theorem settle_over {inner : List Frame} (hl : Loose fs) : ∀ {whole : Bool} {x : Expr},
    settle [] last t whole x inner = .ok s' → s'.items = [] →
      settle items last t whole x (inner ++ fs) = .ok (s'.over items fs) ∧ s'.focus ≠ .top := by
  induction inner with
  | nil =>
    intro whole x h hn
    rw [settle_nil] at h
    split at h
    · next op ho =>
      cases h
      refine ⟨?_, by simp [State.use]⟩
      cases fs with
      | nil =>
        rw [List.append_nil, settle_nil, ho]
        rfl
      | cons f fs =>
        have hf : f.strength = 0 := hl
        rw [List.nil_append, settle_cons, hf, ho]
        rfl
    · rw [items_top h] at hn
      cases hn
  | cons f inner ih =>
    intro whole x h hn
    rw [settle_cons] at h
    rw [List.cons_append, settle_cons]
    split at h
    · cases h
      exact ⟨rfl, by simp [State.use]⟩
    split at h
    · next hg =>
      cases h
      rw [if_pos hg]
      exact ⟨rfl, by simp [State.use]⟩
    next hg =>
    rw [if_neg hg]
    split at h
    · next gs focus hk =>
      cases h
      refine ⟨?_, taken?_ne_top hk⟩
      simp only [State.over, State.use, List.append_assoc]
    split at h
    · exact ih h hn
    · cases h

theorem startMove_ne_top {gs gs' : List Frame} {focus : Focus}
    (h : startMove gs t = .use gs' focus) : focus ≠ .top := by
  unfold startMove at h
  split at h
  · cases h
    simp
  split at h <;> cases h <;> simp

theorem startMove_ne_hand {whole : Bool} {x : Expr} (gs : List Frame) :
    startMove gs t ≠ .hand whole x := by
  intro h
  unfold startMove at h
  split at h
  · cases h
  split at h <;> cases h

theorem callMove_ne_top {fn : Expr} {args : List Expr} {gs : List Frame} {focus : Focus}
    (h : callMove last fn args t = .use gs focus) : focus ≠ .top := by
  unfold callMove at h
  split at h
  · cases h
    simp
  split at h <;> cases h
  simp

theorem binderMove_ne_top {hd : Header} {gs : List Frame} {focus : Focus}
    (h : binderMove hd t = .use gs focus) : focus ≠ .top := by
  unfold binderMove at h
  split at h <;> cases h
  · exact bound_ne_top _ _
  · simp

theorem typeMove_ne_top {next : Ty → Focus} {gs : List Frame} {focus : Focus}
    (hn : ∀ ty, next ty ≠ .top) (h : typeMove t next = .use gs focus) : focus ≠ .top := by
  unfold typeMove at h
  split at h
  · split at h <;> cases h
    exact hn _
  · cases h

theorem equalsMove_ne_top {f : Frame} {gs : List Frame} {focus : Focus}
    (h : equalsMove t f = .use gs focus) : focus ≠ .top := by
  unfold equalsMove at h
  split at h <;> cases h
  simp

theorem focusMove_ne_top {focus focus' : Focus} {gs : List Frame}
    (h : focusMove last t focus = .use gs focus') : focus' ≠ .top := by
  cases focus with
  | top | start => exact startMove_ne_top h
  | opened o slot =>
    simp only [focusMove] at h
    split at h
    · cases h
      exact fill_ne_top _ _
    · exact startMove_ne_top h
  | atom x =>
    simp only [focusMove] at h
    split at h
    · cases h
      simp
    · exact callMove_ne_top h
  | call fn args => exact callMove_ne_top h
  | indexed a i =>
    simp only [focusMove] at h
    split at h <;> cases h <;> simp
  | semi x r =>
    simp only [focusMove] at h
    split at h
    · cases h
    · exact startMove_ne_top h
  | letWord l =>
    simp only [focusMove] at h
    split at h
    · cases h
      simp
    · exact binderMove_ne_top h
  | equals l b => exact equalsMove_ne_top h
  | params hd =>
    simp only [focusMove] at h
    split at h
    · exact binderMove_ne_top h
    split at h
    · cases h
    split at h
    · cases h
      simp
    · exact equalsMove_ne_top h
  | resultColon hd => exact typeMove_ne_top (by simp) h
  | binderColon hd o n => exact typeMove_ne_top (by simp) h
  | resultType hd ty =>
    simp only [focusMove] at h
    split at h
    · cases h
      simp
    · exact equalsMove_ne_top h
  | dot | recWord | binderOpened | binderName =>
    simp only [focusMove] at h
    split at h <;> cases h
    simp
  | binderType hd o n ty =>
    simp only [focusMove] at h
    split at h
    · cases h
      simp
    split at h <;> cases h
    exact bound_ne_top _ _

end

namespace State

theorem items_step {s s' : State} {t : Token} (h : s.step t = .ok s') (hn : s'.items = []) :
    s.items = [] := by
  by_cases hf : s.focus = .top
  · rw [step, hf] at h
    rwa [items_top h] at hn
  rw [step_eq hf] at h
  cases hm : focusMove s.last t s.focus with
  | use gs focus =>
    rw [hm] at h
    cases h
    exact hn
  | hand whole x =>
    rw [hm] at h
    exact items_settle h hn
  | refuse i =>
    rw [hm] at h
    cases h

/-- **A step over more frames.** -/
theorem step_over {s s' : State} {t : Token} {items : List Expr} {fs : List Frame} (hl : Loose fs)
    (hf : s.focus ≠ .top) (h : s.step t = .ok s') (hn : s'.items = []) :
    (s.over items fs).step t = .ok (s'.over items fs) ∧ s'.focus ≠ .top := by
  have hi := items_step h hn
  rw [step_eq hf] at h
  rw [step_eq (s := s.over items fs) hf]
  simp only [State.over]
  cases hm : focusMove s.last t s.focus with
  | use gs focus =>
    rw [hm] at h
    cases h
    refine ⟨?_, focusMove_ne_top hm⟩
    simp only [Move.on, use, List.append_assoc]
  | hand whole x =>
    rw [hm, hi] at h
    exact settle_over hl h hn
  | refuse i =>
    rw [hm] at h
    cases h

theorem items_run : ∀ {ts : List Token} {s s' : State}, s.run ts = .ok s' → s'.items = [] →
    s.items = [] := by
  intro ts
  induction ts with
  | nil =>
    intro s s' h hn
    cases h
    exact hn
  | cons t ts ih =>
    intro s s' h hn
    obtain ⟨s₁, h₁, h₂⟩ := run_cons_inv h
    exact items_step h₁ (ih h₂ hn)

/-- A run that completes no item stays inside it, and does not meet the end. -/
theorem run_ne_top : ∀ {ts : List Token} {s s' : State}, s.focus ≠ .top → s.run ts = .ok s' →
    s'.items = [] → s'.focus ≠ .top ∧ ∀ t ∈ ts, t.isEof = false := by
  intro ts
  induction ts with
  | nil =>
    intro s s' hf h _
    cases h
    exact ⟨hf, by simp⟩
  | cons t ts ih =>
    intro s s' hf h hn
    obtain ⟨s₁, h₁, h₂⟩ := run_cons_inv h
    obtain ⟨_, hf₁⟩ := @step_over s s₁ t [] [] trivial hf h₁ (items_run h₂ hn)
    obtain ⟨hf', hts⟩ := ih hf₁ h₂ hn
    refine ⟨hf', List.forall_mem_cons.2 ⟨?_, hts⟩⟩
    cases ht : t.isEof with
    | false => rfl
    | true => exact absurd (focus_of_step_eof (kind_of_isEof ht) h₁) hf₁

/-- **A run that completes no item runs the same over more frames.** -/
theorem run_over {items : List Expr} {fs : List Frame} (hl : Loose fs) :
    ∀ {ts : List Token} {s s' : State}, s.focus ≠ .top → s.run ts = .ok s' → s'.items = [] →
      (s.over items fs).run ts = .ok (s'.over items fs) := by
  intro ts
  induction ts with
  | nil =>
    intro s s' _ h _
    cases h
    rfl
  | cons t ts ih =>
    intro s s' hf h hn
    obtain ⟨s₁, h₁, h₂⟩ := run_cons_inv h
    obtain ⟨hs, hf₁⟩ := step_over hl hf h₁ (items_run h₂ hn)
    rw [run_cons hs]
    exact ih hf₁ h₂ hn

end State

/-! ### Expressions -/

/-- Nothing of an expression has been read. -/
def State.fresh : State := ⟨[], [], .start, default⟩

/-- The tokens, read on their own, are the expression: none of them completes it, and the end
does. -/
def Expression (ts : List Token) (x : Expr) : Prop :=
  ∃ s, State.fresh.run ts = .ok s ∧ s.items = [] ∧
    ∀ t, t.isEof = true → s.step t = .ok ⟨[x], [], .top, s.last⟩

theorem Reads.last_eq {ts : List Token} {s : State} (h : Reads ts s) : s.last = endOf ts := by
  cases h <;> rfl

section

variable {items : List Expr} {last : Location} {t : Token}

/-- The end continues no sequence, whole or not. -/
theorem settle_eof_flag (ht : t.kind = .eof) (whole : Bool) (x : Expr) (fs : List Frame) :
    settle items last t whole x fs = settle items last t false x fs := by
  cases fs with
  | nil => rw [settle_nil, settle_nil]
  | cons f fs => rw [settle_cons, settle_cons, goesOn_eof ht, goesOn_eof ht]

/-- The end completes the frames of an expression, and then hands it to the frames below. -/
theorem settle_eof_over (ht : t.kind = .eof) {inner fs : List Frame} {y : Expr} :
    ∀ {whole : Bool} {x : Expr}, settle [] last t whole x inner = .ok ⟨[y], [], .top, last⟩ →
      settle items last t whole x (inner ++ fs) = settle items last t false y fs := by
  induction inner with
  | nil =>
    intro whole x h
    rw [settle_nil, binding?_eof ht] at h
    simp only [top, ht] at h
    cases h
    exact settle_eof_flag ht whole _ fs
  | cons f inner ih =>
    intro whole x h
    rw [settle_cons, binding?_eof ht, goesOn_eof ht, taken?_eof ht] at h
    rw [List.cons_append, settle_cons, binding?_eof ht, goesOn_eof ht, taken?_eof ht]
    simp only [Bool.false_eq_true, if_false] at h ⊢
    split at h
    · exact ih h
    · cases h

end

namespace Expression

variable {ts : List Token} {x : Expr}

/-- What reading an expression comes to: behind its last token the end completes the focus, and
then the frames. -/
theorem spec (h : Expression ts x) : ∃ s, State.fresh.run ts = .ok s ∧ s.items = [] ∧
    s.focus ≠ .top ∧ Reads ts s ∧ ts ≠ [] ∧ ∀ t, t.isEof = true → ∃ whole y,
      focusMove s.last t s.focus = .hand whole y ∧
      settle [] s.last t whole y s.stack = .ok ⟨[x], [], .top, s.last⟩ := by
  obtain ⟨s, hr, hn, he⟩ := h
  obtain ⟨hf, hte⟩ := State.run_ne_top (by simp [State.fresh]) hr hn
  have hfresh : Reads [] State.fresh := Reads.inside .nil .nil .start (by simp)
  have hreads : Reads ts s := hfresh.run hte hr
  refine ⟨s, hr, hn, hf, hreads, ?_, ?_⟩
  · rintro rfl
    cases hr
    have h0 : begin [] [] (Stream.endToken default) = .ok _ := he (Stream.endToken default) rfl
    exact begin_eof rfl h0
  · intro t ht
    have ht' := he t ht
    rw [State.step_eq hf] at ht'
    cases hm : focusMove s.last t s.focus with
    | use gs focus =>
      rw [hm] at ht'
      have hx : s.items = [x] := congrArg State.items (Except.ok.inj ht')
      rw [hn] at hx
      cases hx
    | hand whole y =>
      rw [hm, hn] at ht'
      exact ⟨whole, y, rfl, ht'⟩
    | refuse i =>
      rw [hm] at ht'
      cases ht'

/-- The state behind the tokens does not depend on where the last token before them ended. -/
theorem run_start (h : ts ≠ []) (items : List Expr) (fs : List Frame) (l : Location) :
    State.run ⟨items, fs, .start, l⟩ ts = (State.fresh.over items fs).run ts := by
  cases ts with
  | nil => exact absurd rfl h
  | cons t ts => rfl

/-- **An expression that the text ends with.**  The end hands it to the frames below it. -/
theorem run_end (h : Expression ts x) {items : List Expr} {fs : List Frame} (hl : Loose fs)
    (l : Location) : ∃ s, State.run ⟨items, fs, .start, l⟩ ts = .ok s ∧
      ∀ t, t.isEof = true → s.step t = settle items (endOf ts) t false x fs := by
  obtain ⟨s, hr, hn, hf, hreads, hne, he⟩ := h.spec
  refine ⟨s.over items fs, ?_, ?_⟩
  · rw [run_start hne]
    exact State.run_over hl (by simp [State.fresh]) hr hn
  · intro t ht
    obtain ⟨whole, y, hm, hs⟩ := he t ht
    rw [State.step_eq (s := s.over items fs) hf]
    simp only [State.over]
    rw [hm, ← hreads.last_eq]
    exact settle_eof_over (kind_of_isEof ht) hs

end Expression

/-! ### The first token -/

theorem Expression.first {ts : List Token} {x : Expr} (h : Expression ts x) :
    ∃ t us, ts = t :: us ∧ t.kind ≠ .semi ∧ t.kind ≠ .rparen ∧ t.kind ≠ .eof := by
  obtain ⟨s, hr, _, _, _, hne, _⟩ := h.spec
  obtain ⟨t, us, rfl⟩ := List.exists_cons_of_ne_nil hne
  obtain ⟨s₁, h₁, _⟩ := State.run_cons_inv hr
  have hb : begin [] [] t = .ok s₁ := h₁
  refine ⟨t, us, rfl, ?_, ?_, fun hk => begin_eof hk hb⟩
  · intro hk
    simp [begin, Token.leaf?, hk] at hb
  · intro hk
    simp [begin, Token.leaf?, hk] at hb

section

variable {items : List Expr} {fs : List Frame} {t : Token} {us : List Token} (l : Location)

theorem run_top (hs : t.kind ≠ .semi) (he : t.kind ≠ .eof) :
    State.run ⟨items, [], .top, l⟩ (t :: us) = State.run ⟨items, [], .start, l⟩ (t :: us) := by
  have h : top items l t = begin items [] t := by
    unfold top
    split
    · next hk => exact absurd hk he
    · next hk => exact absurd hk hs
    · rfl
  simp only [State.run, State.step, h]

theorem run_semi {x : Expr} {r : Range} (hr : t.kind ≠ .rparen) (he : t.kind ≠ .eof) :
    State.run ⟨items, fs, .semi x r, l⟩ (t :: us)
      = State.run ⟨items, .sequel x r :: fs, .start, l⟩ (t :: us) := by
  simp only [State.run, State.step, hr, he, decide_false, Bool.or_self, Bool.false_eq_true,
    if_false]

end

/-! ### Expressions on their own -/

section

variable {items : List Expr} {stack : List Frame} {last : Location} {t : Token} {s s' : State}

theorem settle_eof_item (ht : t.kind = .eof) : ∀ {whole : Bool} {x : Expr},
    settle items last t whole x stack = .ok s' → ∃ y, s' = ⟨y :: items, [], .top, last⟩ ∧
      ∀ t', t'.kind = .eof → settle items last t' whole x stack = .ok s' := by
  induction stack with
  | nil =>
    intro whole x h
    rw [settle_nil, binding?_eof ht] at h
    simp only [top, ht] at h
    cases h
    refine ⟨x, rfl, fun t' ht' => ?_⟩
    rw [settle_nil, binding?_eof ht']
    simp only [top, ht']
  | cons f fs ih =>
    intro whole x h
    rw [settle_cons, binding?_eof ht, goesOn_eof ht, taken?_eof ht] at h
    simp only [Bool.false_eq_true, if_false] at h
    split at h
    · next y hy =>
      obtain ⟨z, hz, hall⟩ := ih h
      refine ⟨z, hz, fun t' ht' => ?_⟩
      rw [settle_cons, binding?_eof ht', goesOn_eof ht', taken?_eof ht', hy]
      exact hall t' ht'
    · cases h

theorem callMove_hand {fn : Expr} {args : List Expr} {whole : Bool} {x : Expr}
    (h : callMove last fn args t = .hand whole x) :
    whole = false ∧ x = State.callOf ⟨[], [], .start, last⟩ fn args := by
  unfold callMove at h
  split at h
  · cases h
  split at h <;> cases h
  exact ⟨rfl, rfl⟩

theorem binderMove_ne_hand {hd : Header} {whole : Bool} {x : Expr} :
    binderMove hd t ≠ .hand whole x := by
  intro h
  unfold binderMove at h
  split at h <;> cases h

theorem typeMove_ne_hand {next : Ty → Focus} {whole : Bool} {x : Expr} :
    typeMove t next ≠ .hand whole x := by
  intro h
  unfold typeMove at h
  split at h
  · split at h <;> cases h
  · cases h

theorem equalsMove_ne_hand {f : Frame} {whole : Bool} {x : Expr} :
    equalsMove t f ≠ .hand whole x := by
  intro h
  unfold equalsMove at h
  split at h <;> cases h

theorem focusMove_hand {focus : Focus} {whole : Bool} {x : Expr}
    (h : focusMove last t focus = .hand whole x) :
    (focus = .atom x ∧ whole = false) ∨
    (∃ fn args, focus = .call fn args ∧ whole = false ∧
      x = State.callOf ⟨[], [], .start, last⟩ fn args) ∨
    (∃ a i, focus = .indexed a i ∧ whole = false ∧ x = .get ⟨a.range.start, last⟩ a i) ∨
    ∃ r, focus = .semi x r ∧ whole = true ∧ t.kind.operator? = none := by
  cases focus with
  | top | start => exact absurd h (startMove_ne_hand _)
  | atom y =>
    simp only [focusMove] at h
    split at h
    · cases h
    · obtain ⟨hw, rfl⟩ := callMove_hand h
      exact .inl ⟨rfl, hw⟩
  | call fn args => exact .inr (.inl ⟨fn, args, rfl, callMove_hand h⟩)
  | indexed a i =>
    simp only [focusMove] at h
    split at h <;> cases h
    exact .inr (.inr (.inl ⟨a, i, rfl, rfl, rfl⟩))
  | semi y r =>
    simp only [focusMove] at h
    split at h
    · next hk =>
      cases h
      refine .inr (.inr (.inr ⟨r, rfl, rfl, ?_⟩))
      rcases Bool.or_eq_true_iff.1 hk with hk | hk <;> rw [of_decide_eq_true hk] <;> rfl
    · exact absurd h (startMove_ne_hand _)
  | opened o slot =>
    simp only [focusMove] at h
    split at h
    · cases h
    · exact absurd h (startMove_ne_hand _)
  | equals l b => exact absurd h equalsMove_ne_hand
  | resultColon hd | binderColon hd o n => exact absurd h typeMove_ne_hand
  | params hd =>
    simp only [focusMove] at h
    split at h
    · exact absurd h binderMove_ne_hand
    split at h
    · cases h
    split at h
    · cases h
    · exact absurd h equalsMove_ne_hand
  | letWord l =>
    simp only [focusMove] at h
    split at h
    · cases h
    · exact absurd h binderMove_ne_hand
  | resultType hd ty =>
    simp only [focusMove] at h
    split at h
    · cases h
    · exact absurd h equalsMove_ne_hand
  | dot | recWord | binderOpened | binderName =>
    simp only [focusMove] at h
    split at h <;> cases h
  | binderType hd o n ty =>
    simp only [focusMove] at h
    split at h
    · cases h
    split at h <;> cases h

/-- The end and a closing parenthesis complete every focus that some token completes. -/
theorem focusMove_closing {c : Token} {focus : Focus} {whole : Bool} {x : Expr}
    (hc : c.kind = .eof ∨ c.kind = .rparen) (h : focusMove last t focus = .hand whole x) :
    focusMove last c focus = .hand whole x := by
  rcases focusMove_hand h with ⟨rfl, rfl⟩ | ⟨fn, args, rfl, rfl, rfl⟩ | ⟨a, i, rfl, rfl, rfl⟩
    | ⟨r, rfl, rfl, -⟩
  · rcases hc with hc | hc <;> simp [focusMove, callMove, Token.leaf?, hc, State.callOf]
  · rcases hc with hc | hc <;> simp [focusMove, callMove, Token.leaf?, hc]
  · rcases hc with hc | hc <;> simp [focusMove, hc]
  · rcases hc with hc | hc <;> simp [focusMove, hc]

/-- The end, where it can be used inside an item, completes that item. -/
theorem State.step_eof_item (hf : s.focus ≠ .top) (ht : t.kind = .eof) (h : s.step t = .ok s') :
    ∃ y, s' = ⟨y :: s.items, [], .top, s.last⟩ ∧ ∀ t', t'.kind = .eof → s.step t' = .ok s' := by
  have htop := focus_of_step_eof ht h
  rw [step_eq hf] at h
  cases hm : focusMove s.last t s.focus with
  | use gs focus =>
    rw [hm] at h
    cases h
    exact absurd htop (focusMove_ne_top hm)
  | hand whole x =>
    rw [hm] at h
    obtain ⟨y, hy, hall⟩ := settle_eof_item ht h
    refine ⟨y, hy, fun t' ht' => ?_⟩
    rw [step_eq hf, focusMove_closing (.inl ht') hm]
    exact hall t' ht'
  | refuse i =>
    rw [hm] at h
    cases h

end

end Grammar

open Grammar

namespace Program

/-- An expression on its own is a program with one item. -/
theorem parse_of_expression {settings : Settings} {text : List Char} {ts : List Token} {x : Expr}
    (hg : (Stream.ofText settings text).Gives ts) (h : Expression ts x) :
    ∃ p, (parse settings text).result = .ok p ∧ p.items = [x] := by
  obtain ⟨t, us, rfl, ht, _, hte⟩ := h.first
  obtain ⟨s, hr, _, he⟩ := h
  have hinit : State.initial.run (t :: us) = .ok s := (run_top default ht hte).trans hr
  obtain ⟨e, hp⟩ := result_parse_of_gives hg hinit he
  exact ⟨_, hp, by rw [items_program]; rfl⟩

end Program

end SmallMl
