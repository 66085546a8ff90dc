import SmallMl.Grammar.Step

/-!
# What a token does to a waiting construct

`settle` hands an expression down the stack.  At each frame one of five things happens, and
`settle_cons` says which: an operator takes the expression for its left operand, a semicolon goes on
with a sequence, the frame takes the mark it has behind the expression (`Frame.taken?`), the frame
is completed and hands its own construct on (`Frame.closed?`), or the token is refused
(`Frame.refusal`).  Everything that is proved about `settle` is an induction over the stack with
these five cases.

The first result of this kind is `State.atEnd_of_step_error`: an issue is at the end of the input
exactly when the token that raised it is the end token.
-/

namespace SmallMl.Grammar

namespace Frame

/-- The construct with `x` in the place it waits for, if nothing has to stand behind `x`; `last` is
the end of the last token. -/
def closed? (last : Location) (x : Expr) : Frame → Option Expr
  | right left op => some (op.combine left x)
  | operand op start => some (.unary ⟨start, last⟩ op x)
  | value array i => some (.put ⟨array.range.start, last⟩ array i x)
  | consequent ifRange c => some (.cond ⟨ifRange.start, last⟩ c x none ifRange none)
  | alternative ifRange c yes elseRange =>
    some (.cond ⟨ifRange.start, last⟩ c yes (some x) ifRange (some elseRange))
  | letBody start b => some (.bind ⟨start, last⟩ b x none)
  | letNext start b body => some (.bind ⟨start, last⟩ b body (some x))
  | recBody start fn ps => some (.bindRec ⟨start, last⟩ fn ps x none)
  | recNext start fn ps body => some (.bindRec ⟨start, last⟩ fn ps body (some x))
  | sequel first semi =>
    some (.bind (Range.span first.range x.range) ⟨discarded, some (.basic .unit), semi⟩ first
      (some x))
  | paren _ _ | index _ _ | condition _ => none

/-- The frames that take the place of the frame, and the focus, when `t` is the mark that the
construct has behind `x`. -/
def taken? (t : Token) (x : Expr) : Frame → Option (List Frame × Focus)
  | paren opening slot =>
    if t.kind = .rparen then some ([], slot.fill (x.withRange ⟨opening, t.range.stop⟩)) else none
  | index array _ => if t.kind = .rparen then some ([], .indexed array x) else none
  | condition ifRange =>
    if t.kind = .thenWord then some ([consequent ifRange x], .start) else none
  | consequent ifRange c =>
    if t.kind = .elseWord then some ([alternative ifRange c x t.range], .start) else none
  | letBody start b => if t.kind = .inWord then some ([letNext start b x], .start) else none
  | recBody start fn ps =>
    if t.kind = .inWord then some ([recNext start fn ps x], .start) else none
  | _ => none

def refusal (t : Token) : Frame → Issue
  | paren opening _ | index _ opening => .raise t opening (.expected .rparen)
  | _ => .raise t t.range.start (.expected .thenWord)

/-- The frame makes its expression the rest of a sequence. -/
def isSequel : Frame → Bool
  | sequel _ _ => true
  | _ => false

/-- The token `t` behind `x` is a semicolon that goes on with the sequence the frame waits for. -/
def goesOn (f : Frame) (whole : Bool) (x : Expr) (t : Token) : Bool :=
  f.isSequence && !whole && t.kind = .semi && !x.endsSequence

theorem goesOn_iff {f : Frame} {whole : Bool} {x : Expr} {t : Token} :
    f.goesOn whole x t = true ↔
      f.isSequence = true ∧ whole = false ∧ t.kind = .semi ∧ x.endsSequence = false := by
  simp [goesOn, and_assoc]

end Frame

section

variable (items : List Expr) (last : Location) (t : Token)

theorem settle_nil (whole : Bool) (x : Expr) :
    settle items last t whole x [] =
      match binding? 0 t with
      | some op => .ok (.use items [.right x op] t .start)
      | none => top (x :: items) last t := by
  cases h : binding? 0 t with
  | some op => simp only [settle, h]
  | none => simp only [settle, h]

/-- **What happens at a frame.** -/
theorem settle_cons (whole : Bool) (x : Expr) (f : Frame) (fs : List Frame) :
    settle items last t whole x (f :: fs) =
      match binding? f.strength t with
      | some op => .ok (.use items (.right x op :: f :: fs) t .start)
      | none =>
        if f.goesOn whole x t then .ok (.use items (f :: fs) t (.semi x t.range))
        else match f.taken? t x with
          | some (gs, focus) => .ok (.use items (gs ++ fs) t focus)
          | none =>
            match f.closed? last x with
            | some y => settle items last t f.isSequel y fs
            | none => .error (f.refusal t) := by
  rw [settle.eq_def]
  dsimp only
  cases binding? f.strength t with
  | some op => rfl
  | none =>
    by_cases hg : f.goesOn whole x t = true
    · exact (if_pos hg).trans (if_pos hg).symm
    · refine (if_neg hg).trans (Eq.trans ?_ (if_neg hg).symm)
      cases f with
      | paren | index | condition | consequent | letBody | recBody =>
        simp only [Frame.taken?]
        split <;> rfl
      | right | operand | value | alternative | letNext | recNext | sequel => rfl

end

theorem binding?_of_kind {t : Token} {k : Kind} (h : t.kind = k) (hk : k.operator? = none)
    (n : Nat) : binding? n t = none := by
  rw [binding?, h, hk]
  rfl

/-! ### The end token

It is no operator and no mark, so it completes every construct that can be completed. -/

theorem kind_of_isEof {t : Token} (h : t.isEof = true) : t.kind = .eof := by
  rw [Token.isEof] at h
  cases hk : t.kind <;> rw [hk] at h <;> first | rfl | cases h

section

variable {t : Token} (ht : t.kind = .eof)

include ht

theorem binding?_eof (n : Nat) : binding? n t = none := binding?_of_kind ht rfl n

theorem goesOn_eof (f : Frame) (whole : Bool) (x : Expr) : f.goesOn whole x t = false := by
  simp [Frame.goesOn, ht]

theorem taken?_eof (f : Frame) (x : Expr) : f.taken? t x = none := by
  cases f <;> simp [Frame.taken?, ht]

end

/-! ### Issues -/

/-- Everything that goes wrong at the token `t` is raised at `t`. -/
def RaisedAt (t : Token) (o : Outcome) : Prop :=
  ∀ i, o = .error i → ∃ loc c, i = .raise t loc c

theorem raisedAt_ok (t : Token) (s : State) : RaisedAt t (.ok s) := by
  intro i h
  cases h

theorem raisedAt_raise (t : Token) (loc : Location) (c : Complaint) :
    RaisedAt t (.error (.raise t loc c)) := by
  intro i h
  cases h
  exact ⟨loc, c, rfl⟩

theorem raisedAt_begin (items : List Expr) (stack : List Frame) (t : Token) :
    RaisedAt t (begin items stack t) := by
  unfold begin
  split
  · exact raisedAt_ok _ _
  split
  all_goals first | exact raisedAt_ok _ _ | exact raisedAt_raise _ _ _

theorem raisedAt_top (items : List Expr) (last : Location) (t : Token) :
    RaisedAt t (top items last t) := by
  unfold top
  split
  · exact raisedAt_ok _ _
  · exact raisedAt_ok _ _
  · exact raisedAt_begin _ _ _

theorem raisedAt_refusal (t : Token) (f : Frame) : RaisedAt t (.error (f.refusal t)) := by
  cases f <;> exact raisedAt_raise _ _ _

theorem raisedAt_settle (items : List Expr) (last : Location) (t : Token) (stack : List Frame) :
    ∀ (whole : Bool) (x : Expr), RaisedAt t (settle items last t whole x stack) := by
  induction stack with
  | nil =>
    intro whole x
    rw [settle_nil]
    split
    · exact raisedAt_ok _ _
    · exact raisedAt_top _ _ _
  | cons f fs ih =>
    intro whole x
    rw [settle_cons]
    split
    · exact raisedAt_ok _ _
    split
    · exact raisedAt_ok _ _
    split
    · exact raisedAt_ok _ _
    split
    · exact ih _ _
    · exact raisedAt_refusal _ _

namespace State

theorem raisedAt_stepCall (s : State) (fn : Expr) (args : List Expr) (t : Token) :
    RaisedAt t (s.stepCall fn args t) := by
  unfold stepCall
  split
  · exact raisedAt_ok _ _
  split
  · exact raisedAt_ok _ _
  · exact raisedAt_settle _ _ _ _ _ _

theorem raisedAt_stepIndexed (s : State) (array index : Expr) (t : Token) :
    RaisedAt t (s.stepIndexed array index t) := by
  unfold stepIndexed
  split
  · exact raisedAt_ok _ _
  · exact raisedAt_ok _ _
  · exact raisedAt_settle _ _ _ _ _ _

theorem raisedAt_stepBinder (s : State) (h : Header) (t : Token) :
    RaisedAt t (s.stepBinder h t) := by
  unfold stepBinder
  split
  · exact raisedAt_ok _ _
  · exact raisedAt_ok _ _
  · exact raisedAt_raise _ _ _

theorem raisedAt_stepType (s : State) (t : Token) (focus : Ty → Focus) :
    RaisedAt t (s.stepType t focus) := by
  unfold stepType
  split
  · split
    · exact raisedAt_ok _ _
    · exact raisedAt_raise _ _ _
  · exact raisedAt_raise _ _ _

theorem raisedAt_stepEquals (s : State) (t : Token) (f : Frame) :
    RaisedAt t (s.stepEquals t f) := by
  unfold stepEquals
  split
  · exact raisedAt_ok _ _
  · exact raisedAt_raise _ _ _

theorem raisedAt_stepParams (s : State) (h : FunctionHead) (t : Token) :
    RaisedAt t (s.stepParams h t) := by
  unfold stepParams
  split
  · exact raisedAt_stepBinder _ _ _
  split
  · exact raisedAt_raise _ _ _
  split
  · exact raisedAt_ok _ _
  · exact raisedAt_stepEquals _ _ _

theorem raisedAt_step (s : State) (t : Token) : RaisedAt t (s.step t) := by
  unfold step
  cases s.focus with
  | top => exact raisedAt_top _ _ _
  | start => exact raisedAt_begin _ _ _
  | opened opening slot =>
    dsimp only
    split
    · exact raisedAt_ok _ _
    · exact raisedAt_begin _ _ _
  | atom x =>
    dsimp only
    split
    · exact raisedAt_ok _ _
    · exact raisedAt_stepCall _ _ _ _
  | call fn args => exact raisedAt_stepCall _ _ _ _
  | indexed array index => exact raisedAt_stepIndexed _ _ _ _
  | semi x semi =>
    dsimp only
    split
    · exact raisedAt_settle _ _ _ _ _ _
    · exact raisedAt_begin _ _ _
  | letWord start =>
    dsimp only
    split
    · exact raisedAt_ok _ _
    · exact raisedAt_stepBinder _ _ _
  | equals start b => exact raisedAt_stepEquals _ _ _
  | params h => exact raisedAt_stepParams _ _ _
  | resultColon h => exact raisedAt_stepType _ _ _
  | binderColon h opening name => exact raisedAt_stepType _ _ _
  | resultType h type =>
    dsimp only
    split
    · exact raisedAt_ok _ _
    · exact raisedAt_stepEquals _ _ _
  | dot | recWord | binderOpened | binderName =>
    dsimp only
    split
    · exact raisedAt_ok _ _
    · exact raisedAt_raise _ _ _
  | binderType h opening name type =>
    dsimp only
    split
    · exact raisedAt_ok _ _
    split
    · exact raisedAt_ok _ _
    · exact raisedAt_raise _ _ _

/-- **An issue is at the end of the input exactly when the end token raised it.** -/
theorem atEnd_of_step_error {s : State} {t : Token} {i : Issue} (h : s.step t = .error i) :
    i.atEnd = t.isEof := by
  obtain ⟨loc, c, rfl⟩ := raisedAt_step s t i h
  rfl

end State

end SmallMl.Grammar
