import SmallMl.Proofs.Grammar.Boundary

/-!
# Which parentheses are open

Grouping, indexing and annotated binders all open parentheses, and each of them remembers where its
own one stands.  `State.openings` collects what a state remembers, the innermost parenthesis first.

* `Reads.leavesOpen`: these are the parentheses that the tokens read so far leave open, and between
  them everything is balanced (`LeavesOpen`).
* `State.step_blames`: an issue is about the token that raised it or about the innermost parenthesis
  that is open, and if a closing parenthesis is missing it is about the latter.
-/

namespace SmallMl.Grammar

/-! ### Parentheses that tokens leave open -/

/-- The tokens leave the parentheses open that stand at the places, the innermost first; between
them everything is balanced. -/
inductive LeavesOpen : List Token → List Location → Prop
  | none {ts : List Token} : Balanced ts → LeavesOpen ts []
  | paren {ts us : List Token} {o : Token} {os : List Location} : LeavesOpen ts os →
      o.kind = .lparen → Balanced us → LeavesOpen (ts ++ o :: us) (o.range.start :: os)

namespace LeavesOpen

variable {ts us : List Token} {o : Token} {os ps : List Location} {l : Location}

theorem single (h : o.kind = .lparen) : LeavesOpen [o] [o.range.start] :=
  .paren (.none .nil) h .nil

theorem append_balanced (h : LeavesOpen ts os) (g : Balanced us) : LeavesOpen (ts ++ us) os := by
  cases h with
  | none hb => exact .none (hb.append g)
  | paren h hk hb =>
    rw [List.append_assoc, List.cons_append]
    exact .paren h hk (hb.append g)

theorem append (h : LeavesOpen ts os) (g : LeavesOpen us ps) :
    LeavesOpen (ts ++ us) (ps ++ os) := by
  induction g with
  | none hb => exact h.append_balanced hb
  | paren _ hk hb ih =>
    rw [← List.append_assoc]
    exact .paren ih hk hb

theorem depth (h : LeavesOpen ts os) (d : Nat) : ts.foldl depthAfter d = d + os.length := by
  induction h with
  | none hb => exact hb d
  | paren _ hk hb ih =>
    rw [List.foldl_append, List.foldl_cons, ih, depthAfter_lparen hk, hb, List.length_cons]
    omega

theorem exists_token (h : LeavesOpen ts (l :: os)) :
    ∃ before o after, ts = before ++ o :: after ∧ o.kind = .lparen ∧ o.range.start = l ∧
      Balanced after := by
  cases h with
  | paren _ hk hb => exact ⟨_, _, _, rfl, hk, rfl, hb⟩

theorem close {c : Token} (h : LeavesOpen ts (l :: os)) (hc : c.kind = .rparen) :
    LeavesOpen (ts ++ [c]) os := by
  cases h with
  | paren h hk hb =>
    rw [List.append_assoc, List.cons_append]
    exact h.append_balanced (.parens hk hb hc)

end LeavesOpen

/-! ### What a state remembers -/

def Frame.opening? : Frame → Option Location
  | paren o _ | index _ o => some o
  | _ => none

def Focus.opening? : Focus → Option Location
  | opened o _ | binderOpened _ o | binderName _ o _ | binderColon _ o _ | binderType _ o _ _ =>
    some o
  | _ => none

def openings (stack : List Frame) : List Location := stack.filterMap Frame.opening?

def State.openings (s : State) : List Location :=
  s.focus.opening?.toList ++ Grammar.openings s.stack

theorem openings_cons (f : Frame) (fs : List Frame) :
    openings (f :: fs) = f.opening?.toList ++ openings fs := by
  rw [openings, List.filterMap_cons]
  cases f.opening? <;> rfl

section

variable {ts : List Token}

theorem CallOf.balanced {f : Expr} {as : List Expr} (h : CallOf ts f as) : Balanced ts := by
  cases h with
  | callee hf => exact hf.balanced
  | arguments _ ha => exact ha.balanced

theorem SlotOf.balanced {slot : Slot} (h : SlotOf ts slot) : Balanced ts := by
  cases h with
  | operand => exact .nil
  | argument hc => exact hc.balanced

theorem FunctionOf.balanced {h : FunctionHead} (hf : FunctionOf ts h) : Balanced ts := by
  cases hf with
  | intro hl hr hn hp =>
    exact ((hp.balanced.cons hn (by simp) (by simp)).cons hr (by simp) (by simp)).cons hl
      (by simp) (by simp)

theorem HeaderOf.balanced {h : Header} (hh : HeaderOf ts h) : Balanced ts := by
  cases hh with
  | plain hl => exact .single hl (by simp) (by simp)
  | function hf => exact hf.balanced

theorem FrameOf.leavesOpen {f : Frame} (h : FrameOf ts f) : LeavesOpen ts f.opening?.toList := by
  have hb : f.isParen = false → Balanced ts := h.balanced
  cases h with
  | paren hs hk => exact (LeavesOpen.none hs.balanced).append (.single hk)
  | @index ts d o a ha hd ho =>
    have h := (LeavesOpen.none (ha.balanced.append (.single hd (by simp) (by simp)))).append
      (.single ho)
    rwa [List.append_assoc] at h
  | _ => exact .none (hb rfl)

theorem StackOf.leavesOpen {stack : List Frame} (h : StackOf ts stack) :
    LeavesOpen ts (openings stack) := by
  induction h with
  | nil => exact .none .nil
  | cons _ hf _ ih =>
    rw [openings_cons]
    exact ih.append hf.leavesOpen

theorem FocusOf.leavesOpen {focus : Focus} (h : FocusOf ts focus) :
    LeavesOpen ts focus.opening?.toList := by
  cases h with
  | start => exact .none .nil
  | opened hs hk => exact (LeavesOpen.none hs.balanced).append (.single hk)
  | atom hx => exact .none hx.balanced
  | call hc => exact .none hc.balanced
  | dot ha hd => exact .none (ha.balanced.append (.single hd (by simp) (by simp)))
  | indexed ha hd ho hi hc => exact .none (ha.balanced.append (.index hd ho hi.balanced hc))
  | semi hx ht => exact .none (hx.balanced.append (.single ht (by simp) (by simp)))
  | letWord hl => exact .none (.single hl (by simp) (by simp))
  | equals hl hb => exact .none (hb.balanced.cons hl (by simp) (by simp))
  | recWord hl hr =>
    exact .none ((Balanced.single hr (by simp) (by simp)).cons hl (by simp) (by simp))
  | params hf => exact .none hf.balanced
  | resultColon hf _ hc => exact .none (hf.balanced.append (.single hc (by simp) (by simp)))
  | resultType hf _ hc hty =>
    exact .none (hf.balanced.append (hty.balanced.cons hc (by simp) (by simp)))
  | binderOpened hh ha => exact (LeavesOpen.none hh.balanced).append (.single ha)
  | binderName hh ha hn => exact .paren (.none hh.balanced) ha (.single hn (by simp) (by simp))
  | binderColon hh ha hn hc =>
    exact .paren (.none hh.balanced) ha
      ((Balanced.single hc (by simp) (by simp)).cons hn (by simp) (by simp))
  | binderType hh ha hn hc hty =>
    exact .paren (.none hh.balanced) ha
      ((hty.balanced.cons hc (by simp) (by simp)).cons hn (by simp) (by simp))

/-- **A state remembers the parentheses that its tokens leave open.** -/
theorem Reads.leavesOpen {s : State} (h : Reads ts s) : LeavesOpen ts s.openings := by
  cases h with
  | top hi => exact .none hi.balanced
  | inside hi hk hf _ =>
    have h := (LeavesOpen.none hi.balanced).append (hk.leavesOpen.append hf.leavesOpen)
    rwa [List.append_nil] at h

end

/-! ### Issues -/

/-- The issue is about the token, or about the innermost parenthesis that is open.  That a closing
parenthesis is missing is said about the latter only. -/
def Blames (t : Token) (os : List Location) (i : Issue) : Prop :=
  i.loc = t.range.start ∧ i.complaint ≠ .expected .rparen ∨ os.head? = some i.loc

section

variable {items : List Expr} {stack : List Frame} {focus : Focus} {last : Location} {t : Token}
  {os : List Location} {i : Issue}

namespace Blames

theorem token {c : Complaint} (h : c ≠ .expected .rparen) :
    Blames t os (.raise t t.range.start c) := .inl ⟨rfl, h⟩

theorem opening (o : Location) (c : Complaint) : Blames t (o :: os) (.raise t o c) := .inr rfl

/-- Parentheses further out do not matter. -/
theorem append (h : Blames t os i) (ps : List Location) : Blames t (os ++ ps) i := by
  refine h.imp_right fun hh => ?_
  rw [List.head?_append, hh, Option.some_or]

end Blames

theorem blames_start {gs : List Frame} (h : startMove gs t = .refuse i) : Blames t os i := by
  unfold startMove at h
  split at h
  · cases h
  split at h
  case h_8 =>
    cases h
    refine .token ?_
    split <;> simp
  all_goals cases h

theorem blames_call {fn : Expr} {args : List Expr} (h : callMove last fn args t = .refuse i) :
    Blames t os i := by
  unfold callMove at h
  split at h
  · cases h
  split at h <;> cases h

theorem malformed_ne (hd : Header) : hd.malformed ≠ .expected .rparen := by
  cases hd <;> simp [Header.malformed]

theorem blames_binder {hd : Header} (h : binderMove hd t = .refuse i) : Blames t os i := by
  unfold binderMove at h
  split at h
  · cases h
  · cases h
  · cases h
    exact .token (malformed_ne hd)

theorem blames_type {next : Ty → Focus} (h : typeMove t next = .refuse i) : Blames t os i := by
  unfold typeMove at h
  split at h
  · split at h
    · cases h
    · cases h
      exact .token (by simp)
  · cases h
    exact .token (by simp)

theorem blames_equals {f : Frame} (h : equalsMove t f = .refuse i) : Blames t os i := by
  unfold equalsMove at h
  split at h
  · cases h
  · cases h
    exact .token (by simp)

theorem blames_move (h : focusMove last t focus = .refuse i) :
    Blames t focus.opening?.toList i := by
  cases focus with
  | top | start => exact blames_start h
  | opened o slot =>
    simp only [focusMove] at h
    split at h
    · cases h
    · exact blames_start h
  | atom x =>
    simp only [focusMove] at h
    split at h
    · cases h
    · exact blames_call h
  | call fn args => exact blames_call h
  | dot a | recWord l =>
    simp only [focusMove] at h
    split at h
    · cases h
    · cases h
      exact .token (by simp)
  | indexed a i =>
    simp only [focusMove] at h
    split at h <;> cases h
  | semi x r =>
    simp only [focusMove] at h
    split at h
    · cases h
    · exact blames_start h
  | letWord l =>
    simp only [focusMove] at h
    split at h
    · cases h
    · exact blames_binder h
  | equals l b => exact blames_equals h
  | params hd =>
    simp only [focusMove] at h
    split at h
    · exact blames_binder h
    split at h
    · cases h
      exact .token (by simp)
    split at h
    · cases h
    · exact blames_equals h
  | resultColon hd => exact blames_type h
  | resultType hd ty =>
    simp only [focusMove] at h
    split at h
    · cases h
    · exact blames_equals h
  | binderOpened hd o | binderName hd o n =>
    simp only [focusMove] at h
    split at h
    · cases h
    · cases h
      exact .opening o _
  | binderColon hd o n => exact blames_type h
  | binderType hd o n ty =>
    simp only [focusMove] at h
    split at h
    · cases h
    split at h
    · cases h
    · cases h
      exact .opening o _

theorem blames_top (h : top items last t = .error i) : Blames t os i := by
  unfold top at h
  split at h
  · cases h
  · cases h
  · have hb := @begin_eq items [] last t []
    rw [List.append_nil, h] at hb
    cases hm : startMove [] t with
    | use gs focus => rw [hm] at hb; cases hb
    | hand whole x => exact absurd hm (startMove_ne_hand _)
    | refuse j =>
      rw [hm] at hb
      cases hb
      exact blames_start hm

/-- A frame that takes no mark and is not complete waits for a parenthesis or for `then`. -/
theorem blames_refusal {f : Frame} {x : Expr} (h : f.closed? last x = none) :
    Blames t f.opening?.toList (f.refusal t) := by
  cases f with
  | paren o _ => exact .opening o _
  | index _ o => exact .opening o _
  | condition => exact .token (by simp)
  | _ => cases h

theorem blames_settle : ∀ {stack : List Frame} {whole : Bool} {x : Expr},
    settle items last t whole x stack = .error i → Blames t (openings stack) i := by
  intro stack
  induction stack with
  | nil =>
    intro whole x h
    rw [settle_nil] at h
    split at h
    · cases h
    · exact blames_top h
  | cons f fs ih =>
    intro whole x h
    rw [settle_cons] at h
    rw [openings_cons]
    split at h
    · cases h
    split at h
    · cases h
    split at h
    · cases h
    split at h
    · next y hy =>
      -- a frame that is completed has no parenthesis open
      have hf : f.opening? = none := by
        cases f <;> first | rfl | cases hy
      rw [hf]
      exact ih h
    · next hy =>
      cases h
      exact (blames_refusal hy).append _

/-- **An issue is about the token or about the innermost parenthesis that is open.** -/
theorem State.step_blames {s : State} (h : s.step t = .error i) : Blames t s.openings i := by
  obtain ⟨items, stack, focus, last⟩ := s
  by_cases hf : focus = .top
  · subst hf
    exact blames_top h
  · rw [State.step_eq hf] at h
    cases hm : focusMove last t focus with
    | use gs focus' => rw [hm] at h; cases h
    | hand whole x =>
      rw [hm] at h
      -- what is handed down has no parenthesis open
      have hp : focus.opening? = none := by
        have hp := parens_of_hand hm
        cases focus <;> first | rfl | cases hp
      rw [State.openings, hp]
      exact blames_settle h
    | refuse j =>
      rw [hm] at h
      cases h
      exact (blames_move hm).append _

end

end SmallMl.Grammar
