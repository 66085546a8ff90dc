import SmallMl.Proofs.Grammar.Replay
import SmallMl.Proofs.Tree.Parts

/-!
# What a state holds

The frames of the stack and the focus hold the expressions that have been read and are not yet part
of another one.  A token moves them about and makes at most one expression of its own (`Made`):

* `focusMove_use`: what a token that is used up makes of the focus, and of what the focus holds.
* `taken?_held`: what becomes of the expressions in a frame that takes its mark.
* `closed?_parts`: a construct that is completed has the expressions of its frame for its parts.
-/

namespace SmallMl.Grammar

def Slot.held : Slot → List Expr
  | operand => []
  | argument fn args => fn :: args

def Frame.held : Frame → List Expr
  | right x _ | index x _ | consequent _ x | letNext _ _ x | recNext _ _ _ x | sequel x _ => [x]
  | operand _ _ | condition _ | letBody _ _ | recBody _ _ _ => []
  | paren _ slot => slot.held
  | value a i => [a, i]
  | alternative _ c y _ => [c, y]

def Focus.held : Focus → List Expr
  | opened _ slot => slot.held
  | atom x | dot x | semi x _ => [x]
  | call fn args => fn :: args
  | indexed a i => [a, i]
  | _ => []

def heldIn (gs : List Frame) (focus : Focus) : List Expr := gs.flatMap Frame.held ++ focus.held

theorem held_waiting {focus : Focus} {f : Frame} (h : focus.waiting? = some f) :
    f.held = focus.held := by
  cases focus <;> cases h <;> rfl

theorem held_bound (h : Header) (b : Binder) : (h.bound b).held = [] := by
  cases h <;> rfl

theorem mem_held_fill {slot : Slot} {x e : Expr} (h : e ∈ (slot.fill x).held) :
    e = x ∨ e ∈ slot.held := by
  cases slot with
  | operand => exact .inl (List.mem_singleton.1 h)
  | argument fn args => simpa [Slot.fill, Focus.held, Slot.held, or_left_comm] using h

/-- An expression that the token `t` makes at a focus; `last` is the end of the token before it. -/
inductive Made (last : Location) (t : Token) : Focus → Expr → Prop
  | leaf {focus : Focus} {x : Expr} : t.leaf? = some x → Made last t focus x
  | make {focus : Focus} : t.kind = .arrayMake → Made last t focus (.var t.range arrayMake)
  | unit {o : Location} {slot : Slot} : t.kind = .rparen →
      Made last t (.opened o slot) (.unit ⟨o, t.range.stop⟩)
  | get {a i : Expr} : Made last t (.indexed a i) (.get ⟨a.range.start, last⟩ a i)

/-- A token opens at most one construct, and its frame then waits for an expression. -/
inductive Shape : List Frame → Focus → Prop
  | stay {focus : Focus} : (∀ x r, focus ≠ .semi x r) → Shape [] focus
  | push {f : Frame} : f.isSequel = false → Shape [f] .start

section

variable {last : Location} {t : Token} {gs : List Frame} {focus focus' : Focus} {f : Frame}
  {x y : Expr}

theorem startMove_held (last : Location) (focus : Focus) (h : startMove [] t = .use gs focus') :
    Shape gs focus' ∧ ∀ e ∈ heldIn gs focus', Made last t focus e := by
  unfold startMove at h
  split at h
  · next x hx =>
    cases h
    refine ⟨.stay (by simp), fun e he => ?_⟩
    rw [List.mem_singleton.1 he]
    exact .leaf hx
  split at h
  case h_7 hk =>
    cases h
    refine ⟨.stay (by simp), fun e he => ?_⟩
    rw [List.mem_singleton.1 he]
    exact .make hk
  all_goals cases h
  · exact ⟨.stay (by simp), by simp [heldIn, Focus.held, Slot.held]⟩
  · exact ⟨.push rfl, by simp [heldIn, Focus.held, Frame.held]⟩
  · exact ⟨.push rfl, by simp [heldIn, Focus.held, Frame.held]⟩
  · exact ⟨.push rfl, by simp [heldIn, Focus.held, Frame.held]⟩
  · exact ⟨.push rfl, by simp [heldIn, Focus.held, Frame.held]⟩
  · exact ⟨.stay (by simp), by simp [heldIn, Focus.held]⟩

theorem startMove_append (gs : List Frame) {gs' : List Frame}
    (h : startMove gs t = .use gs' focus) :
    ∃ hs, gs' = hs ++ gs ∧ startMove [] t = .use hs focus := by
  unfold startMove at h ⊢
  split at h
  · cases h
    exact ⟨[], rfl, rfl⟩
  split at h <;> cases h
  · exact ⟨[], rfl, rfl⟩
  · exact ⟨[_], rfl, rfl⟩
  · exact ⟨[_], rfl, rfl⟩
  · exact ⟨[_], rfl, rfl⟩
  · exact ⟨[_], rfl, rfl⟩
  · exact ⟨[], rfl, rfl⟩
  · exact ⟨[], rfl, rfl⟩

/-- The move stays in the construct, with the expressions that the focus had. -/
abbrev Keeps (last : Location) (t : Token) (focus : Focus) (gs : List Frame) (focus' : Focus) :
    Prop :=
  Shape gs focus' ∧ ∀ e ∈ heldIn gs focus', e ∈ focus.held ∨ Made last t focus e

theorem Keeps.nil (hf : ∀ x r, focus' ≠ .semi x r) (hn : focus'.held = []) :
    Keeps last t focus [] focus' :=
  ⟨.stay hf, by simp [heldIn, hn]⟩

theorem Keeps.frame (hf : f.isSequel = false) (hh : ∀ e ∈ f.held, e ∈ focus.held) :
    Keeps last t focus [f] .start :=
  ⟨.push hf, fun e he => .inl (hh e (by simpa [heldIn, Focus.held] using he))⟩

theorem callMove_keeps {fn : Expr} {args : List Expr} (hh : ∀ e ∈ fn :: args, e ∈ focus.held)
    (h : callMove last fn args t = .use gs focus') : Keeps last t focus gs focus' := by
  unfold callMove at h
  split at h
  · next x hx =>
    cases h
    refine ⟨.stay (by simp), fun e he => ?_⟩
    have he : e = fn ∨ e = x ∨ e ∈ args := by simpa [heldIn, Focus.held] using he
    rcases he with rfl | rfl | he
    · exact .inl (hh _ (by simp))
    · exact .inr (.leaf hx)
    · exact .inl (hh e (by simp [he]))
  split at h <;> cases h
  exact ⟨.stay (by simp), fun e he => .inl (hh e he)⟩

theorem binderMove_keeps {hd : Header} (h : binderMove hd t = .use gs focus') :
    Keeps last t focus gs focus' := by
  unfold binderMove at h
  split at h <;> cases h
  · exact .nil bound_ne_semi (held_bound _ _)
  · exact .nil (by simp) rfl

theorem typeMove_keeps {next : Ty → Focus} (hn : ∀ ty x r, next ty ≠ .semi x r)
    (hh : ∀ ty, (next ty).held = []) (h : typeMove t next = .use gs focus') :
    Keeps last t focus gs focus' := by
  unfold typeMove at h
  split at h
  · split at h <;> cases h
    exact .nil (hn _) (hh _)
  · cases h

theorem equalsMove_keeps (hf : f.isSequel = false) (hh : f.held = [])
    (h : equalsMove t f = .use gs focus') : Keeps last t focus gs focus' := by
  unfold equalsMove at h
  split at h <;> cases h
  exact .frame hf (by simp [hh])

/-- **What a token that is used up makes of the focus.**  Either an expression starts behind it, or
the construct goes on. -/
theorem focusMove_use (h : focusMove last t focus = .use gs focus') :
    (∃ f hs, focus.waiting? = some f ∧ gs = hs ++ [f] ∧ startMove [] t = .use hs focus') ∨
      Keeps last t focus gs focus' := by
  cases focus with
  | top | start =>
    obtain ⟨hs, hh⟩ := startMove_held last _ h
    exact .inr ⟨hs, fun e he => .inr (hh e he)⟩
  | opened o slot =>
    simp only [focusMove] at h
    split at h
    · next hk =>
      cases h
      refine .inr ⟨.stay fill_ne_semi, fun e he => ?_⟩
      rcases mem_held_fill he with rfl | he
      · exact .inr (.unit hk)
      · exact .inl he
    · obtain ⟨hs, rfl, hm⟩ := startMove_append _ h
      exact .inl ⟨_, hs, rfl, rfl, hm⟩
  | semi x r =>
    simp only [focusMove] at h
    split at h
    · cases h
    · obtain ⟨hs, rfl, hm⟩ := startMove_append _ h
      exact .inl ⟨_, hs, rfl, rfl, hm⟩
  | atom x =>
    simp only [focusMove] at h
    split at h
    · cases h
      exact .inr ⟨.stay (by simp), fun e he => .inl he⟩
    · exact .inr (callMove_keeps (fun e he => he) h)
  | call fn args => exact .inr (callMove_keeps (fun e he => he) h)
  | dot a =>
    simp only [focusMove] at h
    split at h <;> cases h
    exact .inr (.frame rfl fun e he => he)
  | indexed a i =>
    simp only [focusMove] at h
    split at h <;> cases h
    · exact .inr (.frame rfl fun e he => he)
    · refine .inr ⟨.stay (by simp), fun e he => .inr ?_⟩
      rw [List.mem_singleton.1 he]
      exact .get
  | letWord l =>
    simp only [focusMove] at h
    split at h
    · cases h
      exact .inr (.nil (by simp) rfl)
    · exact .inr (binderMove_keeps h)
  | equals l b => exact .inr (equalsMove_keeps rfl rfl h)
  | params hd =>
    simp only [focusMove] at h
    split at h
    · exact .inr (binderMove_keeps h)
    split at h
    · cases h
    split at h
    · cases h
      exact .inr (.nil (by simp) rfl)
    · exact .inr (equalsMove_keeps rfl rfl h)
  | resultColon hd => exact .inr (typeMove_keeps (by simp) (fun _ => rfl) h)
  | binderColon hd o n => exact .inr (typeMove_keeps (by simp) (fun _ => rfl) h)
  | resultType hd ty =>
    simp only [focusMove] at h
    split at h
    · cases h
      exact .inr (.nil (by simp) rfl)
    · exact .inr (equalsMove_keeps rfl rfl h)
  | recWord | binderOpened | binderName =>
    simp only [focusMove] at h
    split at h <;> cases h
    exact .inr (.nil (by simp) rfl)
  | binderType hd o n ty =>
    simp only [focusMove] at h
    split at h
    · cases h
      exact .inr (.nil (by simp) rfl)
    split at h <;> cases h
    exact .inr (.nil bound_ne_semi (held_bound _ _))

theorem taken?_held (h : f.taken? t x = some (gs, focus)) :
    Shape gs focus ∧ ∀ e ∈ heldIn gs focus, e ∈ f.held ∨ e = x ∨
      ∃ o slot, f = .paren o slot ∧ t.kind = .rparen ∧ e = x.withRange ⟨o, t.range.stop⟩ := by
  cases f with
  | paren o slot =>
    rw [Frame.taken?] at h
    split at h
    · next hk =>
      cases h
      refine ⟨.stay fill_ne_semi, fun e he => ?_⟩
      rcases mem_held_fill he with rfl | he
      · exact .inr (.inr ⟨o, slot, rfl, hk, rfl⟩)
      · exact .inl he
    · cases h
  | index a o =>
    rw [Frame.taken?] at h
    split at h <;> cases h
    refine ⟨.stay (by simp), fun e he => ?_⟩
    have he : e = a ∨ e = x := by simpa [heldIn, Focus.held] using he
    exact he.imp List.mem_singleton.2 .inl
  | condition | consequent | letBody | recBody =>
    rw [Frame.taken?] at h
    split at h <;> cases h
    refine ⟨.push rfl, fun e he => ?_⟩
    simp only [heldIn, Focus.held, Frame.held, List.flatMap_cons, List.flatMap_nil,
      List.append_nil, List.mem_cons, List.not_mem_nil, or_false] at he ⊢
    tauto
  | _ => cases h

/-- The parts of a completed construct.  Those of an operation follow from `combine_parts`. -/
theorem closed?_parts (h : f.closed? last x = some y) :
    (∃ left op, f = .right left op ∧ y = op.combine left x) ∨
      ∀ e ∈ y.children, e = x ∨ e ∈ f.held := by
  cases f with
  | right left op =>
    cases h
    exact .inl ⟨left, op, rfl, rfl⟩
  | paren | index | condition => cases h
  | _ =>
    cases h
    refine .inr fun e he => ?_
    simp only [Expr.children, Frame.held, Option.toList, List.mem_cons, List.not_mem_nil,
      or_false] at he ⊢
    tauto

/-- The parts of an operation are its operands, or the comparison that it negates. -/
theorem combine_parts (op : Operator) (x y : Expr) : ∀ e ∈ (op.combine x y).children,
    e = x ∨ e = y ∨ op.form.negate = true ∧ ∃ r,
      e = if op.form.swap then .binary r op.form.op y x else .binary r op.form.op x y := by
  intro e he
  rw [Operator.combine] at he
  cases hn : op.form.negate with
  | true =>
    rw [hn, if_pos rfl] at he
    exact .inr (.inr ⟨rfl, _, List.mem_singleton.1 he⟩)
  | false =>
    rw [hn, if_neg (by simp)] at he
    split at he
    · rcases List.mem_pair.1 he with rfl | rfl
      · exact .inr (.inl rfl)
      · exact .inl rfl
    · rcases List.mem_pair.1 he with rfl | rfl
      · exact .inl rfl
      · exact .inr (.inl rfl)

end

end SmallMl.Grammar
