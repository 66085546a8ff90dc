import SmallMl.Proofs.Grammar.Context

/-!
# Bindings outside parentheses

A `let` without `in` reaches as far to the right as it can, so what follows an expression may end up
inside it.  This cannot happen to an expression in which every `let` stands in parentheses
(`openLet`): then every frame of a binding, and every sequence, has a parenthesis below it
(`Confines`), and when the expression is complete no such frame is left.

`Expression.run_stop` says what follows: behind such an expression the words `in`, `;` and the end
all hand the same tree to the frames below.
-/

namespace SmallMl.Grammar

/-! ### Depth -/

/-- The number of parentheses that are open behind the token. -/
def depthAfter (d : Nat) (t : Token) : Nat :=
  match t.kind with
  | .lparen => d + 1
  | .rparen => d - 1
  | _ => d

/-- A `let` stands outside all parentheses; `d` are open at the start. -/
def openLet : Nat → List Token → Bool
  | _, [] => false
  | d, t :: ts => (d == 0 && t.kind = .letWord) || openLet (depthAfter d t) ts

theorem depthAfter_of_kind {d : Nat} {t : Token} {k : Kind} (h : t.kind = k) (hl : k ≠ .lparen)
    (hr : k ≠ .rparen) : depthAfter d t = d := by
  subst h
  unfold depthAfter
  split
  · next h => exact absurd h hl
  · next h => exact absurd h hr
  · rfl

theorem depthAfter_lparen {d : Nat} {t : Token} (h : t.kind = .lparen) :
    depthAfter d t = d + 1 := by
  rw [depthAfter, h]

theorem depthAfter_rparen {d : Nat} {t : Token} (h : t.kind = .rparen) :
    depthAfter (d + 1) t = d := by
  rw [depthAfter, h]
  rfl

theorem depthAfter_leaf {d : Nat} {t : Token} {x : Expr} (h : t.leaf? = some x) :
    depthAfter d t = d := by
  unfold Token.leaf? at h
  split at h
  case h_5 => cases h
  all_goals next hk => exact depthAfter_of_kind hk (by simp) (by simp)

namespace Frame

def isParen : Frame → Bool
  | paren _ _ | index _ _ => true
  | _ => false

def isLet : Frame → Bool
  | letBody _ _ | letNext _ _ _ | recBody _ _ _ | recNext _ _ _ _ | sequel _ _ => true
  | _ => false

end Frame

namespace Focus

def parens : Focus → Nat
  | opened _ _ | binderOpened _ _ | binderName _ _ _ | binderColon _ _ _ | binderType _ _ _ _ => 1
  | _ => 0

def isLet : Focus → Bool
  | semi _ _ | letWord _ | equals _ _ | recWord _ | params _ | resultColon _ | resultType _ _
  | binderOpened _ _ | binderName _ _ _ | binderColon _ _ _ | binderType _ _ _ _ => true
  | _ => false

end Focus

def parens (stack : List Frame) : Nat := stack.countP Frame.isParen

/-- Below every frame of a binding or of a sequence a parenthesis is open. -/
def Confined : List Frame → Prop
  | [] => True
  | f :: fs => (f.isLet = true → 0 < parens fs) ∧ Confined fs

/-- The same for a whole state, in which `d` parentheses are open. -/
structure Confines (d : Nat) (s : State) : Prop where
  depth : parens s.stack + s.focus.parens = d
  stack : Confined s.stack
  focus : s.focus.isLet = true → 0 < parens s.stack

section

variable {items : List Expr} {stack : List Frame} {last : Location} {t : Token} {d : Nat}

theorem parens_cons_of_not {f : Frame} (h : f.isParen = false) :
    parens (f :: stack) = parens stack := by
  simp [parens, h]

theorem parens_cons_of_paren {f : Frame} (h : f.isParen = true) :
    parens (f :: stack) = parens stack + 1 := by
  simp [parens, h]

theorem Confined.cons {f : Frame} (h : Confined stack) (hf : f.isLet = false) :
    Confined (f :: stack) := ⟨fun hl => absurd (hf.symm.trans hl) Bool.false_ne_true, h⟩

/-- The state after a focus that belongs to no binding and has no parenthesis open. -/
theorem confines_use {focus : Focus} (hd : parens stack = d) (hc : Confined stack)
    (hp : focus.parens = 0) (hl : focus.isLet = false) : Confines d (.use items stack t focus) :=
  ⟨by simp [State.use, hd, hp], hc, fun h => by simp [State.use, hl] at h⟩

theorem parens_fill (slot : Slot) (x : Expr) : (slot.fill x).parens = 0 := by
  cases slot <;> rfl

theorem isLet_fill (slot : Slot) (x : Expr) : (slot.fill x).isLet = false := by
  cases slot <;> rfl

theorem parens_bound (h : Header) (b : Binder) : (h.bound b).parens = 0 := by
  cases h <;> rfl

/-! ### Handing down -/

/-- A frame that waits for a sequence is a parenthesis or has one below it. -/
theorem parens_of_isSequence {f : Frame} (hc : Confined (f :: stack)) (hs : f.isSequence = true) :
    0 < parens (f :: stack) := by
  cases f with
  | paren o slot =>
    rw [parens_cons_of_paren rfl]
    omega
  | letNext | recNext | sequel =>
    rw [parens_cons_of_not rfl]
    exact hc.1 rfl
  | _ => cases hs

theorem confines_taken {f : Frame} {x : Expr} {gs : List Frame} {focus : Focus}
    (hc : Confined (f :: stack)) (h : f.taken? t x = some (gs, focus)) :
    Confines (depthAfter (parens (f :: stack)) t) (.use items (gs ++ stack) t focus) := by
  cases f with
  | paren o slot =>
    rw [Frame.taken?] at h
    split at h
    · next hk =>
      cases h
      rw [parens_cons_of_paren rfl, depthAfter_rparen hk]
      exact confines_use rfl hc.2 (parens_fill _ _) (isLet_fill _ _)
    · cases h
  | index a o =>
    rw [Frame.taken?] at h
    split at h
    · next hk =>
      cases h
      rw [parens_cons_of_paren rfl, depthAfter_rparen hk]
      exact confines_use rfl hc.2 rfl rfl
    · cases h
  | condition | consequent =>
    rw [Frame.taken?] at h
    split at h
    · next hk =>
      cases h
      refine confines_use ?_ (hc.2.cons rfl) rfl rfl
      rw [depthAfter_of_kind hk (by simp) (by simp), List.singleton_append, parens_cons_of_not rfl,
        parens_cons_of_not rfl]
    · cases h
  | letBody | recBody =>
    rw [Frame.taken?] at h
    split at h
    · next hk =>
      cases h
      refine confines_use ?_ ⟨fun _ => hc.1 rfl, hc.2⟩ rfl rfl
      rw [depthAfter_of_kind hk (by simp) (by simp), List.singleton_append, parens_cons_of_not rfl,
        parens_cons_of_not rfl]
    · cases h
  | _ => cases h

theorem isParen_of_closed? {f : Frame} {x y : Expr} (h : f.closed? last x = some y) :
    f.isParen = false := by
  cases f <;> first | rfl | cases h

theorem confines_settle {s' : State} : ∀ {stack : List Frame} {whole : Bool} {x : Expr},
    Confined stack → settle items last t whole x stack = .ok s' → s'.items = [] →
      Confines (depthAfter (parens stack) t) s' := by
  intro stack
  induction stack with
  | nil =>
    intro whole x _ h hn
    rw [settle_nil] at h
    split at h
    · next op ho =>
      cases h
      have hk := kind_of_operator? (binding?_eq_some ho)
      rw [depthAfter_of_kind hk (by simp) (by simp)]
      exact confines_use rfl (Confined.cons trivial rfl) rfl rfl
    · rw [items_top h] at hn
      cases hn
  | cons f fs ih =>
    intro whole x hc h hn
    rw [settle_cons] at h
    split at h
    · next op ho =>
      cases h
      have hk := kind_of_operator? (binding?_eq_some ho)
      rw [depthAfter_of_kind hk (by simp) (by simp)]
      exact confines_use (parens_cons_of_not rfl) (hc.cons rfl) rfl rfl
    split at h
    · next hg =>
      cases h
      obtain ⟨hs, -, hk, -⟩ := Frame.goesOn_iff.1 hg
      rw [depthAfter_of_kind hk (by simp) (by simp)]
      exact ⟨rfl, hc, fun _ => parens_of_isSequence hc hs⟩
    split at h
    · next gs focus hk =>
      cases h
      exact confines_taken hc hk
    split at h
    · next y hy =>
      rw [parens_cons_of_not (isParen_of_closed? hy)]
      exact ih hc.2 h hn
    · cases h

/-! ### Moves -/

theorem confines_start {gs gs' : List Frame} {focus : Focus} (hc : Confined (gs ++ stack))
    (hl : t.kind = .letWord → 0 < parens (gs ++ stack)) (h : startMove gs t = .use gs' focus) :
    Confines (depthAfter (parens (gs ++ stack)) t) (.use items (gs' ++ stack) t focus) := by
  -- a frame that waits for an operand or for a condition
  have frame : ∀ {k : Kind} {f : Frame}, t.kind = k → k ≠ .lparen → k ≠ .rparen →
      f.isParen = false → f.isLet = false →
      Confines (depthAfter (parens (gs ++ stack)) t)
        (.use items (f :: (gs ++ stack)) t .start) := by
    intro k f hk hkl hkr hp hf
    rw [depthAfter_of_kind hk hkl hkr]
    exact confines_use (parens_cons_of_not hp) (hc.cons hf) rfl rfl
  unfold startMove at h
  split at h
  · next x hx =>
    cases h
    rw [depthAfter_leaf hx]
    exact confines_use rfl hc rfl rfl
  split at h
  · next hk =>
    cases h
    rw [depthAfter_lparen hk]
    exact ⟨rfl, hc, fun h => by cases h⟩
  · next hk => cases h; exact frame hk (by simp) (by simp) rfl rfl
  · next hk => cases h; exact frame hk (by simp) (by simp) rfl rfl
  · next hk => cases h; exact frame hk (by simp) (by simp) rfl rfl
  · next hk => cases h; exact frame hk (by simp) (by simp) rfl rfl
  · next hk =>
    cases h
    rw [depthAfter_of_kind hk (by simp) (by simp)]
    exact ⟨rfl, hc, fun _ => hl hk⟩
  · next hk =>
    cases h
    rw [depthAfter_of_kind hk (by simp) (by simp)]
    exact confines_use rfl hc rfl rfl
  · cases h

theorem confines_call {fn : Expr} {args : List Expr} {gs : List Frame} {focus : Focus}
    (hc : Confined stack) (h : callMove last fn args t = .use gs focus) :
    Confines (depthAfter (parens stack) t) (.use items (gs ++ stack) t focus) := by
  unfold callMove at h
  split at h
  · next x hx =>
    cases h
    rw [depthAfter_leaf hx]
    exact confines_use rfl hc rfl rfl
  split at h
  · next hk =>
    cases h
    rw [depthAfter_lparen hk]
    exact ⟨rfl, hc, fun h => by cases h⟩
  · cases h

/-! Inside a binding the focus changes, and a parenthesis stays open below. -/

theorem confines_binder {hd : Header} {gs : List Frame} {focus : Focus} (hc : Confined stack)
    (hp : 0 < parens stack) (h : binderMove hd t = .use gs focus) :
    Confines (depthAfter (parens stack) t) (.use items (gs ++ stack) t focus) := by
  unfold binderMove at h
  split at h
  · next hk =>
    cases h
    rw [depthAfter_of_kind hk (by simp) (by simp)]
    refine ⟨?_, hc, fun _ => hp⟩
    simp [State.use, parens_bound]
  · next hk =>
    cases h
    rw [depthAfter_lparen hk]
    exact ⟨rfl, hc, fun _ => hp⟩
  · cases h

theorem confines_type {next : Ty → Focus} {gs : List Frame} {focus : Focus} {n : Nat}
    (hc : Confined stack) (hp : 0 < parens stack) (hn : ∀ ty, (next ty).parens = n)
    (h : typeMove t next = .use gs focus) :
    Confines (depthAfter (parens stack + n) t) (.use items (gs ++ stack) t focus) := by
  unfold typeMove at h
  split at h
  · next hk =>
    split at h
    · cases h
      rw [depthAfter_of_kind hk (by simp) (by simp)]
      refine ⟨?_, hc, fun _ => hp⟩
      simp [State.use, hn]
    · cases h
  · cases h

theorem confines_equals {f : Frame} {gs : List Frame} {focus : Focus} (hc : Confined stack)
    (hp : 0 < parens stack) (hf : f.isParen = false) (h : equalsMove t f = .use gs focus) :
    Confines (depthAfter (parens stack) t) (.use items (gs ++ stack) t focus) := by
  unfold equalsMove at h
  split at h
  · next hk =>
    cases h
    rw [depthAfter_of_kind hk (by simp) (by simp)]
    exact confines_use (parens_cons_of_not hf) ⟨fun _ => hp, hc⟩ rfl rfl
  · cases h

theorem confines_let {focus : Focus} (hc : Confined stack) (hp : 0 < parens stack)
    (ht : depthAfter d t = d) (hd : parens stack + focus.parens = d) :
    Confines (depthAfter d t) (.use items stack t focus) := by
  rw [ht]
  exact ⟨hd, hc, fun _ => hp⟩

theorem depthAfter_isArrayWord (h : State.isArrayWord t = true) : depthAfter d t = d :=
  depthAfter_of_kind (isArrayWord_iff.1 h).1 (by simp) (by simp)

theorem confines_move {s : State} {gs : List Frame} {focus : Focus} (h : Confines d s)
    (hl : t.kind = .letWord → 0 < d) (hm : focusMove s.last t s.focus = .use gs focus) :
    Confines (depthAfter d t) (.use s.items (gs ++ s.stack) t focus) := by
  obtain ⟨items, stack, focus', last⟩ := s
  obtain ⟨hd, hc, hf⟩ := h
  subst hd
  dsimp only at hc hf hm hl ⊢
  cases focus' with
  | top | start =>
    have hc' : Confined ([] ++ stack) := hc
    exact confines_start hc' hl hm
  | opened o slot =>
    simp only [focusMove] at hm
    split at hm
    · next hk =>
      cases hm
      simp only [Focus.parens]
      rw [depthAfter_rparen hk]
      exact confines_use rfl hc (parens_fill _ _) (isLet_fill _ _)
    · have hp : parens ([Frame.paren o slot] ++ stack) = parens stack + 1 :=
        parens_cons_of_paren rfl
      simp only [Focus.parens] at hl ⊢
      rw [← hp]
      exact confines_start (hc.cons rfl) (by rw [hp]; exact hl) hm
  | atom x =>
    simp only [focusMove] at hm
    split at hm
    · next hk =>
      cases hm
      rw [depthAfter_of_kind hk (by simp) (by simp)]
      exact confines_use rfl hc rfl rfl
    · exact confines_call hc hm
  | call fn args => exact confines_call hc hm
  | dot a =>
    simp only [focusMove] at hm
    split at hm
    · next hk =>
      cases hm
      rw [depthAfter_lparen hk]
      exact confines_use (parens_cons_of_paren rfl) (hc.cons rfl) rfl rfl
    · cases hm
  | indexed a i =>
    simp only [focusMove] at hm
    split at hm
    · next hk =>
      cases hm
      rw [depthAfter_of_kind hk (by simp) (by simp)]
      exact confines_use (parens_cons_of_not rfl) (hc.cons rfl) rfl rfl
    · next hk =>
      cases hm
      rw [depthAfter_of_kind hk (by simp) (by simp)]
      exact confines_use rfl hc rfl rfl
    · cases hm
  | semi x r =>
    simp only [focusMove] at hm
    split at hm
    · cases hm
    · have hp : parens ([Frame.sequel x r] ++ stack) = parens stack := parens_cons_of_not rfl
      simp only [Focus.parens, Nat.add_zero] at hl ⊢
      rw [← hp]
      exact confines_start ⟨fun _ => hf rfl, hc⟩ (by rw [hp]; exact hl) hm
  | letWord l =>
    simp only [focusMove] at hm
    split at hm
    · next hk =>
      cases hm
      exact confines_let hc (hf rfl) (depthAfter_of_kind hk (by simp) (by simp)) rfl
    · exact confines_binder hc (hf rfl) hm
  | equals l b => exact confines_equals hc (hf rfl) rfl hm
  | recWord l =>
    simp only [focusMove] at hm
    split at hm
    · next hk =>
      cases hm
      exact confines_let hc (hf rfl) (depthAfter_of_kind hk (by simp) (by simp)) rfl
    · cases hm
  | params h =>
    simp only [focusMove] at hm
    split at hm
    · exact confines_binder hc (hf rfl) hm
    split at hm
    · cases hm
    split at hm
    · next hk =>
      cases hm
      exact confines_let hc (hf rfl) (depthAfter_of_kind hk (by simp) (by simp)) rfl
    · exact confines_equals hc (hf rfl) rfl hm
  | resultColon h =>
    have hn : ∀ ty, (Focus.resultType h ty).parens = 0 := fun _ => rfl
    exact confines_type hc (hf rfl) hn hm
  | resultType h ty =>
    simp only [focusMove] at hm
    split at hm
    · next hk =>
      cases hm
      exact confines_let hc (hf rfl) (depthAfter_isArrayWord hk) rfl
    · exact confines_equals hc (hf rfl) rfl hm
  | binderOpened h o | binderName h o n =>
    simp only [focusMove] at hm
    split at hm
    · next hk =>
      cases hm
      exact confines_let hc (hf rfl) (depthAfter_of_kind hk (by simp) (by simp)) rfl
    · cases hm
  | binderColon h o n =>
    have hn : ∀ ty, (Focus.binderType h o n ty).parens = 1 := fun _ => rfl
    exact confines_type hc (hf rfl) hn hm
  | binderType h o n ty =>
    simp only [focusMove] at hm
    split at hm
    · next hk =>
      cases hm
      exact confines_let hc (hf rfl) (depthAfter_isArrayWord hk) rfl
    split at hm
    · next hk =>
      cases hm
      simp only [Focus.parens]
      rw [depthAfter_rparen hk]
      refine ⟨?_, hc, fun _ => hf rfl⟩
      simp [State.use, parens_bound]
    · cases hm

end

/-! ### Runs -/

theorem parens_of_hand {focus : Focus} {last : Location} {t : Token} {whole : Bool} {x : Expr}
    (h : focusMove last t focus = .hand whole x) : focus.parens = 0 := by
  cases focus with
  | opened o slot =>
    simp only [focusMove] at h
    split at h
    · cases h
    · exact absurd h (startMove_ne_hand _)
  | binderOpened | binderName =>
    simp only [focusMove] at h
    split at h <;> cases h
  | binderColon =>
    simp only [focusMove, typeMove] at h
    split at h
    · split at h <;> cases h
    · cases h
  | binderType =>
    simp only [focusMove] at h
    split at h
    · cases h
    split at h <;> cases h
  | _ => rfl

/-- **A step keeps bindings in parentheses**, if its token does not start one outside. -/
theorem State.step_confines {d : Nat} {s s' : State} {t : Token} (h : Confines d s)
    (hl : t.kind = .letWord → 0 < d) (hf : s.focus ≠ .top) (hs : s.step t = .ok s')
    (hn : s'.items = []) : Confines (depthAfter d t) s' := by
  rw [State.step_eq hf] at hs
  cases hm : focusMove s.last t s.focus with
  | use gs focus =>
    rw [hm] at hs
    cases hs
    exact confines_move h hl hm
  | hand whole x =>
    rw [hm] at hs
    -- only a focus without open parentheses is ever complete
    have hp : s.focus.parens = 0 := parens_of_hand hm
    have hd := h.depth
    rw [hp, Nat.add_zero] at hd
    rw [← hd]
    exact confines_settle h.stack hs hn
  | refuse i =>
    rw [hm] at hs
    cases hs

theorem State.run_confines : ∀ {ts : List Token} {d : Nat} {s s' : State}, Confines d s →
    openLet d ts = false → s.focus ≠ .top → s.run ts = .ok s' → s'.items = [] →
      ∃ d', Confines d' s' := by
  intro ts
  induction ts with
  | nil =>
    intro d s s' h _ _ hr _
    cases hr
    exact ⟨d, h⟩
  | cons t ts ih =>
    intro d s s' h ho hf hr hn
    obtain ⟨s₁, h₁, h₂⟩ := State.run_cons_inv hr
    have hn₁ := State.items_run h₂ hn
    obtain ⟨_, hf₁⟩ := @State.step_over s s₁ t [] [] trivial hf h₁ hn₁
    simp only [openLet, Bool.or_eq_false_iff, Bool.and_eq_false_iff] at ho
    have hl : t.kind = .letWord → 0 < d := by
      intro hk
      rcases ho.1 with hd | hd
      · have hd : d ≠ 0 := by simpa using hd
        omega
      · simp [hk] at hd
    exact ih (State.step_confines h hl hf h₁ hn₁) ho.2 hf₁ h₂ hn

/-! ### Behind the expression -/

/-- The token is `in`, a semicolon or the end. -/
def Stops (t : Token) : Prop := t.kind = .inWord ∨ t.kind = .semi ∨ t.kind = .eof

/-- The token goes on with no operand: a mark behind an expression, or the end. -/
def Ends (t : Token) : Prop :=
  t.kind = .rparen ∨ t.kind = .thenWord ∨ t.kind = .elseWord ∨ Stops t

theorem Stops.ends {t : Token} (h : Stops t) : Ends t := .inr (.inr (.inr h))

theorem Stops.ne_elseWord {t : Token} (h : Stops t) : t.kind ≠ .elseWord := by
  rcases h with h | h | h <;> simp [h]

theorem binding?_ends {t : Token} (ht : Ends t) (n : Nat) : binding? n t = none := by
  rcases ht with ht | ht | ht | ht | ht | ht <;> exact binding?_of_kind ht rfl n

theorem binding?_stop {t : Token} (ht : Stops t) (n : Nat) : binding? n t = none :=
  binding?_ends ht.ends n

namespace Frame

/-- The frame is completed by every token that ends an expression, but for `else`. -/
def isPlain : Frame → Bool
  | right _ _ | operand _ _ | value _ _ | consequent _ _ | alternative _ _ _ _ => true
  | _ => false

def takesElse : Frame → Bool
  | consequent _ _ => true
  | _ => false

end Frame

def closeAll (last : Location) : Expr → List Frame → Expr
  | x, [] => x
  | x, f :: fs => closeAll last ((f.closed? last x).getD x) fs

theorem settle_ends {items : List Expr} {last : Location} {t : Token} {inner fs : List Frame}
    (ht : Ends t) (hte : t.kind = .elseWord → ∀ f ∈ inner, f.takesElse = false) :
    ∀ {x : Expr}, (∀ f ∈ inner, f.isPlain = true) →
      settle items last t false x (inner ++ fs)
        = settle items last t false (closeAll last x inner) fs := by
  induction inner with
  | nil =>
    intro x _
    rfl
  | cons f inner ih =>
    intro x hp
    obtain ⟨hf, hp⟩ := List.forall_mem_cons.1 hp
    have hb := binding?_ends ht f.strength
    have hg : f.goesOn false x t = false := by
      cases f <;> first | rfl | cases hf
    have hk : f.taken? t x = none := by
      cases f with
      | consequent r c =>
        have hn : t.kind ≠ .elseWord := fun hk => Bool.noConfusion (hte hk _ List.mem_cons_self)
        exact if_neg hn
      | _ => first | rfl | cases hf
    obtain ⟨y, hy⟩ : ∃ y, f.closed? last x = some y := by
      cases f <;> first | exact ⟨_, rfl⟩ | cases hf
    have hq : f.isSequel = false := by
      cases f <;> first | rfl | cases hf
    rw [List.cons_append, settle_cons, hb, hg, hk, hy, closeAll, hy]
    simp only [Bool.false_eq_true, if_false, hq, Option.getD_some]
    exact ih (fun hk => (List.forall_mem_cons.1 (hte hk)).2) hp

/-- Every frame that the end completes waits for no mark. -/
theorem closed_of_settle_eof {items : List Expr} {last : Location} {t : Token} {s' : State}
    (ht : t.kind = .eof) {stack : List Frame} : ∀ {whole : Bool} {x : Expr},
    settle items last t whole x stack = .ok s' →
      ∀ f ∈ stack, f.isParen = false ∧ (f.isLet = false → f.isPlain = true) := by
  induction stack with
  | nil => simp
  | cons f fs ih =>
    intro whole x h
    rw [settle_cons, binding?_eof ht, goesOn_eof ht, taken?_eof ht] at h
    simp only [Bool.false_eq_true, if_false] at h
    split at h
    · next y hy =>
      refine List.forall_mem_cons.2 ⟨⟨isParen_of_closed? hy, ?_⟩, ih h⟩
      intro hl
      cases f <;> first
        | rfl
        | exact Bool.noConfusion hl
        | simp [Frame.closed?] at hy
    · cases h

theorem isLet_of_parens {stack : List Frame} (hc : Confined stack) (hp : parens stack = 0) :
    ∀ f ∈ stack, f.isLet = false := by
  induction stack with
  | nil => simp
  | cons f fs ih =>
    have hp' : parens fs = 0 := by
      have h := List.countP_eq_zero.1 hp
      exact List.countP_eq_zero.2 fun g hg => h g (by simp [hg])
    refine List.forall_mem_cons.2 ⟨?_, ih hc.2 hp'⟩
    cases hl : f.isLet with
    | false => rfl
    | true =>
      have := hc.1 hl
      omega

/-- A focus that the end completes, and that belongs to no sequence, is completed by every token
that ends an expression. -/
theorem focusMove_ends {focus : Focus} {last : Location} {e t : Token} {whole : Bool} {x : Expr}
    (he : e.kind = .eof) (hl : focus.isLet = false) (h : focusMove last e focus = .hand whole x)
    (ht : Ends t) : whole = false ∧ focusMove last t focus = .hand false x := by
  have hcall : ∀ fn args, callMove last fn args e = .hand whole x →
      whole = false ∧ callMove last fn args t = .hand false x := by
    intro fn args hc
    simp only [callMove, Token.leaf?, he, reduceCtorEq, if_false] at hc
    cases hc
    rcases ht with ht | ht | ht | ht | ht | ht <;> simp [callMove, Token.leaf?, ht]
  cases focus with
  | atom y =>
    simp only [focusMove, he, reduceCtorEq, if_false] at h
    have hd : t.kind ≠ .dot := by rcases ht with ht | ht | ht | ht | ht | ht <;> simp [ht]
    simp only [focusMove, if_neg hd]
    exact hcall y [] h
  | call fn args => exact hcall fn args h
  | indexed a i =>
    simp only [focusMove, he] at h
    cases h
    rcases ht with ht | ht | ht | ht | ht | ht <;> simp [focusMove, ht]
  | top | start | opened | dot =>
    simp [focusMove, startMove, Token.leaf?, he] at h
  | _ => cases hl

/-- **An expression whose bindings stand in parentheses.**  Behind its last token no parenthesis is
left open, and what ends the expression hands it to the frames below, unless it is an `else` that a
frame of the expression has a use for. -/
theorem Expression.confined {ts : List Token} {x : Expr} (h : Expression ts x)
    (ho : openLet 0 ts = false) : ∃ s, State.fresh.run ts = .ok s ∧ s.items = [] ∧
      s.focus ≠ .top ∧ Reads ts s ∧ ts ≠ [] ∧ (∀ f ∈ s.stack, f.isParen = false) ∧
      ∀ t, Ends t → (t.kind = .elseWord → ∀ f ∈ s.stack, f.takesElse = false) → ∀ items fs,
        (s.over items fs).step t = settle items (endOf ts) t false x fs := by
  obtain ⟨s, hr, hn, hf, hreads, hne, he⟩ := h.spec
  have hfresh : Confines 0 State.fresh := ⟨rfl, trivial, fun h => by cases h⟩
  obtain ⟨d, hc⟩ := State.run_confines hfresh ho (by simp [State.fresh]) hr hn
  obtain ⟨whole, y, hm, hs⟩ := he (Stream.endToken default) rfl
  -- no parenthesis is open at the end, so no binding is
  have hcl := closed_of_settle_eof rfl hs
  have hp : parens s.stack = 0 := List.countP_eq_zero.2 fun f hfm => by simp [(hcl f hfm).1]
  have hlet := isLet_of_parens hc.stack hp
  have hplain : ∀ f ∈ s.stack, f.isPlain = true := fun f hfm => (hcl f hfm).2 (hlet f hfm)
  have hfoc : s.focus.isLet = false := by
    cases hi : s.focus.isLet with
    | false => rfl
    | true =>
      have := hc.focus hi
      omega
  have hstop : Stops (Stream.endToken default) := .inr (.inr rfl)
  obtain ⟨rfl, _⟩ := focusMove_ends rfl hfoc hm hstop.ends
  have hx : closeAll s.last y s.stack = x := by
    rw [← List.append_nil s.stack, settle_ends hstop.ends (fun h => by cases h) hplain] at hs
    cases hs
    rfl
  refine ⟨s, hr, hn, hf, hreads, hne, fun f hfm => (hcl f hfm).1, fun t ht hte items fs => ?_⟩
  rw [State.step_eq (s := s.over items fs) hf]
  simp only [State.over]
  rw [(focusMove_ends rfl hfoc hm ht).2, ← hreads.last_eq, ← hx]
  exact settle_ends ht hte hplain

/-- Whatever stops such an expression hands the same tree to the frames below it. -/
theorem Expression.run_stop {ts : List Token} {x : Expr} (h : Expression ts x)
    (ho : openLet 0 ts = false) {items : List Expr} {fs : List Frame} (hl : Loose fs)
    (l : Location) : ∃ s, State.run ⟨items, fs, .start, l⟩ ts = .ok s ∧
      ∀ t, Stops t → s.step t = settle items (endOf ts) t false x fs := by
  obtain ⟨s, hr, hn, _, _, hne, _, hends⟩ := h.confined ho
  refine ⟨s.over items fs, ?_, fun t ht => ?_⟩
  · rw [Expression.run_start hne]
    exact State.run_over hl (by simp [State.fresh]) hr hn
  · exact hends t ht.ends (fun hk => absurd hk ht.ne_elseWord) items fs

end SmallMl.Grammar
