import SmallMl.Proofs.Grammar.Follows
import SmallMl.Proofs.Grammar.LetChain
import SmallMl.Proofs.Grammar.Replay

/-!
# The descent reads what the reader with a stack reads

Every function of the descent follows the reader with a stack (`Follows`).  Where the function is
called, the reader with a stack has a frame that waits for the expression; when the function
returns, it hands the expression down to that frame, in front of the same token.

The functions call each other, so this is one induction, over how much there is left to read.  The
measure works because a function that calls another one either has used up a token or is one of the
few that only pass a call on.  `Agrees n` is the hypothesis of the induction: it is about the two
functions that start over, `mustExpr` and `seqExpr`, in front of readers that have less than `n`
left.
-/

namespace SmallMl.Grammar

/-! ### What a token does behind an expression -/

section

variable {items : List Expr} {last opening : Location} {t : Token} {whole : Bool} {x : Expr}
  {f : Frame} {K : List Frame}

theorem settle_leaves (h : f.Leaves whole x t) :
    settle items last t whole x (f :: K) =
      match f.taken? t x with
      | some (gs, focus) => .ok (.use items (gs ++ K) t focus)
      | none =>
        match f.closed? last x with
        | some y => settle items last t f.isSequel y K
        | none => .error (f.refusal t) := by
  rw [settle_cons, h.binding, h.goesOn]
  rfl

theorem settle_paren {slot : Slot} (h : (Frame.paren opening slot).Leaves whole x t) :
    settle items last t whole x (.paren opening slot :: K) =
      if t.kind = .rparen then
        .ok (.use items K t (slot.fill (x.withRange ⟨opening, t.range.stop⟩)))
      else .error (.raise t opening (.expected .rparen)) := by
  rw [settle_leaves h]
  by_cases ht : t.kind = .rparen <;> simp [Frame.taken?, Frame.closed?, Frame.refusal, ht]

theorem settle_index {a : Expr} (h : (Frame.index a opening).Leaves whole x t) :
    settle items last t whole x (.index a opening :: K) =
      if t.kind = .rparen then .ok (.use items K t (.indexed a x))
      else .error (.raise t opening (.expected .rparen)) := by
  rw [settle_leaves h]
  by_cases ht : t.kind = .rparen <;> simp [Frame.taken?, Frame.closed?, Frame.refusal, ht]

theorem settle_condition {ifRange : Range} (h : (Frame.condition ifRange).Leaves whole x t) :
    settle items last t whole x (.condition ifRange :: K) =
      if t.kind = .thenWord then .ok (.use items (.consequent ifRange x :: K) t .start)
      else .error (.raise t t.range.start (.expected .thenWord)) := by
  rw [settle_leaves h]
  by_cases ht : t.kind = .thenWord <;> simp [Frame.taken?, Frame.closed?, Frame.refusal, ht]

/-- Unless a semicolon goes on with the sequence, it makes no difference to a frame that waits for a
sequence whether the expression is the whole of it. -/
theorem settle_whole (h : f.goesOn false x t = false) :
    settle items last t false x (f :: K) = settle items last t true x (f :: K) := by
  have ht : f.goesOn true x t = false := by simp [Frame.goesOn]
  rw [settle_cons, settle_cons, h, ht]

end

namespace Descent

variable {p : Parse}

/-- The top of the stack leaves the same operators to an expression as `prec` does. -/
def Selects (K : List Frame) (prec : Nat) : Prop :=
  ∀ t, binding? (strengthOf K) t = binding? prec t

/-- An expression has been read between `r` and `r'`, and all operators that belong to it. -/
structure Read (p : Parse) (items : List Expr) (K : List Frame) (prec : Nat) (whole : Bool)
    (r : Reader) (x : Expr) (r' : Reader) : Prop where
  left : r'.left < r.left
  after : r'.after items K whole x = p
  stops : binding? prec r'.tok = none

/-- The functions follow the reader with a stack in front of less than `n`. -/
structure Agrees (n : Nat) : Prop where
  mustExpr : ∀ {p r prec items K}, r.left < n → Selects K prec → r.drive items K .start = p →
    Follows p r (mustExpr prec) (Read p items K prec false r)
  seqExpr : ∀ {p r f items K}, r.left < n → f.isSequence = true →
    r.drive items (f :: K) .start = p →
    Follows p r seqExpr (Read p items (f :: K) 0 true r)

section

variable {r r' : Reader} {f : Frame} {K : List Frame} {items : List Expr} {x y : Expr}
  {prec n : Nat} {whole : Bool}

theorem Read.leaves (h : Read p items (f :: K) prec whole r x r') (hs : Selects (f :: K) prec)
    (hf : f.isSequence = whole) : f.Leaves whole x r'.tok := by
  refine ⟨(hs r'.tok).trans h.stops, ?_⟩
  cases whole <;> simp [Frame.goesOn, hf]

theorem Read.close (h : Read p items (f :: K) prec whole r x r') (hs : Selects (f :: K) prec)
    (hf : f.isSequence = whole) (ht : f.taken? r'.tok x = none)
    (hc : f.closed? r'.last x = some y) : r'.after items K f.isSequel y = p := by
  rw [← h.after, Reader.after, Reader.after, settle_closed (h.leaves hs hf) ht hc]

/-! ### Atoms -/

theorem follows_parenExpr (ih : Agrees n) (hr : r.left ≤ n) (hk : r.tok.kind = .lparen)
    {slot : Slot}
    (h : r.proceed (.ok (.use items K r.tok (.opened r.tok.range.start slot))) = p) :
    Follows p r parenExpr fun x r' => r'.left < r.left ∧ r'.drive items K (slot.fill x) = p := by
  refine .deeper ?_
  simp only [parenExpr]
  refine .ahead ((follows_next items K (isEof_of_kind hk rfl) h).bind fun _ r₁ _ h₁ => .ahead ?_)
  have h₁' := h₁.drive
  rw [Reader.drive, State.step] at h₁'
  dsimp only at h₁'
  by_cases hk₁ : r₁.tok.kind = .rparen
  · rw [if_pos hk₁] at h₁'
    refine .pos hk₁ ?_
    refine (follows_next items K (isEof_of_kind hk₁ rfl) h₁').bind fun _ r₂ _ h₂ => .behind ?_
    exact .pure ⟨h₂.left.trans h₁.left, h₂.last ▸ h₂.drive⟩
  · rw [if_neg hk₁] at h₁'
    refine .neg hk₁ ?_
    refine (ih.seqExpr (f := .paren r.tok.range.start slot) (h₁.left.trans_le hr) rfl h₁').bind
      fun x r₂ _ h₂ => ?_
    have h₂' := h₂.after
    rw [Reader.after, settle_paren (h₂.leaves (fun _ => rfl) rfl)] at h₂'
    refine (follows_expect items K rfl h₂').bind fun _ r₃ _ h₃ => .behind ?_
    exact .pure ⟨(h₃.left.trans h₂.left).trans h₁.left, h₃.last ▸ h₃.drive⟩

theorem isEof_of_leaf? {t : Token} (h : t.leaf? = some x) : t.isEof = false := by
  cases he : t.isEof with
  | false => rfl
  | true =>
    rw [Token.leaf?, kind_of_isEof he] at h
    cases h

/-- An atom in a place where the reader with a stack takes one. -/
theorem follows_simpleExpr (ih : Agrees n) (hr : r.left ≤ n) {slot : Slot}
    (hl : ∀ x, r.tok.leaf? = some x → r.proceed (.ok (.use items K r.tok (slot.fill x))) = p)
    (hp : r.tok.leaf? = none → r.tok.kind = .lparen →
      r.proceed (.ok (.use items K r.tok (.opened r.tok.range.start slot))) = p) :
    Follows p r simpleExpr fun
      | some x, r' => r'.left < r.left ∧ r'.drive items K (slot.fill x) = p
      | none, r' => r' = r ∧ r.tok.leaf? = none ∧ r.tok.kind ≠ .lparen := by
  refine .deeper ?_
  simp only [simpleExpr]
  refine .ahead ?_
  cases hx : r.tok.leaf? with
  | some x =>
    exact (follows_next items K (isEof_of_leaf? hx) (hl x hx)).bind fun _ r₁ _ h₁ =>
      .pure ⟨h₁.left, h₁.drive⟩
  | none =>
    dsimp only
    by_cases hk : r.tok.kind = .lparen
    · refine .pos hk ?_
      exact (follows_parenExpr ih hr hk (hp hx hk)).bind fun x r₁ _ h₁ => .pure h₁
    · refine .neg hk ?_
      exact .pure ⟨rfl, rfl, hk⟩

/-! ### Calls and elements -/

theorem follows_application (ih : Agrees n) {fn : Expr} : ∀ {r : Reader} {args : List Expr},
    r.left ≤ n → r.drive items K (.call fn args) = p →
      Follows p r (application fn args) fun x r' => r'.after items K false x = p := by
  intro r
  induction hl : r.left using Nat.strong_induction_on generalizing r with
  | _ m ihm =>
    subst hl
    intro args hr h
    rw [Reader.drive, State.step] at h
    dsimp only at h
    rw [State.stepCall] at h
    have hleaf : ∀ x, r.tok.leaf? = some x →
        r.proceed (.ok (.use items K r.tok ((Slot.argument fn args).fill x))) = p := by
      intro x hx
      rw [hx] at h
      exact h
    have hparen : r.tok.leaf? = none → r.tok.kind = .lparen → r.proceed (.ok (.use items K r.tok
        (.opened r.tok.range.start (.argument fn args)))) = p := by
      intro hx hk
      rw [hx] at h
      dsimp only at h
      rw [if_pos hk] at h
      exact h
    refine .deeper ?_
    simp only [application]
    refine (follows_simpleExpr ih hr hleaf hparen).bind fun o r₁ _ h₁ => ?_
    cases o with
    | some x => exact ihm _ h₁.1 rfl (h₁.1.le.trans hr) h₁.2
    | none =>
      obtain ⟨rfl, hx, hk⟩ := h₁
      rw [hx] at h
      dsimp only at h
      rw [if_neg hk, State.complete, State.callOf] at h
      dsimp only
      split at h
      · next ha =>
        refine .pos ha ?_
        exact .pure h
      · next ha =>
        refine .neg ha ?_
        exact .behind (.pure h)

theorem follows_index (ih : Agrees n) (hr : r.left ≤ n) (hk : r.tok.kind = .dot) {a : Expr}
    (h : r.proceed (.ok (.use items K r.tok (.dot a))) = p) :
    Follows p r index fun i r' => r'.left < r.left ∧ r'.drive items K (.indexed a i) = p := by
  refine .deeper ?_
  simp only [index]
  refine (follows_next items K (isEof_of_kind hk rfl) h).bind fun _ r₁ _ h₁ => .ahead ?_
  refine (follows_expect items (.index a r₁.tok.range.start :: K) rfl h₁.drive).bind
    fun _ r₂ _ h₂ => ?_
  refine (ih.mustExpr ((h₂.left.trans h₁.left).trans_le hr) (fun _ => rfl) h₂.drive).bind
    fun i r₃ _ h₃ => ?_
  have h₃' := h₃.after
  rw [Reader.after, settle_index (h₃.leaves (fun _ => rfl) rfl)] at h₃'
  refine (follows_expect items K rfl h₃').bind fun _ r₄ _ h₄ => .pure ⟨?_, h₄.drive⟩
  exact ((h₄.left.trans h₃.left).trans h₂.left).trans h₁.left

theorem follows_elements (ih : Agrees n) : ∀ {r : Reader} {a : Expr}, r.left ≤ n →
    (r.tok.kind = .dot → r.proceed (.ok (.use items K r.tok (.dot a))) = p) →
    (r.tok.kind ≠ .dot → r.after items K false a = p) →
      Follows p r (elements a) fun x r' => r'.after items K false x = p := by
  intro r
  induction hl : r.left using Nat.strong_induction_on generalizing r with
  | _ m ihm =>
    subst hl
    intro a hr hd hn
    refine .deeper ?_
    simp only [elements]
    refine .ahead ?_
    by_cases hk : r.tok.kind = .dot
    · refine .pos hk ?_
      refine (follows_index ih hr hk (hd hk)).bind fun i r₁ _ ⟨hl₁, h₁⟩ => .ahead ?_
      rw [Reader.drive, State.step] at h₁
      dsimp only at h₁
      rw [State.stepIndexed] at h₁
      by_cases hk₁ : r₁.tok.kind = .leftArrow
      · rw [hk₁] at h₁
        refine .pos hk₁ ?_
        refine (follows_next items (.value a i :: K) (isEof_of_kind hk₁ rfl) h₁).bind
          fun _ r₂ _ h₂ => ?_
        refine (ih.mustExpr ((h₂.left.trans hl₁).trans_le hr) (fun _ => rfl) h₂.drive).bind
          fun v r₃ _ h₃ => .behind (.pure ?_)
        exact h₃.close (fun _ => rfl) rfl rfl rfl
      · refine .neg hk₁ ?_
        refine .behind (ihm _ hl₁ rfl (hl₁.le.trans hr) (fun hk₂ => ?_) fun hk₂ => ?_)
        · rw [hk₂] at h₁
          exact h₁
        · split at h₁
          · next hk₃ => exact absurd hk₃ hk₁
          · next hk₃ => exact absurd hk₃ hk₂
          · exact h₁
    · refine .neg hk ?_
      exact .pure (hn hk)

/-! ### Words and signs in front -/

theorem follows_unaryExpr (ih : Agrees n) (hr : r.left ≤ n) (he : r.tok.isEof = false)
    {op : UnaryOp}
    (h : r.proceed (.ok (.use items (.operand op r.tok.range.start :: K) r.tok .start)) = p) :
    Follows p r (unaryExpr op) fun x r' => r'.left < r.left ∧ r'.after items K false x = p := by
  refine .deeper ?_
  simp only [unaryExpr]
  refine .ahead ((follows_next items _ he h).bind fun _ r₁ _ h₁ => ?_)
  refine (ih.mustExpr (h₁.left.trans_le hr) (fun _ => rfl) h₁.drive).bind
    fun x r₂ _ h₂ => .behind (.pure ⟨h₂.left.trans h₁.left, ?_⟩)
  exact h₂.close (fun _ => rfl) rfl rfl rfl

theorem follows_ifExpr (ih : Agrees n) (hr : r.left ≤ n) (hk : r.tok.kind = .ifWord)
    (h : r.proceed (.ok (.use items (.condition r.tok.range :: K) r.tok .start)) = p) :
    Follows p r ifExpr fun x r' => r'.left < r.left ∧ r'.after items K false x = p := by
  refine .deeper ?_
  simp only [ifExpr]
  refine .ahead ((follows_next items _ (isEof_of_kind hk rfl) h).bind fun _ r₁ _ h₁ => ?_)
  refine (ih.mustExpr (h₁.left.trans_le hr) (fun _ => rfl) h₁.drive).bind
    fun c r₂ _ h₂ => .ahead ?_
  have h₂' := h₂.after
  rw [Reader.after, settle_condition (h₂.leaves (fun _ => rfl) rfl)] at h₂'
  refine (follows_expect items (.consequent r.tok.range c :: K) rfl h₂').bind fun _ r₃ _ h₃ => ?_
  have hl₃ := (h₃.left.trans h₂.left).trans h₁.left
  refine (ih.mustExpr (hl₃.trans_le hr) (fun _ => rfl) h₃.drive).bind fun yes r₄ _ h₄ => .ahead ?_
  have hl₄ := h₄.left.trans hl₃
  by_cases hk₄ : r₄.tok.kind = .elseWord
  · refine .pos hk₄ ?_
    have h₄' : r₄.proceed (.ok (.use items
        (.alternative r.tok.range c yes r₄.tok.range :: K) r₄.tok .start)) = p := by
      rw [← h₄.after, Reader.after, settle_taken (h₄.leaves (fun _ => rfl) rfl) (if_pos hk₄)]
      rfl
    refine (follows_next items _ (isEof_of_kind hk₄ rfl) h₄').bind fun _ r₅ _ h₅ => ?_
    have hl₅ := h₅.left.trans hl₄
    refine (ih.mustExpr (hl₅.trans_le hr) (fun _ => rfl) h₅.drive).bind
      fun no r₆ _ h₆ => .behind (.pure ⟨h₆.left.trans hl₅, ?_⟩)
    exact h₆.close (fun _ => rfl) rfl rfl rfl
  · refine .neg hk₄ ?_
    refine .behind (.pure ⟨hl₄, ?_⟩)
    exact h₄.close (fun _ => rfl) rfl (if_neg hk₄) rfl

/-! ### Bindings -/

theorem follows_inExpr (ih : Agrees n) (hr : r'.left ≤ n) {h : Head} {start : Location}
    (hx : Read p items (h.bodyFrame start :: K) 0 false r x r') :
    Follows p r' inExpr fun o r'' =>
      r''.after items K false (h.tree ⟨start, r''.last⟩ x o) = p := by
  refine .deeper ?_
  simp only [inExpr]
  refine .ahead ?_
  by_cases hk : r'.tok.kind = .inWord
  · refine .pos hk ?_
    have h₁ := hx.after
    rw [Reader.after, settle_body_in h hk] at h₁
    refine (follows_next items _ (isEof_of_kind hk rfl) h₁).bind fun _ r₂ _ h₂ => ?_
    have hf : (h.nextFrame start x).isSequence = true := by cases h <;> rfl
    refine (ih.seqExpr (h₂.left.trans_le hr) hf h₂.drive).bind fun y r₃ _ h₃ => .pure ?_
    cases h with
    | plain b => exact h₃.close (fun _ => rfl) rfl rfl rfl
    | function fn ps => exact h₃.close (fun _ => rfl) rfl rfl rfl
  · refine .neg hk ?_
    refine .pure ?_
    cases h with
    | plain b => exact hx.close (fun _ => rfl) rfl (if_neg hk) rfl
    | function fn ps => exact hx.close (fun _ => rfl) rfl (if_neg hk) rfl

theorem follows_letRecExpr (ih : Agrees n) (hr : r.left ≤ n) {start : Location}
    (h : r.drive items K (.recWord start) = p) :
    Follows p r (letRecExpr start) fun x r' => r'.left < r.left ∧ r'.after items K false x = p := by
  refine .deeper ?_
  simp only [letRecExpr]
  refine (follows_functionHead items K h).bind fun hd r₁ _ ⟨hl₁, h₁⟩ => ?_
  refine (follows_equals items K h₁).bind fun _ r₂ _ h₂ => ?_
  have hl₂ := h₂.left.trans hl₁
  refine (ih.mustExpr (hl₂.trans_le hr) (fun _ => rfl) h₂.drive).bind fun body r₃ _ h₃ => ?_
  have hl₃ := h₃.left.trans hl₂
  refine (follows_inExpr (h := .function ⟨hd.1.name, hd.2, hd.1.nameRange⟩ hd.1.params.reverse) ih
    (hl₃.le.trans hr) h₃).bind fun o r₄ hl₄ h₄ => .behind (.pure ⟨hl₄.trans_lt hl₃, h₄⟩)

theorem follows_letExpr (ih : Agrees n) (hr : r.left ≤ n) (hk : r.tok.kind = .letWord)
    (h : r.proceed (.ok (.use items K r.tok (.letWord r.tok.range.start))) = p) :
    Follows p r letExpr fun x r' => r'.left < r.left ∧ r'.after items K false x = p := by
  refine .deeper ?_
  simp only [letExpr]
  refine .ahead ((follows_next items K (isEof_of_kind hk rfl) h).bind fun _ r₁ _ h₁ => .ahead ?_)
  have h₁' := h₁.drive
  rw [Reader.drive, State.step] at h₁'
  dsimp only at h₁'
  by_cases hk₁ : r₁.tok.kind = .recWord
  · rw [if_pos hk₁] at h₁'
    refine .pos hk₁ ?_
    refine (follows_next items K (isEof_of_kind hk₁ rfl) h₁').bind fun _ r₂ _ h₂ => ?_
    have hl₂ := h₂.left.trans h₁.left
    exact (follows_letRecExpr ih (hl₂.le.trans hr) h₂.drive).mono fun x r₃ _ h₃ =>
      ⟨h₃.1.trans hl₂, h₃.2⟩
  · rw [if_neg hk₁] at h₁'
    refine .neg hk₁ ?_
    refine (follows_binder items K h₁').bind fun b r₂ _ h₂ => ?_
    have hl₂ := h₂.1.trans h₁.left
    refine (follows_equals items K h₂.2).bind fun _ r₃ _ h₃ => ?_
    have hl₃ := h₃.left.trans hl₂
    refine (ih.mustExpr (hl₃.trans_le hr) (fun _ => rfl) h₃.drive).bind fun body r₄ _ h₄ => ?_
    have hl₄ := h₄.left.trans hl₃
    exact (follows_inExpr (h := .plain b) ih (hl₄.le.trans hr) h₄).bind
      fun o r₅ hl₅ h₅ => .behind (.pure ⟨hl₅.trans_lt hl₄, h₅⟩)

/-! ### Operands and operators -/

theorem follows_atom (ih : Agrees n) (hr : r.left ≤ n) (h : r.drive items K .start = p) :
    Follows p r simpleExpr fun
      | some x, r' => r'.left < r.left ∧ r'.drive items K (.atom x) = p
      | none, r' => r' = r ∧ r.tok.leaf? = none ∧ r.tok.kind ≠ .lparen := by
  rw [Reader.drive, State.step] at h
  dsimp only at h
  rw [begin] at h
  have hleaf : ∀ x, r.tok.leaf? = some x →
      r.proceed (.ok (.use items K r.tok (Slot.operand.fill x))) = p := by
    intro x hx
    rw [hx] at h
    exact h
  refine follows_simpleExpr ih hr hleaf fun hx hk => ?_
  rw [hx, hk] at h
  exact h

/-- **An operand** takes a token, or no expression starts here. -/
theorem follows_operand (ih : Agrees n) (hr : r.left ≤ n) (h : r.drive items K .start = p) :
    Follows p r operand fun
      | some x, r' => r'.left < r.left ∧ r'.after items K false x = p
      | none, r' => r' = r ∧ r.proceed (.error (.unexpected r.tok)) = p := by
  refine .deeper ?_
  simp only [operand]
  refine (follows_atom ih hr h).bind fun o r₁ _ h₁ => ?_
  cases o with
  | some x =>
    obtain ⟨hl, h₁⟩ := h₁
    rw [Reader.drive, State.step] at h₁
    dsimp only at h₁ ⊢
    refine .ahead ?_
    by_cases hk : r₁.tok.kind = .dot
    · rw [if_pos hk] at h₁
      refine .pos hk ?_
      exact (follows_elements ih (hl.le.trans hr) (fun _ => h₁) fun hn => absurd hk hn).bind
        fun y r₂ hl₂ h₂ => .pure ⟨hl₂.trans_lt hl, h₂⟩
    · rw [if_neg hk] at h₁
      refine .neg hk ?_
      exact (follows_application ih (hl.le.trans hr) h₁).bind
        fun y r₂ hl₂ h₂ => .pure ⟨hl₂.trans_lt hl, h₂⟩
  | none =>
    obtain ⟨rfl, hx, hp⟩ := h₁
    rw [Reader.drive, State.step] at h
    dsimp only at h ⊢
    rw [begin, hx] at h
    refine .ahead ?_
    dsimp only at h
    split at h
    · next hk => exact absurd hk hp
    · next hk =>
      rw [hk]
      exact (follows_unaryExpr ih hr (isEof_of_kind hk rfl) h).bind fun y r₂ _ h₂ => .pure h₂
    · next hk =>
      rw [hk]
      exact (follows_unaryExpr ih hr (isEof_of_kind hk rfl) h).bind fun y r₂ _ h₂ => .pure h₂
    · next hk =>
      rw [hk]
      exact (follows_unaryExpr ih hr (isEof_of_kind hk rfl) h).bind fun y r₂ _ h₂ => .pure h₂
    · next hk =>
      rw [hk]
      exact (follows_ifExpr ih hr hk h).bind fun y r₂ _ h₂ => .pure h₂
    · next hk =>
      rw [hk]
      exact (follows_letExpr ih hr hk h).bind fun y r₂ _ h₂ => .pure h₂
    · next hk =>
      rw [hk]
      refine (follows_next items K (isEof_of_kind hk rfl) h).bind fun _ r₂ _ h₂ => ?_
      exact (follows_application ih (h₂.left.le.trans hr) h₂.drive).bind
        fun y r₃ hl₃ h₃ => .pure ⟨hl₃.trans_lt h₂.left, h₃⟩
    · split
      all_goals first | contradiction | exact .pure ⟨rfl, h⟩

/-- One operator with its right operand, if the expression in front of it is its left operand. -/
theorem follows_operation (ih : Agrees n) (hr : r.left ≤ n) (hs : Selects K prec)
    (h : r.after items K false x = p) :
    Follows p r (operation prec x) fun
      | some y, r' => r'.left < r.left ∧ r'.after items K false y = p
      | none, r' => r' = r ∧ binding? prec r.tok = none := by
  refine .deeper ?_
  simp only [operation]
  refine .ahead ?_
  cases ho : binding? prec r.tok with
  | none => exact .pure ⟨rfl, rfl⟩
  | some op =>
    rw [Reader.after, settle_binding ((hs _).trans ho)] at h
    have he : r.tok.isEof = false := by
      cases he : r.tok.isEof with
      | false => rfl
      | true =>
        rw [binding?_eof (kind_of_isEof he)] at ho
        cases ho
    refine (follows_next items (.right x op :: K) he h).bind fun _ r₁ _ h₁ => ?_
    refine (ih.mustExpr (h₁.left.trans_le hr) (fun _ => rfl) h₁.drive).bind
      fun y r₂ _ h₂ => .pure ⟨h₂.left.trans h₁.left, ?_⟩
    exact h₂.close (fun _ => rfl) rfl rfl rfl

theorem follows_operators (ih : Agrees n) (hs : Selects K prec) : ∀ {r : Reader} {x : Expr},
    r.left ≤ n → r.after items K false x = p →
      Follows p r (operators prec x) fun y r' =>
        r'.after items K false y = p ∧ binding? prec r'.tok = none := by
  intro r
  induction hl : r.left using Nat.strong_induction_on generalizing r with
  | _ m ihm =>
    subst hl
    intro x hr h
    refine .deeper ?_
    simp only [operators]
    refine (follows_operation ih hr hs h).bind fun o r₁ _ h₁ => ?_
    cases o with
    | some y => exact ihm _ h₁.1 rfl (h₁.1.le.trans hr) h₁.2
    | none =>
      obtain ⟨rfl, hb⟩ := h₁
      exact .pure ⟨h, hb⟩

/-! ### The induction -/

theorem follows_expr (ih : Agrees n) (hr : r.left ≤ n) (hs : Selects K prec)
    (h : r.drive items K .start = p) :
    Follows p r (expr prec) fun
      | some x, r' => Read p items K prec false r x r'
      | none, r' => r' = r ∧ r.proceed (.error (.unexpected r.tok)) = p := by
  refine .deeper ?_
  simp only [expr]
  refine (follows_operand ih hr h).bind fun o r₁ _ h₁ => ?_
  cases o with
  | some x =>
    obtain ⟨hl, h₁⟩ := h₁
    exact (follows_operators ih hs (hl.le.trans hr) h₁).bind
      fun y r₂ hl₂ h₂ => .pure ⟨hl₂.trans_lt hl, h₂.1, h₂.2⟩
  | none => exact .pure h₁

theorem follows_mustExpr (ih : Agrees n) (hr : r.left ≤ n) (hs : Selects K prec)
    (h : r.drive items K .start = p) :
    Follows p r (mustExpr prec) (Read p items K prec false r) := by
  refine .deeper ?_
  simp only [mustExpr]
  refine (follows_expr ih hr hs h).bind fun o r₁ _ h₁ => ?_
  cases o with
  | some x => exact .pure h₁
  | none =>
    obtain ⟨rfl, h₁⟩ := h₁
    exact .stop h₁

theorem selects_sequence (hf : f.isSequence = true) : Selects (f :: K) 0 := by
  intro t
  cases f <;> first | rfl | cases hf

theorem follows_seqExpr (ih : Agrees n) (hr : r.left ≤ n) (hf : f.isSequence = true)
    (h : r.drive items (f :: K) .start = p) :
    Follows p r seqExpr (Read p items (f :: K) 0 true r) := by
  refine .deeper ?_
  simp only [seqExpr]
  refine (follows_mustExpr ih hr (selects_sequence hf) h).bind fun x r₁ _ h₁ => .ahead ?_
  by_cases hk : (decide (r₁.tok.kind = .semi) && !x.endsSequence) = true
  · refine .pos hk ?_
    rw [Bool.and_eq_true, decide_eq_true_eq, Bool.not_eq_true'] at hk
    have h₁' := h₁.after
    rw [Reader.after, settle_goesOn (show onSequence (f :: K) = true from hf) hk.1 hk.2] at h₁'
    refine (follows_next items (f :: K) (isEof_of_kind hk.1 rfl) h₁').bind
      fun _ r₂ _ h₂ => .ahead ?_
    have hl₂ := h₂.left.trans h₁.left
    have h₂' := h₂.drive
    rw [Reader.drive, State.step] at h₂'
    dsimp only at h₂'
    by_cases hk₂ : (r₂.tok.kind = .rparen || r₂.tok.kind = .eof) = true
    · rw [if_pos hk₂] at h₂'
      refine .pos hk₂ ?_
      refine .pure ⟨hl₂, h₂', ?_⟩
      rw [Bool.or_eq_true, decide_eq_true_eq, decide_eq_true_eq] at hk₂
      rcases hk₂ with hk₂ | hk₂ <;> exact binding?_of_kind hk₂ rfl 0
    · rw [if_neg hk₂] at h₂'
      refine .neg hk₂ ?_
      refine (ih.seqExpr (hl₂.trans_le hr) rfl h₂').bind fun y r₃ _ h₃ => .pure ?_
      exact ⟨h₃.left.trans hl₂, h₃.close (fun _ => rfl) rfl rfl rfl, h₃.stops⟩
  · refine .neg hk ?_
    refine .pure ⟨h₁.left, ?_, h₁.stops⟩
    have hg : f.goesOn false x r₁.tok = false := by
      refine Bool.eq_false_iff.2 fun hg => hk ?_
      rw [Frame.goesOn_iff] at hg
      simp [hg.2.2.1, hg.2.2.2]
    rw [← h₁.after, Reader.after, Reader.after, settle_whole hg]

/-- **The functions of the descent follow the reader with a stack.** -/
theorem agrees (n : Nat) : Agrees n := by
  induction n with
  | zero => exact ⟨fun h => absurd h (Nat.not_lt_zero _), fun h => absurd h (Nat.not_lt_zero _)⟩
  | succ n ih =>
    exact ⟨fun hr hs h => follows_mustExpr ih (Nat.le_of_lt_succ hr) hs h,
      fun hr hf h => follows_seqExpr ih (Nat.le_of_lt_succ hr) hf h⟩

/-! ### Programs -/

theorem follows_item (h : r.drive items [] .top = p) (he : r.tok.isEof = false) :
    Follows p r item fun
      | some x, r' => r'.left < r.left ∧ r'.drive (x :: items) [] .top = p
      | none, r' => r'.left < r.left ∧ r'.drive items [] .top = p := by
  rw [Reader.drive, State.step] at h
  dsimp only at h
  rw [top] at h
  refine .ahead ?_
  split at h
  · next hk =>
    rw [Token.isEof, hk] at he
    cases he
  · next hk =>
    refine .pos hk ?_
    exact (follows_next items [] (isEof_of_kind hk rfl) h).bind fun _ r₁ _ h₁ =>
      .pure ⟨h₁.left, h₁.drive⟩
  · next hk =>
    refine .neg hk ?_
    have hs : Selects [] 0 := fun _ => rfl
    refine (follows_mustExpr (agrees _) (Nat.le_refl _) hs h).bind
      fun x r₁ _ h₁ => .pure ⟨h₁.left, ?_⟩
    rw [← h₁.after, Reader.after, settle_nil, h₁.stops]
    rfl

theorem program_eq_ofItems (xs : List Expr) (last : Location) (t : Token) :
    State.program ⟨xs.reverse, [], .top, last⟩ t = ofItems xs t := by
  rw [State.program, List.reverse_reverse, ofItems]
  cases xs with
  | nil => rfl
  | cons x xs =>
    have hne : (x :: xs).reverse ≠ [] := List.reverse_ne_nil_iff.2 (List.cons_ne_nil x xs)
    obtain ⟨y, ys, hy⟩ := List.exists_cons_of_ne_nil hne
    have hl : (x :: xs).getLast? = some y := by rw [← List.head?_reverse, hy, List.head?_cons]
    rw [hy, hl]
    rfl

theorem follows_items : ∀ {r : Reader} {xs : List Expr}, r.drive xs.reverse [] .top = p →
    Follows p r (Descent.items xs) fun ys r' => p = ⟨.ok (ofItems ys r'.tok), r'.src⟩ := by
  intro r
  induction hl : r.left using Nat.strong_induction_on generalizing r with
  | _ m ihm =>
    subst hl
    intro xs h
    refine .deeper ?_
    simp only [Descent.items]
    refine .ahead ?_
    cases he : r.tok.isEof with
    | true =>
      refine .pure ?_
      rw [← h, Reader.drive, State.step]
      dsimp only
      rw [top, kind_of_isEof he, Reader.proceed, he, if_pos rfl, program_eq_ofItems]
    | false =>
      refine (follows_item h he).bind fun o r₁ _ h₁ => ?_
      cases o with
      | some x => exact ihm _ h₁.1 rfl (by simpa using h₁.2)
      | none => exact ihm _ h₁.1 rfl h₁.2

end

end Descent

end SmallMl.Grammar
