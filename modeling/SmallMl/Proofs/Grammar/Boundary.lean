import SmallMl.Proofs.Grammar.LetChain
import SmallMl.Proofs.Grammar.Replay

/-!
# The token behind an expression

`Expression.run_ends`: an expression whose bindings stand in parentheses is handed to the frames
below it, whatever mark stands behind it, be it `;`, `in`, `then`, the closing parenthesis or the
end.  `else` is one of these marks if every `if` stands in parentheses as well; otherwise the
expression takes it for itself.

That no `if` is left then is a matter of counting parentheses: what a phrase opens it closes
(`Derives.balanced`), so a frame that is left on the stack at the end has its first token outside
all of them (`StackOf.takesElse_eq_false`).
-/

namespace SmallMl.Grammar

/-! ### Parentheses of a phrase -/

/-- The tokens leave as many parentheses open as they find. -/
def Balanced (ts : List Token) : Prop := ∀ d, ts.foldl depthAfter d = d

namespace Balanced

variable {ts us : List Token} {t a b : Token} {k : Kind}

theorem nil : Balanced [] := fun _ => rfl

theorem append (h : Balanced ts) (g : Balanced us) : Balanced (ts ++ us) := by
  intro d
  rw [List.foldl_append, h d, g d]

theorem cons (hk : t.kind = k) (hl : k ≠ .lparen) (hr : k ≠ .rparen) (h : Balanced ts) :
    Balanced (t :: ts) := by
  intro d
  rw [List.foldl_cons, depthAfter_of_kind hk hl hr, h d]

theorem single (hk : t.kind = k) (hl : k ≠ .lparen) (hr : k ≠ .rparen) : Balanced [t] :=
  nil.cons hk hl hr

theorem parens (ha : a.kind = .lparen) (h : Balanced ts) (hb : b.kind = .rparen) :
    Balanced (a :: (ts ++ [b])) := by
  intro d
  rw [List.foldl_cons, List.foldl_append, depthAfter_lparen ha, h (d + 1), List.foldl_cons,
    depthAfter_rparen hb, List.foldl_nil]

theorem index {d : Token} (hd : d.kind = .dot) (ha : a.kind = .lparen) (h : Balanced ts)
    (hb : b.kind = .rparen) : Balanced (d :: a :: (ts ++ [b])) :=
  (parens ha h hb).cons hd (by simp) (by simp)

theorem leaf {x : Expr} (h : t.leaf? = some x) : Balanced [t] := by
  intro d
  rw [List.foldl_cons, depthAfter_leaf h, List.foldl_nil]

end Balanced

section

variable {ts : List Token}

theorem TypeOf.balanced {ty : Ty} (h : TypeOf ts ty) : Balanced ts := by
  induction h with
  | basic hk _ => exact .single hk (by simp) (by simp)
  | array _ hk _ ih => exact ih.append (.single hk (by simp) (by simp))

theorem BinderOf.balanced {b : Binder} (h : BinderOf ts b) : Balanced ts := by
  cases h with
  | bare hk => exact .single hk (by simp) (by simp)
  | annotated ha hn hc hty hb =>
    have ht := (hty.balanced.cons hc (by simp) (by simp)).cons hn (by simp) (by simp)
    exact .parens ha ht hb

theorem ParamsOf.balanced {ps : List Binder} (h : ParamsOf ts ps) : Balanced ts := by
  induction h with
  | nil => exact .nil
  | snoc _ hb ih => exact ih.append hb.balanced

theorem ResultOf.balanced {ty : Option Ty} (h : ResultOf ts ty) : Balanced ts := by
  cases h with
  | none => exact .nil
  | some hc hty => exact hty.balanced.cons hc (by simp) (by simp)

theorem LetHead.balanced {b : Binder} (h : LetHead ts b) : Balanced ts := by
  cases h with
  | intro hl hb he =>
    exact (hb.balanced.append (.single he (by simp) (by simp))).cons hl (by simp) (by simp)

theorem RecHead.balanced {f : Binder} {ps : List Binder} (h : RecHead ts f ps) :
    Balanced ts := by
  cases h with
  | intro hl hr hn hp _ hu he =>
    have hb := hp.balanced.append (hu.balanced.append (.single he (by simp) (by simp)))
    exact ((hb.cons hn (by simp) (by simp)).cons hr (by simp) (by simp)).cons hl (by simp) (by simp)

theorem prefixOp?_ne_paren {k : Kind} {op : UnaryOp} (h : prefixOp? k = some op) :
    k ≠ .lparen ∧ k ≠ .rparen := by
  constructor <;>
  · rintro rfl
    cases h

/-- **A phrase closes the parentheses that it opens**, and no others. -/
theorem Derives.balanced {c : Category} {x : Expr} (h : Derives c ts x) : Balanced ts := by
  induction h with
  | leaf ht => exact .leaf ht
  | unit ha hb => exact .parens ha .nil hb
  | paren ha _ hb ih => exact .parens ha ih hb
  | calleeMake hk => exact .single hk (by simp) (by simp)
  | calleeAtom _ ih | arrayAtom _ ih | operandCallee _ ih | operandCall _ ih | operandArray _ ih
    | exprOperand _ ih | seqExpr _ ih => exact ih
  | firstArgument _ _ ihf iha | nextArgument _ _ ihf iha => exact ihf.append iha
  | get _ hd ho _ hc iha ihi => exact iha.append (.index hd ho ihi hc)
  | @put ts us vs d o c w a i v _ hd ho _ hc hw _ iha ihi ihv =>
    have hi := (Balanced.index hd ho ihi hc).append (ihv.cons hw (by simp) (by simp))
    simpa using iha.append hi
  | prefixed ht _ ih => exact ih.cons rfl (prefixOp?_ne_paren ht).1 (prefixOp?_ne_paren ht).2
  | cond hi _ hh _ ihc ihy =>
    exact (ihc.append (ihy.cons hh (by simp) (by simp))).cons hi (by simp) (by simp)
  | condElse hi _ hh _ he _ ihc ihy ihn =>
    have hy := ihy.append (ihn.cons he (by simp) (by simp))
    exact (ihc.append (hy.cons hh (by simp) (by simp))).cons hi (by simp) (by simp)
  | bind hh _ ih => exact hh.balanced.append ih
  | bindRec hh _ ih => exact hh.balanced.append ih
  | bindIn hh _ hn _ ih ih' =>
    exact hh.balanced.append (ih.append (ih'.cons hn (by simp) (by simp)))
  | bindRecIn hh _ hn _ ih ih' =>
    exact hh.balanced.append (ih.append (ih'.cons hn (by simp) (by simp)))
  | binary _ ht _ ih ih' | seqCons _ ht _ ih ih' =>
    exact ih.append (ih'.cons ht (by simp) (by simp))
  | seqTrailing _ ht ih => exact ih.append (.single ht (by simp) (by simp))

/-- A frame that waits for no closing parenthesis has none open. -/
theorem FrameOf.balanced {f : Frame} (h : FrameOf ts f) (hp : f.isParen = false) :
    Balanced ts := by
  cases h with
  | paren | index => cases hp
  | right hx ht | sequel hx ht => exact hx.balanced.append (.single ht (by simp) (by simp))
  | operand ht => exact .single rfl (prefixOp?_ne_paren ht).1 (prefixOp?_ne_paren ht).2
  | @value ts us d o c w a i ha hd ho hi hc hw =>
    have hb := (Balanced.index hd ho hi.balanced hc).append (.single hw (by simp) (by simp))
    simpa using ha.balanced.append hb
  | condition hi => exact .single hi (by simp) (by simp)
  | consequent hi hc hh =>
    exact (hc.balanced.append (.single hh (by simp) (by simp))).cons hi (by simp) (by simp)
  | alternative hi hc hh hy he =>
    have hb := hy.balanced.append (.single he (by simp) (by simp))
    exact (hc.balanced.append (hb.cons hh (by simp) (by simp))).cons hi (by simp) (by simp)
  | letBody hh => exact hh.balanced
  | recBody hh => exact hh.balanced
  | letNext hh hx hn =>
    exact hh.balanced.append (hx.balanced.append (.single hn (by simp) (by simp)))
  | recNext hh hx hn =>
    exact hh.balanced.append (hx.balanced.append (.single hn (by simp) (by simp)))

theorem StackOf.balanced {stack : List Frame} (h : StackOf ts stack)
    (hp : ∀ f ∈ stack, f.isParen = false) : Balanced ts := by
  induction h with
  | nil => exact .nil
  | cons _ hf _ ih =>
    obtain ⟨hpf, hps⟩ := List.forall_mem_cons.1 hp
    exact (ih hps).append (hf.balanced hpf)

theorem ItemsOf.balanced {items : List Expr} (h : ItemsOf ts items) : Balanced ts := by
  induction h with
  | nil => exact .nil
  | semi _ ht ih => exact ih.append (.single ht (by simp) (by simp))
  | item _ hx ih => exact ih.append hx.balanced

end

/-! ### Tokens outside parentheses -/

/-- A token of the kind `k` stands outside all parentheses; `d` are open at the start. -/
def outside (k : Kind) : Nat → List Token → Bool
  | _, [] => false
  | d, t :: ts => (d == 0 && t.kind = k) || outside k (depthAfter d t) ts

theorem openLet_eq : ∀ (d : Nat) (ts : List Token), openLet d ts = outside .letWord d ts := by
  intro d ts
  induction ts generalizing d with
  | nil => rfl
  | cons t ts ih => rw [openLet, outside, ih]

theorem outside_append (k : Kind) (us : List Token) : ∀ (d : Nat) (ts : List Token),
    outside k d (ts ++ us) = (outside k d ts || outside k (ts.foldl depthAfter d) us) := by
  intro d ts
  induction ts generalizing d with
  | nil => rfl
  | cons t ts ih => rw [List.cons_append, outside, ih, outside, List.foldl_cons, Bool.or_assoc]

/-- A frame that has a use for `else` shows its `if` outside all parentheses. -/
theorem StackOf.takesElse_eq_false {ks : List Token} {stack : List Frame} (h : StackOf ks stack)
    (hp : ∀ f ∈ stack, f.isParen = false) (ho : outside .ifWord 0 ks = false) :
    ∀ f ∈ stack, f.takesElse = false := by
  induction h with
  | nil => simp
  | @cons ts us f fs hk hf _ ih =>
    obtain ⟨_, hps⟩ := List.forall_mem_cons.1 hp
    rw [outside_append, hk.balanced hps, Bool.or_eq_false_iff] at ho
    refine List.forall_mem_cons.2 ⟨?_, ih hps ho.1⟩
    cases hf with
    | consequent hi _ _ => simp [outside, hi] at ho
    | _ => rfl

/-! ### The token behind an expression -/

section

variable {ts : List Token} {x : Expr}

theorem Handed.ne_nil {t : Token} {stack : List Frame} {whole : Bool} {xs : List Token} {y : Expr}
    (h : Handed t stack whole xs y) : xs ≠ [] := by
  cases h with
  | expr hy => exact hy.ne_nil
  | seq hy _ _ => exact hy.ne_nil

/-- What the end token completes is a phrase. -/
theorem FocusOf.handed {fs : List Token} {focus : Focus} {stack : List Frame} {last : Location}
    {t : Token} {whole : Bool} {y : Expr} (h : FocusOf fs focus) (ht : t.kind = .eof)
    (hl : fs ≠ [] → last = endOf fs) (hs : ∀ x r, focus = .semi x r → onSequence stack = true)
    (hm : focusMove last t focus = .hand whole y) : Handed t stack whole fs y := by
  have hcall : ∀ {f : Expr} {as : List Expr}, CallOf fs f as →
      callMove last f as t = .hand whole y → Handed t stack whole fs y := by
    intro f as hc h
    simp only [callMove, Token.leaf?, ht, reduceCtorEq, if_false] at h
    cases h
    exact .expr (.exprOperand (hc.operand (s := ⟨[], [], .start, last⟩) (hl hc.ne_nil)))
  cases h with
  | start => exact absurd hm (startMove_ne_hand _)
  | opened _ _ =>
    simp only [focusMove, ht, reduceCtorEq, if_false] at hm
    exact absurd hm (startMove_ne_hand _)
  | atom hx =>
    simp only [focusMove, ht, reduceCtorEq, if_false] at hm
    exact hcall (.callee (.calleeAtom hx)) hm
  | call hc => exact hcall hc hm
  | @indexed as us d o c a i ha hd ho hi hc =>
    simp only [focusMove, ht] at hm
    cases hm
    have hg := Derives.get ha hd ho hi hc
    rw [spanOf, startOf_append ha.ne_nil, ← ha.start_eq, ← hl (by simp)] at hg
    exact .expr (.exprOperand (.operandArray hg))
  | semi hx hm' =>
    simp only [focusMove, ht] at hm
    cases hm
    exact .seq (.seqTrailing hx hm') (hs _ _ rfl) (by rw [ht]; rfl)
  | params hh =>
    simp only [focusMove, ht, equalsMove, binderMove] at hm
    simp at hm
    split at hm <;> cases hm
  | _ => simp [focusMove, binderMove, equalsMove, typeMove, State.isArrayWord, ht] at hm

/-- What the end token completes a whole stack to is a phrase. -/
theorem StackOf.derives_of_eof {ks : List Token} {stack : List Frame} {t : Token} {s : State}
    (hk : StackOf ks stack) (ht : t.kind = .eof) : ∀ {whole : Bool} {xs : List Token} {y : Expr},
    Handed t stack whole xs y → settle [] (endOf xs) t whole y stack = .ok s →
      s.items = [x] → Derives .expr (ks ++ xs) x := by
  induction hk with
  | nil =>
    intro whole xs y hy h hx
    rw [settle_nil, binding?_eof ht] at h
    simp only [top, ht] at h
    cases h
    cases hx
    cases hy with
    | expr hy => exact hy
    | seq _ hq _ => cases hq
  | @cons ks us f fs hk hf hs ih =>
    intro whole xs y hy h hx
    have hd := hy.derives
    rw [settle_cons, binding?_eof ht, goesOn_eof ht, taken?_eof ht] at h
    simp only [Bool.false_eq_true, if_false] at h
    split at h
    · next z hz =>
      have hc := hf.closed hd rfl hz
      have hh : Handed t fs f.isSequel (us ++ xs) z := by
        cases hq : f.isSequel with
        | false =>
          rw [hq] at hc
          exact .expr hc
        | true =>
          rw [hq] at hc
          exact .seq hc (hs hq) (by rw [ht]; rfl)
      rw [← endOf_append hd.ne_nil us] at h
      rw [List.append_assoc]
      exact ih hh h hx
    · cases h

/-- **What is an expression on its own is a phrase of the grammar.** -/
theorem Expression.derives (h : Expression ts x) : Derives .expr ts x := by
  obtain ⟨t, us, rfl, hsemi, _, _⟩ := h.first
  obtain ⟨s, _, hn, hf, hreads, _, he⟩ := h.spec
  obtain ⟨whole, y, hm, hs⟩ := he (Stream.endToken default) rfl
  generalize hts : t :: us = ts at hreads
  cases hreads with
  | top => exact absurd rfl hf
  | @inside is ks fs items stack focus hi hk hfo hq =>
    subst hn
    -- in front of an item there are only semicolons, and the first token is none
    have his : is = [] := by
      cases is with
      | nil => rfl
      | cons m is =>
        have hm := (List.cons.inj hts).1
        exact absurd (hi.kind_of_nil m List.mem_cons_self) (hm ▸ hsemi)
    subst his
    rw [List.nil_append] at hs hm ⊢
    have hl : fs ≠ [] → endOf (ks ++ fs) = endOf fs := fun hne => endOf_append hne ks
    have hh := hfo.handed rfl hl hq hm
    rw [hl hh.ne_nil] at hs
    exact hk.derives_of_eof rfl hh hs rfl

/-- **An expression whose bindings stand in parentheses**, in front of whatever ends it: the mark
behind it meets the frames below it. -/
theorem Expression.run_ends (h : Expression ts x) (hlet : outside .letWord 0 ts = false)
    {items : List Expr} {fs : List Frame} (hl : Loose fs) (l : Location) :
    ∃ s, State.run ⟨items, fs, .start, l⟩ ts = .ok s ∧
      ∀ t, Ends t → (t.kind = .elseWord → outside .ifWord 0 ts = false) →
        s.step t = settle items (endOf ts) t false x fs := by
  rw [← openLet_eq] at hlet
  obtain ⟨s, hr, hn, hf, hreads, hne, hparen, hends⟩ := h.confined hlet
  refine ⟨s.over items fs, ?_, fun t ht hif => hends t ht (fun hk => ?_) items fs⟩
  · rw [Expression.run_start hne]
    exact State.run_over hl (by simp [State.fresh]) hr hn
  · cases hreads with
    | top => exact absurd rfl hf
    | @inside is ks gs _ _ _ hi hst _ _ =>
      subst hn
      have ho := hif hk
      rw [outside_append, outside_append, hi.balanced, Bool.or_eq_false_iff,
        Bool.or_eq_false_iff] at ho
      exact hst.takesElse_eq_false hparen ho.2.1

end

/-- An expression whose bindings stand in parentheses, with its tokens. -/
structure Phrase where
  tokens : List Token
  tree : Expr
  treeOf : Expression tokens tree
  confined : outside .letWord 0 tokens = false

namespace Phrase

theorem ne_nil (p : Phrase) : p.tokens ≠ [] := p.treeOf.derives.ne_nil

theorem range_eq (p : Phrase) : p.tree.range = spanOf p.tokens :=
  p.treeOf.derives.range_eq_spanOf (by simp)

theorem run (p : Phrase) {items : List Expr} {fs : List Frame} (hl : Loose fs) (l : Location) :
    ∃ s, State.run ⟨items, fs, .start, l⟩ p.tokens = .ok s ∧
      ∀ t, Ends t → (t.kind = .elseWord → outside .ifWord 0 p.tokens = false) →
        s.step t = settle items (endOf p.tokens) t false p.tree fs :=
  p.treeOf.run_ends p.confined hl l

def leaf (t : Token) {x : Expr} (h : t.leaf? = some x) : Phrase where
  tokens := [t]
  tree := x
  treeOf := expression_leaf h
  confined := by
    have hk : t.kind ≠ .letWord := by
      intro hk
      simp [Token.leaf?, hk] at h
    simp [outside, hk]

end Phrase

end SmallMl.Grammar
