import Mathlib.Data.List.Induction
import SmallMl.Proofs.Grammar.Confinement

/-!
# Chains of bindings

In `B₁ in … Bₖ in C ; e`, where `C` is a binding without `in`, the semicolon ends the innermost
sequence, the one behind `Bₖ in`.  What becomes of `e` then depends on the length of the chain.

* For `k = 1` the semicolon stands at the top level, and `e` is an item of its own.
* For `k ≥ 2` it stands in the sequence behind `Bₖ₋₁ in`.  The expression in front of it, `Bₖ in C`,
  is no `let` without `in`, so this sequence goes on with `e`.

`Program.let_chain_items` says so for all bindings whose bodies keep their own bindings in
parentheses.  The head of a binding is read token by token (`HeadOf.run`), its body by
`Expression.run_stop`.
-/

namespace SmallMl.Grammar

/-! ### Heads -/

inductive Head
  | plain (b : Binder)
  | function (fn : Binder) (params : List Binder)

inductive HeadOf : List Token → Head → Prop
  | plain {ts : List Token} {b : Binder} : LetHead ts b → HeadOf ts (.plain b)
  | function {ts : List Token} {f : Binder} {ps : List Binder} : RecHead ts f ps →
      HeadOf ts (.function f ps)

namespace Head

def tree : Head → Range → Expr → Option Expr → Expr
  | plain b, r, x, n => .bind r b x n
  | function f ps, r, x, n => .bindRec r f ps x n

def bodyFrame (start : Location) : Head → Frame
  | plain b => .letBody start b
  | function f ps => .recBody start f ps

def nextFrame (start : Location) (x : Expr) : Head → Frame
  | plain b => .letNext start b x
  | function f ps => .recNext start f ps x

theorem endsSequence_tree (h : Head) (r : Range) (x : Expr) (n : Option Expr) :
    (h.tree r x n).endsSequence = n.isNone := by
  cases h <;> cases n <;> rfl

end Head

section

variable {items : List Expr} {fs : List Frame}

theorem run_type {focus : Focus} {next : Ty → Focus} {ts : List Token} {ty : Ty}
    (hfirst : ∀ l t,
      State.step ⟨items, fs, focus, l⟩ t = State.stepType ⟨items, fs, focus, l⟩ t next)
    (hnext : ∀ l t ty, State.isArrayWord t = true →
      State.step ⟨items, fs, next ty, l⟩ t = .ok (.use items fs t (next (.array ty))))
    (h : TypeOf ts ty) (l : Location) :
    ∃ l', State.run ⟨items, fs, focus, l⟩ ts = .ok ⟨items, fs, next ty, l'⟩ := by
  induction h with
  | @basic t b hk hb =>
    have hs : State.step ⟨items, fs, focus, l⟩ t = .ok (.use items fs t (next (.basic b))) := by
      rw [hfirst, State.stepType, if_pos hk, hb]
      rfl
    exact ⟨t.range.stop, State.run_cons hs []⟩
  | @array ts t ty _ hk hw ih =>
    obtain ⟨l', hr⟩ := ih
    refine ⟨t.range.stop, ?_⟩
    rw [State.run_append hr]
    exact State.run_cons (hnext l' t ty (isArrayWord_iff.2 ⟨hk, hw⟩)) []

theorem run_binder {focus : Focus} {hd : Header} {ts : List Token} {b : Binder}
    (hfirst : ∀ l t, t.kind = .ident ∨ t.kind = .lparen →
      State.step ⟨items, fs, focus, l⟩ t = State.stepBinder ⟨items, fs, focus, l⟩ hd t)
    (h : BinderOf ts b) (l : Location) :
    ∃ l', State.run ⟨items, fs, focus, l⟩ ts = .ok ⟨items, fs, hd.bound b, l'⟩ := by
  cases h with
  | @bare t hk =>
    have hs : State.step ⟨items, fs, focus, l⟩ t
        = .ok (.use items fs t (hd.bound ⟨t.name, none, t.range⟩)) := by
      rw [hfirst l t (.inl hk), State.stepBinder, hk]
      rfl
    exact ⟨t.range.stop, State.run_cons hs []⟩
  | @annotated a n c r ts ty ha hn hc hty hr =>
    have h₁ : State.step ⟨items, fs, focus, l⟩ a
        = .ok (.use items fs a (.binderOpened hd a.range.start)) := by
      rw [hfirst l a (.inr ha), State.stepBinder, ha]
      rfl
    have h₂ : State.step (.use items fs a (.binderOpened hd a.range.start)) n
        = .ok (.use items fs n (.binderName hd a.range.start n.name)) := by
      simp only [State.use, State.step, if_pos hn]
      rfl
    have h₃ : State.step (.use items fs n (.binderName hd a.range.start n.name)) c
        = .ok (.use items fs c (.binderColon hd a.range.start n.name)) := by
      simp only [State.use, State.step, if_pos hc]
      rfl
    have harr : ∀ l t ty, State.isArrayWord t = true →
        State.step ⟨items, fs, .binderType hd a.range.start n.name ty, l⟩ t
          = .ok (.use items fs t (.binderType hd a.range.start n.name (.array ty))) := by
      intro l t ty ht
      simp only [State.step, if_pos ht]
      rfl
    have hcol : ∀ l t, State.step ⟨items, fs, .binderColon hd a.range.start n.name, l⟩ t
        = State.stepType ⟨items, fs, .binderColon hd a.range.start n.name, l⟩ t
          (.binderType hd a.range.start n.name) := fun _ _ => rfl
    obtain ⟨l', h₄⟩ := run_type hcol harr hty c.range.stop
    have h₅ : State.step ⟨items, fs, .binderType hd a.range.start n.name ty, l'⟩ r
        = .ok (.use items fs r (hd.bound ⟨n.name, some ty, ⟨a.range.start, r.range.stop⟩⟩)) := by
      have hw : ¬ State.isArrayWord r = true := by simp [State.isArrayWord, hr]
      simp only [State.step, if_neg hw, if_pos hr]
      rfl
    refine ⟨r.range.stop, ?_⟩
    rw [State.run_cons h₁, State.run_cons h₂, State.run_cons h₃]
    exact (State.run_append h₄).trans (State.run_cons h₅ [])

theorem LetHead.run {hs : List Token} {b : Binder} (h : LetHead hs b) (l : Location) :
    ∃ l', State.run ⟨items, fs, .start, l⟩ hs
      = .ok ⟨items, .letBody (startOf hs) b :: fs, .start, l'⟩ := by
  cases h with
  | @intro w e ts b hw hb he =>
    have h₁ : State.step ⟨items, fs, .start, l⟩ w
        = .ok (.use items fs w (.letWord w.range.start)) := by
      simp [State.step, begin, Token.leaf?, hw]
    have hbind : ∀ l t, t.kind = .ident ∨ t.kind = .lparen →
        State.step ⟨items, fs, .letWord w.range.start, l⟩ t
          = State.stepBinder ⟨items, fs, .letWord w.range.start, l⟩ (.plain w.range.start) t := by
      intro l t ht
      have hk : t.kind ≠ .recWord := by rcases ht with ht | ht <;> simp [ht]
      simp only [State.step, if_neg hk]
    obtain ⟨l', h₂⟩ := run_binder hbind hb w.range.stop
    have h₃ : State.step ⟨items, fs, .equals w.range.start b, l'⟩ e
        = .ok (.use items (.letBody w.range.start b :: fs) e .start) := by
      simp only [State.step, State.stepEquals, if_pos he]
      rfl
    refine ⟨e.range.stop, ?_⟩
    rw [State.run_cons h₁]
    exact (State.run_append h₂).trans (State.run_cons h₃ [])

theorem run_params {st : Location} {name : String} {r : Range} {ts : List Token}
    {ps : List Binder} (h : ParamsOf ts ps) (l : Location) :
    ∃ l', State.run ⟨items, fs, .params ⟨st, name, r, []⟩, l⟩ ts
      = .ok ⟨items, fs, .params ⟨st, name, r, ps.reverse⟩, l'⟩ := by
  induction h with
  | nil => exact ⟨l, rfl⟩
  | @snoc ts us ps p _ hb ih =>
    obtain ⟨l', hr⟩ := ih
    have hbind : ∀ l t, t.kind = .ident ∨ t.kind = .lparen →
        State.step ⟨items, fs, .params ⟨st, name, r, ps.reverse⟩, l⟩ t
          = State.stepBinder ⟨items, fs, .params ⟨st, name, r, ps.reverse⟩, l⟩
            (.function ⟨st, name, r, ps.reverse⟩) t := by
      intro l t ht
      have hk : (decide (t.kind = .ident) || decide (t.kind = .lparen)) = true := by
        rcases ht with ht | ht <;> simp [ht]
      simp only [State.step, State.stepParams, if_pos hk]
    obtain ⟨l'', hr'⟩ := run_binder hbind hb l'
    refine ⟨l'', ?_⟩
    rw [State.run_append hr, hr', List.reverse_append]
    rfl

theorem run_result {hd : FunctionHead} {us : List Token} {e : Token} {ty : Option Ty}
    (h : ResultOf us ty) (hp : hd.params ≠ []) (he : e.kind = .operator .equal) (l : Location) :
    State.run ⟨items, fs, .params hd, l⟩ (us ++ [e])
      = .ok ⟨items, hd.frame ty :: fs, .start, e.range.stop⟩ := by
  have hp : hd.params.isEmpty = false := by simpa using hp
  cases h with
  | none =>
    have hs : State.step ⟨items, fs, .params hd, l⟩ e
        = .ok (.use items (hd.frame none :: fs) e .start) := by
      simp [State.step, State.stepParams, State.stepEquals, State.await, he, hp]
    exact State.run_cons hs []
  | @some c ts ty hc hty =>
    have h₁ : State.step ⟨items, fs, .params hd, l⟩ c
        = .ok (.use items fs c (.resultColon hd)) := by
      simp [State.step, State.stepParams, State.goOn, hc, hp]
    have hcol : ∀ l t, State.step ⟨items, fs, .resultColon hd, l⟩ t
        = State.stepType ⟨items, fs, .resultColon hd, l⟩ t (.resultType hd) := fun _ _ => rfl
    have harr : ∀ l t ty, State.isArrayWord t = true →
        State.step ⟨items, fs, .resultType hd ty, l⟩ t
          = .ok (.use items fs t (.resultType hd (.array ty))) := by
      intro l t ty ht
      simp only [State.step, if_pos ht]
      rfl
    obtain ⟨l', h₂⟩ := run_type hcol harr hty c.range.stop
    have h₃ : State.step ⟨items, fs, .resultType hd ty, l'⟩ e
        = .ok (.use items (hd.frame (some ty) :: fs) e .start) := by
      have hw : ¬ State.isArrayWord e = true := by simp [State.isArrayWord, he]
      simp only [State.step, if_neg hw, State.stepEquals, if_pos he]
      rfl
    rw [List.cons_append, State.run_cons h₁]
    exact (State.run_append h₂).trans (State.run_cons h₃ [])

theorem RecHead.run {hs : List Token} {f : Binder} {ps : List Binder} (h : RecHead hs f ps)
    (l : Location) : ∃ l', State.run ⟨items, fs, .start, l⟩ hs
      = .ok ⟨items, .recBody (startOf hs) f ps :: fs, .start, l'⟩ := by
  cases h with
  | @intro w r n e ts us ps ty hw hr hn hp hps hu he =>
    have h₁ : State.step ⟨items, fs, .start, l⟩ w
        = .ok (.use items fs w (.letWord w.range.start)) := by
      simp [State.step, begin, Token.leaf?, hw]
    have h₂ : State.step (.use items fs w (.letWord w.range.start)) r
        = .ok (.use items fs r (.recWord w.range.start)) := by
      simp only [State.use, State.step, if_pos hr]
      rfl
    have h₃ : State.step (.use items fs r (.recWord w.range.start)) n
        = .ok (.use items fs n (.params ⟨w.range.start, n.name, n.range, []⟩)) := by
      simp only [State.use, State.step, if_pos hn]
      rfl
    have hparams : ∃ l',
        State.run (.use items fs n (.params ⟨w.range.start, n.name, n.range, []⟩)) ts
        = .ok ⟨items, fs, .params ⟨w.range.start, n.name, n.range, ps.reverse⟩, l'⟩ :=
      run_params hp n.range.stop
    obtain ⟨l', h₄⟩ := hparams
    have h₅ : State.run ⟨items, fs, .params ⟨w.range.start, n.name, n.range, ps.reverse⟩, l'⟩
        (us ++ [e]) = .ok ⟨items, _, .start, e.range.stop⟩ :=
      run_result hu (by simpa using hps) he l'
    refine ⟨e.range.stop, ?_⟩
    rw [State.run_cons h₁, State.run_cons h₂, State.run_cons h₃, State.run_append h₄, h₅]
    simp [FunctionHead.frame]

/-- **The head of a binding puts its frame on the stack.** -/
theorem HeadOf.run {hs : List Token} {hd : Head} (h : HeadOf hs hd) (l : Location) :
    ∃ l', State.run ⟨items, fs, .start, l⟩ hs
      = .ok ⟨items, hd.bodyFrame (startOf hs) :: fs, .start, l'⟩ := by
  cases h with
  | plain h => exact h.run l
  | function h => exact h.run l

end

/-! ### The frames of a binding -/

section

variable {items : List Expr} {fs : List Frame} {last start : Location} {t : Token} {x y : Expr}
  (h : Head)

theorem settle_body_in (ht : t.kind = .inWord) :
    settle items last t false x (h.bodyFrame start :: fs)
      = .ok (.use items (h.nextFrame start x :: fs) t .start) := by
  rw [settle_cons, binding?_stop (.inl ht)]
  cases h <;> simp [Head.bodyFrame, Head.nextFrame, Frame.goesOn, Frame.isSequence, Frame.taken?,
    ht]

theorem settle_body_semi (ht : t.kind = .semi) :
    settle items last t false x (h.bodyFrame start :: fs)
      = settle items last t false (h.tree ⟨start, last⟩ x none) fs := by
  rw [settle_cons, binding?_stop (.inr (.inl ht))]
  cases h <;> simp [Head.bodyFrame, Head.tree, Frame.goesOn, Frame.isSequence, Frame.taken?,
    Frame.closed?, Frame.isSequel, ht]

/-- A semicolon behind a `let` without `in` ends the sequence behind `in`. -/
theorem settle_next_ends (ht : t.kind = .semi) (hy : y.endsSequence = true) :
    settle items last t false y (h.nextFrame start x :: fs)
      = settle items last t false (h.tree ⟨start, last⟩ x (some y)) fs := by
  rw [settle_cons, binding?_stop (.inr (.inl ht))]
  cases h <;> simp [Head.nextFrame, Head.tree, Frame.goesOn, Frame.taken?, Frame.closed?,
    Frame.isSequel, hy]

theorem settle_next_goesOn (ht : t.kind = .semi) (hy : y.endsSequence = false) :
    settle items last t false y (h.nextFrame start x :: fs)
      = .ok (.use items (h.nextFrame start x :: fs) t (.semi y t.range)) := by
  rw [settle_cons, binding?_stop (.inr (.inl ht))]
  cases h <;> simp [Head.nextFrame, Frame.goesOn, Frame.isSequence, ht, hy]

theorem settle_next_eof (ht : t.kind = .eof) (whole : Bool) :
    settle items last t whole y (h.nextFrame start x :: fs)
      = settle items last t false (h.tree ⟨start, last⟩ x (some y)) fs := by
  rw [settle_cons, binding?_eof ht, goesOn_eof ht, taken?_eof ht]
  cases h <;> rfl

theorem loose_bodyFrame : Loose (h.bodyFrame start :: fs) := by
  cases h <;> rfl

end

/-! ### Chains -/

/-- A binding without `in`, whose body keeps its own bindings in parentheses. -/
structure Binding where
  head : Head
  headTokens : List Token
  body : Expr
  bodyTokens : List Token
  headOf : HeadOf headTokens head
  bodyOf : Expression bodyTokens body
  confined : openLet 0 bodyTokens = false

/-- A binding with `in`. -/
structure Clause extends Binding where
  word : Token
  isIn : word.kind = .inWord

namespace Binding

def tokens (b : Binding) : List Token := b.headTokens ++ b.bodyTokens

def tree (b : Binding) (stop : Location) (next : Option Expr) : Expr :=
  b.head.tree ⟨startOf b.headTokens, stop⟩ b.body next

def nextFrame (b : Binding) : Frame := b.head.nextFrame (startOf b.headTokens) b.body

theorem run (b : Binding) {items : List Expr} {fs : List Frame} (l : Location) :
    ∃ s, State.run ⟨items, fs, .start, l⟩ b.tokens = .ok s ∧ ∀ t, Stops t →
      s.step t = settle items (endOf b.bodyTokens) t false b.body
        (b.head.bodyFrame (startOf b.headTokens) :: fs) := by
  obtain ⟨l', hh⟩ := @HeadOf.run items fs _ _ b.headOf l
  obtain ⟨s, hr, hs⟩ := b.bodyOf.run_stop b.confined (loose_bodyFrame b.head) l'
  exact ⟨s, by rw [tokens, State.run_append hh, hr], hs⟩

end Binding

namespace Clause

def tokens (b : Clause) : List Token := b.toBinding.tokens ++ [b.word]

theorem run (b : Clause) {items : List Expr} {fs : List Frame} (l : Location) :
    ∃ l', State.run ⟨items, fs, .start, l⟩ b.tokens
      = .ok ⟨items, b.nextFrame :: fs, .start, l'⟩ := by
  obtain ⟨s, hr, hs⟩ := @Binding.run b.toBinding items fs l
  refine ⟨b.word.range.stop, ?_⟩
  rw [tokens, State.run_append hr]
  refine State.run_cons ?_ []
  rw [hs _ (.inl b.isIn), settle_body_in b.head b.isIn]
  rfl

end Clause

/-- The bindings up to `stop`, each in what follows the one before it, and `x` behind them all. -/
def nest (stop : Location) (bs : List Clause) (x : Expr) : Expr :=
  bs.foldr (fun b y => b.tree stop (some y)) x

/-- The frames that wait for what follows the bindings, the last one on top. -/
def nextFrames (bs : List Clause) : List Frame := (bs.map fun b => b.nextFrame).reverse

theorem nextFrames_concat (bs : List Clause) (b : Clause) :
    nextFrames (bs ++ [b]) = b.nextFrame :: nextFrames bs := by
  simp [nextFrames]

theorem run_clauses {items : List Expr} : ∀ (bs : List Clause) (fs : List Frame) (l : Location),
    ∃ l', State.run ⟨items, fs, .start, l⟩ (bs.flatMap Clause.tokens)
      = .ok ⟨items, nextFrames bs ++ fs, .start, l'⟩ := by
  intro bs
  induction bs with
  | nil =>
    intro fs l
    exact ⟨l, rfl⟩
  | cons b bs ih =>
    intro fs l
    obtain ⟨l₁, hb⟩ := @Clause.run b items fs l
    obtain ⟨l', hbs⟩ := ih (b.nextFrame :: fs) l₁
    refine ⟨l', ?_⟩
    rw [List.flatMap_cons, State.run_append hb, hbs]
    simp [nextFrames]

theorem settle_nextFrames_eof {items : List Expr} {last : Location} {t : Token}
    (ht : t.kind = .eof) (bs : List Clause) : ∀ (whole : Bool) (x : Expr),
    settle items last t whole x (nextFrames bs)
      = .ok ⟨nest last bs x :: items, [], .top, last⟩ := by
  induction bs using List.reverseRecOn with
  | nil =>
    intro whole x
    rw [nextFrames, List.map_nil, List.reverse_nil, settle_nil, binding?_eof ht]
    simp only [top, ht]
    rfl
  | append_singleton bs b ih =>
    intro whole x
    rw [nextFrames_concat, Binding.nextFrame, settle_next_eof b.head ht, ih]
    simp [nest, Binding.tree]

/-! ### The first token -/

theorem HeadOf.first {hs : List Token} {hd : Head} (h : HeadOf hs hd) :
    ∃ w ws, hs = w :: ws ∧ w.kind = .letWord := by
  cases h with
  | plain h =>
    cases h with
    | intro hw _ _ => exact ⟨_, _, rfl, hw⟩
  | function h =>
    cases h with
    | intro hw _ _ _ _ _ _ => exact ⟨_, _, rfl, hw⟩

theorem expression_leaf {t : Token} {x : Expr} (h : t.leaf? = some x) : Expression [t] x := by
  refine ⟨⟨[], [], .atom x, t.range.stop⟩, ?_, rfl, ?_⟩
  · have hb : State.step State.fresh t = .ok (.use [] [] t (.atom x)) := by
      show begin [] [] t = _
      rw [begin, h]
    exact State.run_cons hb []
  · intro e he
    have hk := kind_of_isEof he
    simp only [State.step, State.stepCall, Token.leaf?, hk, reduceCtorEq, if_false, State.complete,
      settle_nil, binding?_eof hk, top]
    rfl

/-! ### A chain and what follows it -/

/-- `x ; y` in a sequence, with the semicolon at `semi`. -/
def followed (x : Expr) (semi : Range) (y : Expr) : Expr :=
  .bind (Range.span x.range y.range) ⟨discarded, some (.basic .unit), semi⟩ x (some y)

section

variable {b : Clause} {bs : List Clause} {c : Binding} {m : Token}

/-- The state behind a chain whose last binding has no `in`. -/
theorem run_chain (bs : List Clause) (c : Binding) (l : Location) :
    ∃ s, State.run ⟨[], [], .start, l⟩ (bs.flatMap Clause.tokens ++ c.tokens) = .ok s ∧
      ∀ t, Stops t → s.step t = settle [] (endOf c.tokens) t false c.body
        (c.head.bodyFrame (startOf c.headTokens) :: nextFrames bs) := by
  obtain ⟨l₁, hbs⟩ := @run_clauses [] bs [] l
  obtain ⟨s, hr, hs⟩ := @Binding.run c [] (nextFrames bs) l₁
  obtain ⟨_, _, _, _, _, hne, _⟩ := c.bodyOf.spec
  refine ⟨s, ?_, ?_⟩
  · rw [List.append_nil] at hbs
    rw [State.run_append hbs, hr]
  · intro t ht
    rw [hs t ht, Binding.tokens, endOf_append hne]

/-- The semicolon behind the chain ends the sequence behind the last `in`. -/
theorem settle_chain (hm : m.kind = .semi) :
    settle [] (endOf c.tokens) m false c.body
        (c.head.bodyFrame (startOf c.headTokens) :: nextFrames (bs ++ [b]))
      = settle [] (endOf c.tokens) m false
        (b.tree (endOf c.tokens) (some (c.tree (endOf c.tokens) none))) (nextFrames bs) := by
  have hc : (c.tree (endOf c.tokens) none).endsSequence = true :=
    Head.endsSequence_tree c.head _ _ none
  rw [settle_body_semi c.head hm, nextFrames_concat, Binding.nextFrame]
  exact settle_next_ends b.head hm hc

theorem settle_chain_one {x : Expr} {last : Location} (hm : m.kind = .semi) :
    settle [] last m false x (nextFrames []) = .ok (.use [x] [] m .top) := by
  rw [nextFrames, List.map_nil, List.reverse_nil, settle_nil, binding?_stop (.inr (.inl hm))]
  simp only [top, hm]

/-- Behind a longer chain the sequence of the binding before goes on. -/
theorem settle_chain_more {x : Expr} {last : Location} (hm : m.kind = .semi) (hn : bs ≠ [])
    (hx : x.endsSequence = false) :
    settle [] last m false x (nextFrames bs)
      = .ok (.use [] (nextFrames bs) m (.semi x m.range)) := by
  obtain ⟨bs', b', rfl⟩ := (List.eq_nil_or_concat bs).resolve_left hn
  rw [List.concat_eq_append, nextFrames_concat, Binding.nextFrame]
  exact settle_next_goesOn b'.head hm hx

end

theorem first_of_chain (bs : List Clause) (hb : bs ≠ []) (ts : List Token) :
    ∃ w ws, bs.flatMap Clause.tokens ++ ts = w :: ws ∧ w.kind = .letWord := by
  obtain ⟨b, bs', rfl⟩ := List.exists_cons_of_ne_nil hb
  obtain ⟨w, ws, hw, hk⟩ := b.headOf.first
  refine ⟨w, ws ++ (b.bodyTokens ++ [b.word] ++ bs'.flatMap Clause.tokens ++ ts), ?_, hk⟩
  simp [Clause.tokens, Binding.tokens, hw]

theorem run_chain_one {b : Clause} {c : Binding} {m : Token} {es : List Token} {y : Expr}
    (hm : m.kind = .semi) (he : Expression es y) (l : Location) :
    ∃ s, State.run ⟨[], [], .start, l⟩ (b.tokens ++ (c.tokens ++ m :: es)) = .ok s ∧
      ∀ t, t.isEof = true → s.step t
        = .ok ⟨[y, b.tree (endOf c.tokens) (some (c.tree (endOf c.tokens) none))], [], .top,
          endOf es⟩ := by
  obtain ⟨s, hr, hs⟩ := run_chain [b] c l
  obtain ⟨t, us, rfl, ht, _, hte⟩ := he.first
  have hstep := hs m (.inr (.inl hm))
  rw [← List.nil_append [b], settle_chain hm, settle_chain_one hm] at hstep
  obtain ⟨s', hr', hs'⟩ := @Expression.run_end _ _ he
    [b.tree (endOf c.tokens) (some (c.tree (endOf c.tokens) none))] [] trivial m.range.stop
  refine ⟨s', ?_, ?_⟩
  · rw [List.flatMap_singleton] at hr
    rw [← List.append_assoc, State.run_append hr, State.run_cons hstep]
    exact (run_top m.range.stop ht hte).trans hr'
  · intro e hee
    rw [hs' e hee]
    exact settle_nextFrames_eof (kind_of_isEof hee) [] false y

theorem run_chain_more {b : Clause} {bs : List Clause} {c : Binding} {m : Token} {es : List Token}
    {y : Expr} (hn : bs ≠ []) (hm : m.kind = .semi) (he : Expression es y) (l : Location) :
    ∃ s, State.run ⟨[], [], .start, l⟩
        ((bs ++ [b]).flatMap Clause.tokens ++ (c.tokens ++ m :: es)) = .ok s ∧
      ∀ t, t.isEof = true → s.step t = .ok ⟨[nest (endOf es) bs (followed
        (b.tree (endOf c.tokens) (some (c.tree (endOf c.tokens) none))) m.range y)], [], .top,
          endOf es⟩ := by
  obtain ⟨s, hr, hs⟩ := run_chain (bs ++ [b]) c l
  obtain ⟨t, us, rfl, _, ht, hte⟩ := he.first
  have hx : (b.tree (endOf c.tokens) (some (c.tree (endOf c.tokens) none))).endsSequence = false :=
    Head.endsSequence_tree b.head _ _ _
  have hstep := hs m (.inr (.inl hm))
  rw [settle_chain hm, settle_chain_more hm hn hx] at hstep
  obtain ⟨s', hr', hs'⟩ := @Expression.run_end _ _ he []
    (.sequel (b.tree (endOf c.tokens) (some (c.tree (endOf c.tokens) none))) m.range ::
      nextFrames bs) rfl m.range.stop
  refine ⟨s', ?_, ?_⟩
  · rw [← List.append_assoc, State.run_append hr, State.run_cons hstep]
    exact (run_semi m.range.stop ht hte).trans hr'
  · intro e hee
    have hk := kind_of_isEof hee
    rw [hs' e hee, settle_cons, binding?_eof hk, goesOn_eof hk, taken?_eof hk]
    exact settle_nextFrames_eof hk bs true _

end SmallMl.Grammar

namespace SmallMl.Program

open Grammar

/-- **A `let` without `in` at the end of a chain.**  In `B₁ in … Bₖ in C ; e` the expression `e` is
an item of its own, behind the item `B₁ in … Bₖ in C`, exactly if `k = 1`.  In a longer chain the
sequence behind `Bₖ₋₁ in` takes it, and the program has a single item. -/
theorem let_chain_items {settings : Settings} {text : List Char} {bs : List Clause} {c : Binding}
    {m : Token} {es : List Token} {y : Expr} (hb : bs ≠ []) (hm : m.kind = .semi)
    (he : Expression es y)
    (ht : (Stream.ofText settings text).Gives
      (bs.flatMap Clause.tokens ++ (c.tokens ++ m :: es))) :
    ∃ p, (parse settings text).result = .ok p ∧
      (p.items = [nest (endOf c.tokens) bs (c.tree (endOf c.tokens) none), y] ↔ bs.length = 1) ∧
      ∀ bs' b, bs = bs' ++ [b] → bs' ≠ [] → p.items = [nest (endOf es) bs' (followed
        (b.tree (endOf c.tokens) (some (c.tree (endOf c.tokens) none))) m.range y)] := by
  obtain ⟨bs, b, rfl⟩ := (List.eq_nil_or_concat bs).resolve_left hb
  rw [List.concat_eq_append] at ht ⊢
  obtain ⟨w, ws, hw, hk⟩ := first_of_chain (bs ++ [b]) (by simp) (c.tokens ++ m :: es)
  have hinit : State.initial.run ((bs ++ [b]).flatMap Clause.tokens ++ (c.tokens ++ m :: es))
      = State.run ⟨[], [], .start, default⟩
        ((bs ++ [b]).flatMap Clause.tokens ++ (c.tokens ++ m :: es)) := by
    rw [hw]
    exact run_top default (by simp [hk]) (by simp [hk])
  by_cases hn : bs = []
  · subst hn
    obtain ⟨s, hr, hs⟩ := run_chain_one hm he default
    rw [List.nil_append, List.flatMap_singleton] at hinit ht
    obtain ⟨e, hp⟩ := result_parse_of_gives ht (hinit.trans hr) hs
    refine ⟨_, hp, ⟨fun _ => rfl, fun _ => ?_⟩, ?_⟩
    · rw [items_program]
      rfl
    · intro bs' b' hbb hne
      cases bs' with
      | nil => exact absurd rfl hne
      | cons a bs' => simp at hbb
  · obtain ⟨s, hr, hs⟩ := run_chain_more hn hm he default
    obtain ⟨e, hp⟩ := result_parse_of_gives ht (hinit.trans hr) hs
    refine ⟨_, hp, ⟨fun hi => ?_, fun hl => ?_⟩, ?_⟩
    · rw [items_program] at hi
      have := congrArg List.length hi
      simp at this
    · have := List.length_pos_iff.2 hn
      rw [List.length_append, List.length_singleton] at hl
      omega
    · intro bs' b' hbb _
      obtain ⟨rfl, hb'⟩ := List.append_inj' hbb rfl
      cases hb'
      rw [items_program]
      rfl

/-- The token with the spelling `lit` at an offset of the first line. -/
def tokenAt (k : Kind) (o : Int) (lit : List Char) : Token :=
  ⟨k, ⟨⟨1, o + 1, o⟩, ⟨1, o + 1 + lit.length, o + lit.length⟩⟩, lit⟩

/-- `let name = number` at an offset of the first line. -/
def shortLet (o : Int) (name digit : Char) (n : Nat) : Binding where
  head := .plain ⟨String.ofList [name], none, (tokenAt .ident (o + 4) [name]).range⟩
  headTokens := [tokenAt .letWord o ['l', 'e', 't'], tokenAt .ident (o + 4) [name],
    tokenAt (.operator .equal) (o + 6) ['=']]
  body := .int (tokenAt (.int n) (o + 8) [digit]).range n
  bodyTokens := [tokenAt (.int n) (o + 8) [digit]]
  headOf := .plain (.intro rfl (.bare rfl) rfl)
  bodyOf := expression_leaf rfl
  confined := rfl

/-- Behind two bindings with `in`, the variable `y` is no item of its own. -/
theorem let_chain_of_two : ∃ p,
    (parse {} "let x = 1 in let y = 2 in let z = 3; y".toList).result = .ok p ∧
      p.items.length = 1 := by
  have hy : Expression [tokenAt .ident 37 ['y']] (.var (tokenAt .ident 37 ['y']).range "y") :=
    expression_leaf rfl
  have ht : (Stream.ofText {} "let x = 1 in let y = 2 in let z = 3; y".toList).Gives
      (([⟨shortLet 0 'x' '1' 1, tokenAt .inWord 10 ['i', 'n'], rfl⟩,
          ⟨shortLet 13 'y' '2' 2, tokenAt .inWord 23 ['i', 'n'], rfl⟩] : List Clause).flatMap
          Clause.tokens ++
        ((shortLet 26 'z' '3' 3).tokens ++ tokenAt .semi 35 [';'] :: [tokenAt .ident 37 ['y']])) :=
    Stream.gives_of_within (n := 20) rfl
  obtain ⟨p, hp, _, hi⟩ := let_chain_items (by simp) rfl hy ht
  refine ⟨p, hp, ?_⟩
  rw [hi [_] _ rfl (by simp)]
  rfl

end SmallMl.Program
