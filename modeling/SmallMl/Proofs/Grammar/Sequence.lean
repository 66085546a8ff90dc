import SmallMl.Proofs.Grammar.Boundary

/-!
# Sequences

`e₁; e₂; …; eₙ` is read as `let _ : unit = e₁ in let _ : unit = e₂ in … eₙ`, between parentheses
and behind `in`.  The binding that stands for a semicolon has the range of the semicolon for its
name and goes from the start of `eᵢ` to the end of `eₙ`.  One more semicolon may stand at the end;
it is part of no expression of the sequence.

* `Sequence.run`: on a frame that waits for a sequence, the tokens are read up to the closing
  parenthesis or the end, and the frame is handed the nested bindings.
* `Sequence.bracketed`: so it is between parentheses, wherever they stand.
* `Clause.run_sequence`, `Clause.bracketed`: so it is behind `in`, at the end of the text and in
  front of a closing parenthesis.
* `Program.sequence_nests`: the same for texts.
-/

namespace SmallMl.Grammar

/-- An expression of a sequence: it is no `let` without `in`, in parentheses or not. -/
structure Member extends Phrase where
  goesOn : tree.endsSequence = false

structure Statement extends Member where
  semi : Token
  isSemi : semi.kind = .semi

inductive Sequence
  | single (m : Member)
  /-- `e ;` at the end. -/
  | trailing (k : Statement)
  | cons (k : Statement) (q : Sequence)

namespace Sequence

def tokens : Sequence → List Token
  | single m => m.tokens
  | trailing k => k.tokens ++ [k.semi]
  | cons k q => k.tokens ++ (k.semi :: q.tokens)

def stop : Sequence → Location
  | single m => endOf m.tokens
  | trailing k => endOf k.tokens
  | cons _ q => q.stop

def tree : Sequence → Expr
  | single m => m.tree
  | trailing k => k.tree
  | cons k q =>
    .bind ⟨startOf k.tokens, q.stop⟩ ⟨discarded, some (.basic .unit), k.semi.range⟩ k.tree
      (some q.tree)

theorem stop_range_tree (q : Sequence) : q.tree.range.stop = q.stop := by
  cases q with
  | single m => exact congrArg Range.stop m.range_eq
  | trailing k => exact congrArg Range.stop k.range_eq
  | cons k q => rfl

theorem tree_cons (k : Statement) (q : Sequence) :
    (cons k q).tree = followed k.tree k.semi.range q.tree := by
  rw [tree, followed, Range.span, k.range_eq, q.stop_range_tree, spanOf]

theorem first (q : Sequence) : ∃ t us, q.tokens = t :: us ∧ t.kind ≠ .semi ∧ t.kind ≠ .rparen ∧
    t.kind ≠ .eof := by
  cases q with
  | single m => exact m.treeOf.first
  | trailing k | cons k q =>
    obtain ⟨t, us, ht, hk⟩ := k.treeOf.first
    exact ⟨t, _, congrArg (· ++ _) ht, hk⟩

theorem ne_nil (q : Sequence) : q.tokens ≠ [] := by
  obtain ⟨t, us, ht, _⟩ := q.first
  simp [ht]

end Sequence

def EndsSequence (t : Token) : Prop := t.kind = .rparen ∨ t.kind = .eof

section

variable {items : List Expr} {f : Frame} {fs : List Frame} {t : Token}

theorem EndsSequence.ends (h : EndsSequence t) : Ends t := by
  rcases h with h | h
  · exact .inl h
  · exact .inr (.inr (.inr (.inr (.inr h))))

theorem EndsSequence.ne_elseWord (h : EndsSequence t) : t.kind ≠ .elseWord := by
  rcases h with h | h <;> simp [h]

theorem settle_sequel (ht : EndsSequence t) {last : Location} (whole : Bool) (x y : Expr)
    (r : Range) :
    settle items last t whole y (.sequel x r :: fs)
      = settle items last t true (followed x r y) fs := by
  have hg : (Frame.sequel x r).goesOn whole y t = false := by
    rcases ht with ht | ht <;> simp [Frame.goesOn, ht]
  rw [settle_cons, binding?_ends ht.ends, hg]
  rfl

theorem loose_of_isSequence (hf : f.isSequence = true) : Loose (f :: fs) := by
  cases f <;> first | rfl | cases hf

theorem Member.run (m : Member) (hf : f.isSequence = true) (l : Location) :
    ∃ s, State.run ⟨items, f :: fs, .start, l⟩ m.tokens = .ok s ∧
      (∀ t, t.kind = .semi → s.step t = .ok (.use items (f :: fs) t (.semi m.tree t.range))) ∧
      ∀ t, EndsSequence t → s.step t = settle items (endOf m.tokens) t false m.tree (f :: fs) := by
  obtain ⟨s, hr, hs⟩ := m.toPhrase.run (loose_of_isSequence hf) l
  refine ⟨s, hr, fun t ht => ?_, fun t ht => hs t ht.ends fun hk => absurd hk ht.ne_elseWord⟩
  have hstop : Stops t := .inr (.inl ht)
  rw [hs t hstop.ends fun hk => absurd hk hstop.ne_elseWord, settle_cons, binding?_stop hstop,
    Frame.goesOn_iff.2 ⟨hf, rfl, ht, m.goesOn⟩]
  rfl

/-- **A sequence on a frame that waits for one.**  Up to what closes it every expression is read on
top of the ones before it. -/
theorem Sequence.run (q : Sequence) : ∀ {f : Frame} {fs : List Frame}, f.isSequence = true →
    ∀ l, ∃ s, State.run ⟨items, f :: fs, .start, l⟩ q.tokens = .ok s ∧
      ∀ t, EndsSequence t → ∃ w, s.step t = settle items (endOf q.tokens) t w q.tree (f :: fs) := by
  induction q with
  | single m =>
    intro f fs hf l
    obtain ⟨s, hr, _, hs⟩ := m.run hf l
    exact ⟨s, hr, fun t ht => ⟨false, hs t ht⟩⟩
  | trailing k =>
    intro f fs hf l
    obtain ⟨s, hr, hs, _⟩ := k.run hf l
    refine ⟨.use items (f :: fs) k.semi (.semi k.tree k.semi.range), ?_, fun t ht => ⟨true, ?_⟩⟩
    · rw [tokens, State.run_append hr]
      exact State.run_cons (hs _ k.isSemi) []
    · rw [tokens, endOf_append (by simp), endOf_singleton]
      rcases ht with ht | ht <;> simp [State.use, State.step, ht, tree]
  | cons k q ih =>
    intro f fs hf l
    obtain ⟨s, hr, hs, _⟩ := k.run hf l
    obtain ⟨s', hr', hs'⟩ := @ih (.sequel k.tree k.semi.range) (f :: fs) rfl k.semi.range.stop
    obtain ⟨u, us, hu, _, hup, hue⟩ := q.first
    refine ⟨s', ?_, fun t ht => ⟨true, ?_⟩⟩
    · rw [tokens, State.run_append hr, State.run_cons (hs _ k.isSemi)]
      rw [hu] at hr' ⊢
      exact (run_semi k.semi.range.stop hup hue).trans hr'
    · obtain ⟨w, hw⟩ := hs' t ht
      have hcons : k.semi :: q.tokens = [k.semi] ++ q.tokens := rfl
      rw [hw, settle_sequel ht, ← tree_cons, tokens, hcons, ← List.append_assoc,
        endOf_append q.ne_nil]

/-- **A sequence between parentheses**, whatever the parentheses belong to. -/
theorem Sequence.bracketed (q : Sequence) : Bracketed q.tokens q.tree := by
  intro items stack opening slot l
  obtain ⟨s, hr, hs⟩ := @Sequence.run items q (.paren opening slot) stack rfl l
  refine ⟨s, hr, fun c hc => ?_⟩
  obtain ⟨w, hw⟩ := hs c (.inl hc)
  rw [hw, settle_paren_rparen hc]

namespace Head

variable {start : Location} {x : Expr} (h : Head)

theorem isSequence_nextFrame : (h.nextFrame start x).isSequence = true := by
  cases h <;> rfl

/-- What closes a sequence completes the binding that it belongs to. -/
theorem settle_next_closes (ht : EndsSequence t) {last : Location} (whole : Bool) (y : Expr) :
    settle items last t whole y (h.nextFrame start x :: fs)
      = settle items last t false (h.tree ⟨start, last⟩ x (some y)) fs := by
  rcases ht with ht | ht
  · rw [settle_rparen ht (z := h.tree ⟨start, last⟩ x (some y)) (by cases h <;> rfl)]
    cases h <;> rfl
  · exact settle_next_eof h ht whole

end Head

/-- **A sequence behind `in`.**  It ends only where it is closed, and the binding with it. -/
theorem Clause.run_sequence (b : Clause) (q : Sequence) (l : Location) :
    ∃ s, State.run ⟨items, fs, .start, l⟩ (b.tokens ++ q.tokens) = .ok s ∧
      ∀ t, EndsSequence t → s.step t
        = settle items (endOf q.tokens) t false (b.tree (endOf q.tokens) (some q.tree)) fs := by
  obtain ⟨l', hb⟩ := @Clause.run b items fs l
  obtain ⟨s, hr, hs⟩ := @Sequence.run items q b.nextFrame fs b.head.isSequence_nextFrame l'
  refine ⟨s, (State.run_append hb).trans hr, fun t ht => ?_⟩
  obtain ⟨w, hw⟩ := hs t ht
  rw [hw]
  exact b.head.settle_next_closes ht w q.tree

theorem Clause.bracketed (b : Clause) (q : Sequence) :
    Bracketed (b.tokens ++ q.tokens) (b.tree (endOf q.tokens) (some q.tree)) := by
  intro items stack opening slot l
  obtain ⟨s, hr, hs⟩ := @Clause.run_sequence items (.paren opening slot :: stack) b q l
  refine ⟨s, hr, fun c hc => ?_⟩
  rw [hs c (.inl hc), settle_paren_rparen hc]

end

end SmallMl.Grammar

namespace SmallMl.Program

open Grammar

/-- **Sequences are nested bindings**, between parentheses, behind `in` up to the end, and behind
`in` up to a closing parenthesis, with or without a semicolon at the end of the sequence.  The
program is that single item. -/
theorem sequence_nests (settings : Settings) (text : List Char) (q : Sequence) :
    (∀ o c : Token, o.kind = .lparen → c.kind = .rparen →
      (Stream.ofText settings text).Gives (o :: (q.tokens ++ [c])) →
      ∃ p, (parse settings text).result = .ok p ∧
        p.items = [q.tree.withRange ⟨o.range.start, c.range.stop⟩]) ∧
    (∀ b : Clause, (Stream.ofText settings text).Gives (b.tokens ++ q.tokens) →
      ∃ p, (parse settings text).result = .ok p ∧
        p.items = [b.tree (endOf q.tokens) (some q.tree)]) ∧
    (∀ (b : Clause) (o c : Token), o.kind = .lparen → c.kind = .rparen →
      (Stream.ofText settings text).Gives (o :: (b.tokens ++ q.tokens ++ [c])) →
      ∃ p, (parse settings text).result = .ok p ∧
        p.items = [(b.tree (endOf q.tokens) (some q.tree)).withRange
          ⟨o.range.start, c.range.stop⟩]) := by
  refine ⟨fun o c ho hc hg => parse_of_expression hg (q.bracketed.expression ho hc), ?_,
    fun b o c ho hc hg => parse_of_expression hg ((b.bracketed q).expression ho hc)⟩
  intro b hg
  obtain ⟨s, hr, hs⟩ := @Clause.run_sequence [] [] b q default
  obtain ⟨w, ws, hw, hk⟩ := first_of_chain [b] (by simp) q.tokens
  rw [List.flatMap_singleton] at hw
  have hinit : State.initial.run (b.tokens ++ q.tokens) = .ok s := by
    rw [hw] at hr ⊢
    exact (run_top default (by simp [hk]) (by simp [hk])).trans hr
  have hend : ∀ e : Token, e.isEof = true → s.step e
      = .ok ⟨[b.tree (endOf q.tokens) (some q.tree)], [], .top, endOf q.tokens⟩ := by
    intro e he
    rw [hs e (.inr (kind_of_isEof he))]
    exact settle_nextFrames_eof (kind_of_isEof he) [] false _
  obtain ⟨e, hp⟩ := result_parse_of_gives hg hinit hend
  exact ⟨_, hp, by rw [items_program]; rfl⟩

/-- The names of the nested bindings are the semicolons, and the semicolon at the end is none. -/
theorem sequence_of_three_nests : ∃ p, (parse {} "(a; b; c;)".toList).result = .ok p ∧
    p.items = [.bind ⟨⟨1, 1, 0⟩, ⟨1, 11, 10⟩⟩
      ⟨"_", some (.basic .unit), ⟨⟨1, 3, 2⟩, ⟨1, 4, 3⟩⟩⟩
      (.var ⟨⟨1, 2, 1⟩, ⟨1, 3, 2⟩⟩ "a")
      (some (.bind ⟨⟨1, 5, 4⟩, ⟨1, 9, 8⟩⟩
        ⟨"_", some (.basic .unit), ⟨⟨1, 6, 5⟩, ⟨1, 7, 6⟩⟩⟩
        (.var ⟨⟨1, 5, 4⟩, ⟨1, 6, 5⟩⟩ "b")
        (some (.var ⟨⟨1, 8, 7⟩, ⟨1, 9, 8⟩⟩ "c"))))] := by
  let a : Member := ⟨.leaf (tokenAt .ident 1 ['a']) rfl, rfl⟩
  let b : Member := ⟨.leaf (tokenAt .ident 4 ['b']) rfl, rfl⟩
  let c : Member := ⟨.leaf (tokenAt .ident 7 ['c']) rfl, rfl⟩
  let q : Sequence := .cons ⟨a, tokenAt .semi 2 [';'], rfl⟩
    (.cons ⟨b, tokenAt .semi 5 [';'], rfl⟩ (.trailing ⟨c, tokenAt .semi 8 [';'], rfl⟩))
  have ht : (Stream.ofText {} "(a; b; c;)".toList).Gives
      (tokenAt .lparen 0 ['('] :: (q.tokens ++ [tokenAt .rparen 9 [')']])) :=
    Stream.gives_of_within (n := 20) rfl
  exact (sequence_nests {} _ q).1 _ _ rfl rfl ht

end SmallMl.Program
