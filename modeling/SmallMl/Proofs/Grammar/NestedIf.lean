import SmallMl.Proofs.Grammar.Boundary
import SmallMl.Proofs.Token.Listing

/-!
# Conditionals inside each other

In `if c₁ then … if cₖ then e₀ else e₁ … else eₘ`, with `m ≤ k`, each `else` belongs to the last
`if` that has none yet: the first one to the last `if`, the next one to the `if` before it.  So the
outermost `if` gets an `else` only if there are as many as there are conditionals, and one `else`
more is an error.

While the text is read, the stack holds the conditionals without an `else`, the last one on top.
`run_alternatives` is an induction over the alternatives: each takes one of them off the stack.

Main statement: `Program.else_of_nearest_if`.
-/

namespace SmallMl.Grammar

/-- An expression whose conditionals stand in parentheses, like its bindings. -/
structure Plain extends Phrase where
  noIf : outside .ifWord 0 tokens = false

/-- `if c then` -/
structure Test where
  word : Token
  isIf : word.kind = .ifWord
  cond : Plain
  mark : Token
  isThen : mark.kind = .thenWord

/-- `else e` -/
structure ElseBranch where
  word : Token
  isElse : word.kind = .elseWord
  body : Plain

namespace Test

def tokens (t : Test) : List Token := t.word :: (t.cond.tokens ++ [t.mark])

def frame (t : Test) : Frame := .consequent t.word.range t.cond.tree

end Test

def ElseBranch.tokens (a : ElseBranch) : List Token := a.word :: a.body.tokens

/-- The tokens of `if c₁ then … if cₖ then e else e₁ … else eₘ` -/
def nestedTokens (ts : List Test) (e : Plain) (as : List ElseBranch) : List Token :=
  ts.flatMap Test.tokens ++ (e.tokens ++ as.flatMap ElseBranch.tokens)

/-- The end of `e else e₁ … else eₘ` -/
def nestedStop (e : Plain) (as : List ElseBranch) : Location :=
  endOf (e.tokens ++ as.flatMap ElseBranch.tokens)

/-- The conditionals, each in front of the ones behind it.  If `n` conditionals are inside, the
alternative number `n`, counted from 0, is the one that belongs to the conditional, and it ends
there. -/
def nested (e : Plain) (as : List ElseBranch) : List Test → Expr
  | [] => e.tree
  | t :: ts =>
    .cond ⟨t.word.range.start, nestedStop e (as.take (ts.length + 1))⟩ t.cond.tree (nested e as ts)
      (as[ts.length]?.map fun a => a.body.tree) t.word.range
      (as[ts.length]?.map fun a => a.word.range)

def frames (ts : List Test) : List Frame := (ts.map Test.frame).reverse

theorem frames_concat (ts : List Test) (t : Test) : frames (ts ++ [t]) = t.frame :: frames ts := by
  simp [frames]

section

variable {items : List Expr} {fs : List Frame} {e : Plain} {as : List ElseBranch}

theorem loose_frames (hl : Loose fs) (ts : List Test) : Loose (frames ts ++ fs) := by
  rcases List.eq_nil_or_concat ts with rfl | ⟨ts, t, rfl⟩
  · exact hl
  · rw [List.concat_eq_append, frames_concat]
    rfl

theorem nested_append {ts : List Test} (h : ts.length ≤ as.length) (bs : List ElseBranch) :
    nested e (as ++ bs) ts = nested e as ts := by
  induction ts with
  | nil => rfl
  | cons t ts ih =>
    have hlt : ts.length < as.length := h
    rw [nested, nested, ih (Nat.le_of_lt hlt), List.getElem?_append_left hlt,
      List.take_append_of_le_length hlt]

theorem nested_cons_concat {u : Test} {ts : List Test} (h : ts.length = as.length)
    (a : ElseBranch) : nested e (as ++ [a]) (u :: ts)
      = .cond ⟨u.word.range.start, nestedStop e (as ++ [a])⟩ u.cond.tree (nested e as ts)
        (some a.body.tree) u.word.range (some a.word.range) := by
  have hi : (as ++ [a])[ts.length]? = some a := by simp [h]
  have ht : (as ++ [a]).take (ts.length + 1) = as ++ [a] :=
    List.take_of_length_le (by simp [h])
  rw [nested, nested_append h.le, hi, ht]
  rfl

theorem nested_cons_of_le {u : Test} {ts : List Test} (h : as.length ≤ ts.length) :
    nested e as (u :: ts)
      = .cond ⟨u.word.range.start, nestedStop e as⟩ u.cond.tree (nested e as ts) none u.word.range
        none := by
  have hi : as[ts.length]? = none := List.getElem?_eq_none h
  have ht : as.take (ts.length + 1) = as := List.take_of_length_le (by omega)
  rw [nested, hi, ht]
  rfl

theorem nestedStop_concat (a : ElseBranch) : nestedStop e (as ++ [a]) = endOf a.body.tokens := by
  rw [nestedStop, List.flatMap_append, List.flatMap_singleton, ElseBranch.tokens,
    ← List.append_assoc, endOf_append (by simp), ← List.singleton_append,
    endOf_append a.body.ne_nil]

/-! ### What is read -/

theorem Test.run (t : Test) (l : Location) : ∃ l',
    State.run ⟨items, fs, .start, l⟩ t.tokens = .ok ⟨items, t.frame :: fs, .start, l'⟩ := by
  have hif : State.step ⟨items, fs, .start, l⟩ t.word
      = .ok (.use items (.condition t.word.range :: fs) t.word .start) := by
    simp [State.step, begin, Token.leaf?, t.isIf]
  obtain ⟨s, hr, hs⟩ := @Phrase.run t.cond.toPhrase items (.condition t.word.range :: fs) rfl
    t.word.range.stop
  have hends : Ends t.mark := .inr (.inl t.isThen)
  have hthen : s.step t.mark = .ok (.use items (t.frame :: fs) t.mark .start) := by
    rw [hs _ hends fun _ => t.cond.noIf, settle_cons, binding?_ends hends]
    simp [Frame.goesOn, Frame.isSequence, Frame.taken?, t.isThen, frame]
  refine ⟨t.mark.range.stop, ?_⟩
  rw [tokens, State.run_cons hif]
  exact (State.run_append hr).trans (State.run_cons hthen [])

theorem run_tests (ts : List Test) : ∀ (fs : List Frame) (l : Location), ∃ l',
    State.run ⟨items, fs, .start, l⟩ (ts.flatMap Test.tokens)
      = .ok ⟨items, frames ts ++ fs, .start, l'⟩ := by
  induction ts with
  | nil =>
    intro fs l
    exact ⟨l, rfl⟩
  | cons t ts ih =>
    intro fs l
    obtain ⟨l₁, ht⟩ := @Test.run items fs t l
    obtain ⟨l', hts⟩ := ih (t.frame :: fs) l₁
    refine ⟨l', ?_⟩
    rw [List.flatMap_cons, State.run_append ht, hts]
    simp [frames]

/-- An `else` is taken by the last conditional that has none. -/
theorem settle_frame_else {t : Test} {w : Token} (hw : w.kind = .elseWord) {last : Location}
    {x : Expr} : settle items last w false x (t.frame :: fs)
      = .ok (.use items (.alternative t.word.range t.cond.tree x w.range :: fs) w .start) := by
  have hends : Ends w := .inr (.inr (.inl hw))
  rw [settle_cons, binding?_ends hends]
  simp [Frame.goesOn, Frame.isSequence, Test.frame, Frame.taken?, hw]

theorem settle_alternative {t : Token} (ht : Ends t) {last : Location} {i r : Range}
    {c x y : Expr} : settle items last t false y (.alternative i c x r :: fs)
      = settle items last t false (.cond ⟨i.start, last⟩ c x (some y) i (some r)) fs := by
  rw [settle_cons, binding?_ends ht]
  rfl

/-- Everything that ends an expression, but for `else`, ends a conditional. -/
theorem settle_frame {u : Test} {t : Token} (ht : Ends t) (hte : t.kind ≠ .elseWord)
    {last : Location} {x : Expr} : settle items last t false x (u.frame :: fs)
      = settle items last t false
        (.cond ⟨u.word.range.start, last⟩ u.cond.tree x none u.word.range none) fs := by
  rw [settle_cons, binding?_ends ht]
  simp [Frame.goesOn, Frame.isSequence, Test.frame, Frame.taken?, hte, Frame.closed?,
    Frame.isSequel]

/-- **The body and the alternatives, behind the conditionals.**  The conditionals `inner` have got
an alternative each, and the conditionals `outer` wait for one. -/
theorem run_alternatives (hl : Loose fs) (as : List ElseBranch) :
    ∀ (outer inner : List Test) (l : Location), inner.length = as.length →
      ∃ s, State.run ⟨items, frames (outer ++ inner) ++ fs, .start, l⟩
          (e.tokens ++ as.flatMap ElseBranch.tokens) = .ok s ∧
        ∀ t, Ends t → s.step t
          = settle items (nestedStop e as) t false (nested e as inner) (frames outer ++ fs) := by
  induction as using List.reverseRecOn with
  | nil =>
    intro outer inner l hn
    obtain rfl := List.length_eq_zero_iff.1 hn
    have hf := loose_frames hl outer
    obtain ⟨s, hr, hs⟩ := @Phrase.run e.toPhrase items (frames outer ++ fs) hf l
    refine ⟨s, by simpa using hr, fun t ht => ?_⟩
    rw [hs t ht fun _ => e.noIf, nestedStop, List.flatMap_nil, List.append_nil, nested]
  | append_singleton as a ih =>
    intro outer inner l hn
    obtain ⟨u, inner, rfl⟩ := List.exists_cons_of_length_eq_add_one (by simpa using hn)
    have hn' : inner.length = as.length := by simpa using hn
    -- the alternative is taken by the conditional `u`, the last one that waits for one
    obtain ⟨s, hr, hs⟩ := ih (outer ++ [u]) inner l hn'
    have helse := hs a.word (.inr (.inr (.inl a.isElse)))
    rw [frames_concat, List.cons_append, settle_frame_else a.isElse] at helse
    obtain ⟨s', hr', hs'⟩ := @Phrase.run a.body.toPhrase items
      (.alternative u.word.range u.cond.tree (nested e as inner) a.word.range ::
        (frames outer ++ fs)) rfl a.word.range.stop
    refine ⟨s', ?_, fun t ht => ?_⟩
    · rw [List.append_assoc, List.singleton_append] at hr
      rw [List.flatMap_append, List.flatMap_singleton, ← List.append_assoc, State.run_append hr,
        ElseBranch.tokens, State.run_cons helse]
      exact hr'
    · rw [hs' t ht fun _ => a.body.noIf, settle_alternative ht, nested_cons_concat hn',
        nestedStop_concat]

theorem settle_frames {t : Token} (ht : Ends t) (hte : t.kind ≠ .elseWord) (outer : List Test) :
    ∀ inner : List Test, as.length ≤ inner.length →
      settle items (nestedStop e as) t false (nested e as inner) (frames outer ++ fs)
        = settle items (nestedStop e as) t false (nested e as (outer ++ inner)) fs := by
  induction outer using List.reverseRecOn with
  | nil =>
    intro inner _
    rfl
  | append_singleton outer u ih =>
    intro inner hle
    have hle' : as.length ≤ (u :: inner).length := Nat.le_succ_of_le hle
    rw [frames_concat, List.cons_append, settle_frame ht hte, ← nested_cons_of_le hle, ih _ hle',
      List.append_assoc, List.singleton_append]

end

theorem first_of_nestedTokens (ts : List Test) (e : Plain) (as : List ElseBranch) :
    ∃ t us, nestedTokens ts e as = t :: us ∧ t.kind ≠ .semi ∧ t.kind ≠ .eof := by
  cases ts with
  | nil =>
    obtain ⟨t, us, ht, hs, _, he⟩ := e.treeOf.first
    exact ⟨t, us ++ as.flatMap ElseBranch.tokens, by simp [nestedTokens, ht], hs, he⟩
  | cons u ts =>
    exact ⟨u.word, _, rfl, by simp [u.isIf], by simp [u.isIf]⟩

/-- The state behind all conditionals and alternatives of a text. -/
theorem run_nestedTokens {ts : List Test} {as : List ElseBranch} (h : as.length ≤ ts.length)
    (e : Plain) : ∃ outer inner s, ts = outer ++ inner ∧ inner.length = as.length ∧
      State.initial.run (nestedTokens ts e as) = .ok s ∧
      ∀ t, Ends t → s.step t
        = settle [] (nestedStop e as) t false (nested e as inner) (frames outer) := by
  have hsplit := List.take_append_drop (ts.length - as.length) ts
  generalize ho : ts.take (ts.length - as.length) = outer at hsplit
  generalize hi : ts.drop (ts.length - as.length) = inner at hsplit
  have hn : inner.length = as.length := by
    rw [← hi, List.length_drop]
    omega
  obtain ⟨l, hr⟩ := @run_tests [] ts [] default
  obtain ⟨s, hr', hs⟩ := @run_alternatives [] [] e trivial as outer inner l hn
  rw [hsplit] at hr'
  refine ⟨outer, inner, s, hsplit.symm, hn, ?_, fun t ht => ?_⟩
  · obtain ⟨t, us, hts, hsemi, heof⟩ := first_of_nestedTokens ts e as
    have hrun : State.run ⟨[], [], .start, default⟩ (nestedTokens ts e as) = .ok s :=
      (State.run_append hr).trans hr'
    rw [hts] at hrun ⊢
    exact (run_top default hsemi heof).trans hrun
  · rw [hs t ht, List.append_nil]

end SmallMl.Grammar

namespace SmallMl.Program

open Grammar

/-- **Each `else` belongs to the nearest open `if`.**  With at most as many alternatives as
conditionals the program is the single item `nested`; behind as many alternatives as conditionals
one more `else` is an error. -/
theorem else_of_nearest_if {settings : Settings} {text : List Char} {ts : List Test}
    {as : List ElseBranch} (e : Plain) (h : as.length ≤ ts.length) :
    ((Stream.ofText settings text).Gives (nestedTokens ts e as) →
      ∃ p, (parse settings text).result = .ok p ∧ p.items = [nested e as ts]) ∧
    (as.length = ts.length → ∀ src w,
      (Stream.ofText settings text).Emits (nestedTokens ts e as) src → src.next.1 = .ok w →
      w.kind = .elseWord → (parse settings text).result = .error
        ⟨w.range.start, "unexpected 'else'", .error, .parser, settings.filename, false⟩) := by
  obtain ⟨outer, inner, s, rfl, hn, hr, hs⟩ := run_nestedTokens h e
  constructor
  · intro hg
    have hend : ∀ t : Token, t.isEof = true →
        s.step t = .ok ⟨[nested e as (outer ++ inner)], [], .top, nestedStop e as⟩ := by
      intro t ht
      have hk := kind_of_isEof ht
      have hends : Ends t := Stops.ends (.inr (.inr hk))
      have hf := @settle_frames [] [] e as t hends (by simp [hk]) outer inner hn.ge
      rw [List.append_nil] at hf
      rw [hs t hends, hf, settle_nil, binding?_eof hk]
      simp only [top, hk]
    obtain ⟨p, hp⟩ := result_parse_of_gives hg hr hend
    exact ⟨_, hp, by rw [items_program]; rfl⟩
  · intro hm src w hem hw hk
    have ho : outer = [] := by
      rw [List.length_append, hn] at hm
      exact List.length_eq_zero_iff.1 (by omega)
    subst ho
    have hstep : s.step w = .error (.unexpected w) := by
      have hends : Ends w := .inr (.inr (.inl hk))
      rw [hs w hends, frames, List.map_nil, List.reverse_nil, settle_nil, binding?_ends hends]
      simp [top, begin, Token.leaf?, hk]
    rw [parse, Parse.run_eq hem hr (.issue hw hstep), hem.settings_eq]
    simp [Issue.toDiagnostic, Issue.unexpected, Issue.raise, Token.isEof, Token.spelling, hk,
      Kind.isEof, Kind.name, Complaint.message, Stream.ofText]

/-- With two conditionals and one `else`, the inner one gets it; with one conditional there is no
place for a second `else`. -/
theorem else_of_inner_if :
    (∃ p, (parse {} "if a then if b then c else d".toList).result = .ok p ∧
      p.items = [.cond ⟨⟨1, 1, 0⟩, ⟨1, 29, 28⟩⟩ (.var ⟨⟨1, 4, 3⟩, ⟨1, 5, 4⟩⟩ "a")
        (.cond ⟨⟨1, 11, 10⟩, ⟨1, 29, 28⟩⟩ (.var ⟨⟨1, 14, 13⟩, ⟨1, 15, 14⟩⟩ "b")
          (.var ⟨⟨1, 21, 20⟩, ⟨1, 22, 21⟩⟩ "c") (some (.var ⟨⟨1, 28, 27⟩, ⟨1, 29, 28⟩⟩ "d"))
          ⟨⟨1, 11, 10⟩, ⟨1, 13, 12⟩⟩ (some ⟨⟨1, 23, 22⟩, ⟨1, 27, 26⟩⟩))
        none ⟨⟨1, 1, 0⟩, ⟨1, 3, 2⟩⟩ none]) ∧
    (parse {} "if a then b else c else d".toList).result = .error
      ⟨⟨1, 20, 19⟩, "unexpected 'else'", .error, .parser, "", false⟩ := by
  let name (o : Int) (c : Char) : Plain := ⟨.leaf (tokenAt .ident o [c]) rfl, rfl⟩
  let test (o : Int) (c : Char) : Test :=
    ⟨tokenAt .ifWord o ['i', 'f'], rfl, name (o + 3) c,
      tokenAt .thenWord (o + 5) ['t', 'h', 'e', 'n'], rfl⟩
  let alternative (o : Int) (c : Char) : ElseBranch :=
    ⟨tokenAt .elseWord o ['e', 'l', 's', 'e'], rfl, name (o + 5) c⟩
  constructor
  · have ht : (Stream.ofText {} "if a then if b then c else d".toList).Gives
        (nestedTokens [test 0 'a', test 10 'b'] (name 20 'c') [alternative 22 'd']) :=
      Stream.gives_of_within (n := 20) rfl
    exact (else_of_nearest_if (name 20 'c') (by decide)).1 ht
  · have ht : (Stream.ofText {} "if a then b else c else d".toList).Gives
        (nestedTokens [test 0 'a'] (name 10 'b') [alternative 12 'c'] ++
          [tokenAt .elseWord 19 ['e', 'l', 's', 'e'], tokenAt .ident 24 ['d']]) :=
      Stream.gives_of_within (n := 20) rfl
    obtain ⟨_, _, hem, _⟩ := ht
    obtain ⟨src, hem, hw⟩ := Stream.emits_append_inv hem
    cases hw with
    | head hw _ _ => exact (else_of_nearest_if (name 10 'b') (by decide)).2 rfl src _ hem hw rfl

end SmallMl.Program
