import SmallMl.Proofs.Grammar.Bare
import SmallMl.Proofs.Token.Overwriting

/-!
# Layout

What comes of reading a text is decided by the results of its stream (`Parse.answer_nextAll`), and
the reader looks at their kinds and spellings only.  So the blanks, the comments and the line breaks
of a text mean nothing:

* `Program.comments_are_blanks`: with blanks in the place of its comments a text has the same
  results, gives the same program or the same error, and no warning arises.
* `Program.layout_irrelevant`: texts that agree in their tokens give the same program, ranges aside,
  or the same error, its place aside.
-/

namespace SmallMl

open Grammar

namespace Parse

/-! ### The answer to the results of a stream -/

/-- What the reader in the state `s` answers to the results of a stream; nothing if they stop before
it has come to an end. -/
def answer (settings : Settings) :
    State → List (Except Diagnostic Token) → Option (Except Diagnostic Program)
  | _, [] => none
  | _, .error d :: _ => some (.error d)
  | s, .ok t :: rs =>
    match s.step t with
    | .error i => some (.error (i.toDiagnostic settings))
    | .ok s' => if t.isEof then some (.ok (s'.program t)) else answer settings s' rs

/-- **The results of a stream decide what comes of a run.** -/
theorem answer_nextAll (s : State) (src : Stream) :
    answer src.settings s src.nextAll.1 = some (run s src).result := by
  induction src using Stream.next_induct generalizing s with
  | eof src t hn ht =>
    rw [Stream.nextAll_of_eof hn ht, answer]
    cases hs : s.step t with
    | error i => rw [run_of_halts (.issue hn hs)]
    | ok s' =>
      rw [run_of_halts (.finish hn ht hs)]
      exact if_pos ht
  | more src hm ih =>
    rw [Stream.nextAll_of_more hm]
    cases hn : src.next.1 with
    | error d => rw [answer, run_of_halts (.fault hn)]
    | ok t =>
      rw [answer]
      cases hs : s.step t with
      | error i => rw [run_of_halts (.issue hn hs)]
      | ok s' =>
        have ht := hm t hn
        rw [run_of_token hn ht hs, ← ih, Stream.settings_next]
        exact if_neg (by simp [ht])

theorem Halts.stream_eq {s : State} {src : Stream} {p : Parse} (h : Halts s src p) :
    p.stream = src.next.2 := by
  cases h <;> rfl

/-- The warnings that arise in a run are the first ones of the text. -/
theorem warnings_run_isPrefix (s : State) (src : Stream) :
    (run s src).warnings <+: src.nextAll.2.warnings := by
  obtain ⟨ts, src', s', he, -, hp⟩ := run_halts s src
  rw [he.nextAll_eq, warnings, hp.stream_eq]
  rcases Stream.more_or_eof src'.next.1 with hm | ⟨t, hn, ht⟩
  · rw [Stream.nextAll_of_more hm]
    exact src'.next.2.warnings_isPrefix
  · exact ⟨[], by rw [Stream.nextAll_of_eof hn ht, List.append_nil]⟩

end Parse

namespace Program

/-! ### Comments -/

/-- **Comments are as good as blanks.**  With a space in the place of every character of a comment,
line breaks apart, a text has the same results, and it gives the same program or the same error.  No
warning arises. -/
theorem comments_are_blanks (settings : Settings) (text : List Char) :
    (Stream.ofText settings (withoutComments text)).nextAll.1
        = (Stream.ofText settings text).nextAll.1 ∧
      (parse settings (withoutComments text)).result = (parse settings text).result ∧
      (Stream.ofText settings (withoutComments text)).readAll.2.warnings = [] ∧
      (Stream.ofText settings (withoutComments text)).nextAll.2.warnings = [] ∧
      (parse settings (withoutComments text)).warnings = [] := by
  obtain ⟨hall, hw⟩ := Stream.nextAll_withoutComments settings text
  refine ⟨hall, ?_, ?_, hw, ?_⟩
  · have h := Parse.answer_nextAll .initial (.ofText settings text)
    have h' := Parse.answer_nextAll .initial (.ofText settings (withoutComments text))
    rw [hall] at h'
    exact Option.some.inj (h'.symm.trans h)
  · rwa [Stream.nextAll_eq] at hw
  · have hp := Parse.warnings_run_isPrefix .initial (.ofText settings (withoutComments text))
    rw [hw] at hp
    exact List.prefix_nil.1 hp

end Program

/-! ### Texts with the same tokens -/

namespace Stream

/-- The results agree in the kinds, the values and the texts of the tokens, up to the end or to
errors with the same message. -/
inductive Agree : List (Except Diagnostic Token) → List (Except Diagnostic Token) → Prop
  | nil : Agree [] []
  | token {t u : Token} {rs qs : List (Except Diagnostic Token)} : t.kind = u.kind →
      t.lit = u.lit → Agree rs qs → Agree (.ok t :: rs) (.ok u :: qs)
  | error {d e : Diagnostic} (rs qs : List (Except Diagnostic Token)) : d.message = e.message →
      Agree (.error d :: rs) (.error e :: qs)

theorem fault_of_read_error {s : Stream} {d : Diagnostic} (h : s.read.1 = .error d) :
    d.stage = .lexer ∧ d.atEnd = false := by
  rcases s.read_cases with ⟨_, he⟩ | ⟨c, r, _, he⟩
  · rw [he] at h
    cases h
  · rw [he] at h
    unfold result at h
    split at h <;> cases h
    exact ⟨rfl, rfl⟩

theorem fault_of_next_error {s : Stream} {d : Diagnostic} (h : s.next.1 = .error d) :
    d.stage = .lexer ∧ d.atEnd = false := by
  fun_induction next s with
  | case1 s t ht hc ih => exact ih h
  | case2 s t ht hc => cases h
  | case3 s d' hd =>
    cases h
    exact fault_of_read_error hd

/-- What a stream complains about comes from the lexer, and it is never the end of the text. -/
theorem fault_of_error_mem (s : Stream) : ∀ d, .error d ∈ s.nextAll.1 →
    d.stage = .lexer ∧ d.atEnd = false := by
  induction s using next_induct with
  | eof s t h ht =>
    intro d hd
    rw [nextAll_of_eof h ht] at hd
    simp at hd
  | more s h ih =>
    intro d hd
    rw [nextAll_of_more h] at hd
    rcases List.mem_cons.1 hd with hd | hd
    · exact fault_of_next_error hd.symm
    · exact ih d hd

end Stream

namespace Parse

/-- The same program, ranges aside, or the same error, its place aside. -/
inductive Alike : Except Diagnostic Program → Except Diagnostic Program → Prop
  | program {p q : Program} : p.items.map Expr.bare = q.items.map Expr.bare →
      Alike (.ok p) (.ok q)
  | error {d e : Diagnostic} : d.message = e.message → d.stage = e.stage → d.atEnd = e.atEnd →
      Alike (.error d) (.error e)

/-- States and tokens that differ in places only: either both steps are made, or both are refused
for the same reason. -/
theorem step_of_bare_eq {s s' : State} {t u : Token} (hs : s.bare = s'.bare)
    (ht : t.bare = u.bare) :
    (∃ s₁ s₂, s.step t = .ok s₁ ∧ s'.step u = .ok s₂ ∧ s₁.bare = s₂.bare) ∨
      ∃ i j, s.step t = .error i ∧ s'.step u = .error j ∧ i.bare = j.bare := by
  have h := s.step_bare t
  rw [hs, ht, s'.step_bare u] at h
  cases h₁ : s.step t with
  | ok s₁ =>
    cases h₂ : s'.step u with
    | ok s₂ =>
      rw [h₁, h₂] at h
      exact .inl ⟨s₁, s₂, rfl, rfl, (Except.ok.inj h).symm⟩
    | error j => rw [h₁, h₂] at h; cases h
  | error i =>
    cases h₂ : s'.step u with
    | ok s₂ => rw [h₁, h₂] at h; cases h
    | error j =>
      rw [h₁, h₂] at h
      exact .inr ⟨i, j, rfl, rfl, (Except.error.inj h).symm⟩

theorem items_program_bare {s s' : State} (h : s.bare = s'.bare) (t t' : Token) :
    (s.program t).items.map Expr.bare = (s'.program t').items.map Expr.bare := by
  have hi : s.items.map Expr.bare = s'.items.map Expr.bare := congrArg State.items h
  rw [items_program, items_program, List.map_reverse, List.map_reverse, hi]

/-- Results that agree are answered alike in states that differ in places only. -/
theorem alike_answer {settings settings' : Settings} {rs qs : List (Except Diagnostic Token)}
    (h : Stream.Agree rs qs) : ∀ {s s' : State}, s.bare = s'.bare →
      (∀ d, .error d ∈ rs → d.stage = .lexer ∧ d.atEnd = false) →
      (∀ d, .error d ∈ qs → d.stage = .lexer ∧ d.atEnd = false) →
      ∀ r ∈ answer settings s rs, ∀ q ∈ answer settings' s' qs, Alike r q := by
  induction h with
  | nil => intro s s' _ _ _ r hr; cases hr
  | error rs qs hm =>
    intro s s' _ hd he r hr q hq
    obtain ⟨hds, hda⟩ := hd _ List.mem_cons_self
    obtain ⟨hes, hea⟩ := he _ List.mem_cons_self
    cases hr
    cases hq
    exact .error hm (hds.trans hes.symm) (hda.trans hea.symm)
  | @token t u rs qs hk hl _ ih =>
    intro s s' hb hd he r hr q hq
    have ht : t.bare = u.bare := by rw [Token.bare, Token.bare, hk, hl]
    have heof : u.isEof = t.isEof := by rw [Token.isEof, Token.isEof, hk]
    rw [answer] at hr hq
    rcases step_of_bare_eq hb ht with ⟨s₁, s₂, h₁, h₂, hs⟩ | ⟨i, j, h₁, h₂, hij⟩
    · rw [h₁] at hr
      rw [h₂] at hq
      dsimp only at hr hq
      rw [heof] at hq
      split at hr
      · next hte =>
        rw [if_pos hte] at hq
        cases hr
        cases hq
        exact .program (items_program_bare hs t u)
      · next hte =>
        rw [if_neg hte] at hq
        exact ih hs (fun d hm => hd d (List.mem_cons_of_mem _ hm))
          (fun d hm => he d (List.mem_cons_of_mem _ hm)) r hr q hq
    · rw [h₁] at hr
      rw [h₂] at hq
      cases hr
      cases hq
      have hc : i.bare.complaint = j.bare.complaint := by rw [hij]
      have ha : i.bare.atEnd = j.bare.atEnd := by rw [hij]
      exact .error (congrArg Complaint.message hc) rfl ha

end Parse

namespace Program

/-- **Layout does not matter.**  If two texts agree in their tokens, up to the end or to the first
errors, which then have the same message, reading them gives the same program, ranges aside, or the
same error, its place aside. -/
theorem layout_irrelevant {settings settings' : Settings} {text text' : List Char}
    (h : Stream.Agree (Stream.ofText settings text).nextAll.1
      (Stream.ofText settings' text').nextAll.1) :
    Parse.Alike (parse settings text).result (parse settings' text').result :=
  Parse.alike_answer h rfl (Stream.fault_of_error_mem _) (Stream.fault_of_error_mem _) _
    (Parse.answer_nextAll .initial (.ofText settings text)) _
    (Parse.answer_nextAll .initial (.ofText settings' text'))

/-- An application and an error behind it, with other comments, blanks and line breaks. -/
theorem layout_irrelevant_before_error :
    Stream.Agree (Stream.ofText {} "(*a*)f (1\n,@".toList).nextAll.1
        (Stream.ofText {} "f(*\n*)( 1 , @ ;".toList).nextAll.1 ∧
      Parse.Alike (parse {} "(*a*)f (1\n,@".toList).result
        (parse {} "f(*\n*)( 1 , @ ;".toList).result := by
  obtain ⟨r, q, hr, hq, h⟩ : ∃ r q,
      (Stream.ofText {} "(*a*)f (1\n,@".toList).nextAllWithin 20 = some r ∧
      (Stream.ofText {} "f(*\n*)( 1 , @ ;".toList).nextAllWithin 20 = some q ∧
      Stream.Agree r.1 q.1 :=
    ⟨_, _, rfl, rfl, .token rfl rfl (.token rfl rfl (.token rfl rfl (.token rfl rfl
      (.error _ _ (by decide +kernel)))))⟩
  rw [← Stream.nextAll_of_within hr, ← Stream.nextAll_of_within hq] at h
  exact ⟨h, layout_irrelevant h⟩

end Program

end SmallMl
