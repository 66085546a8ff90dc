import SmallMl.Proofs.Grammar.Openings
import SmallMl.Proofs.Grammar.Soundness
import SmallMl.Proofs.Token.Listing

/-!
# Where errors point

Reading a text goes wrong in two ways.  A lexeme is no token; then the error stands where the lexeme
starts.  Or a token cannot be used (`Program.Refuses`); then the error stands where that token
starts, or where an earlier one does.  Errors of the second kind say whether the end of the text was
reached.  `Program.error_points_at_failure` is the statement.
-/

namespace SmallMl

namespace Stream

/-! ### Faulty lexemes -/

/-- The diagnostic points at a lexeme of the text that is no token, and it says why. -/
def Faulty (settings : Settings) (text : List Char) (d : Diagnostic) : Prop :=
  ∃ c r f, text.drop d.loc.offset.toNat = c :: r ∧ Lexeme.isBlank c = false ∧
    (Lexeme.read c r).found = .error f ∧ d = f.toDiagnostic settings d.loc

variable {text : List Char} {s src src' : Stream} {ts : List Token} {t : Token} {d : Diagnostic}

theorem Faulty.fields {settings : Settings} (h : Faulty settings text d) :
    d.filename = settings.filename ∧ d.stage = .lexer ∧ d.atEnd = false := by
  obtain ⟨c, r, f, -, -, -, hd⟩ := h
  rw [hd]
  exact ⟨rfl, rfl, rfl⟩

theorem At.read_error (h : s.At text) (hr : s.read.1 = .error d) :
    d.loc.AgreesWith text ∧ Faulty s.settings text d := by
  obtain ⟨pre, ht, hl⟩ := h.here
  rcases s.read_cases with ⟨_, he⟩ | ⟨c, r, hb, he⟩
  · rw [he] at hr
    cases hr
  · rw [he] at hr
    have hloc : s.here = d.loc := by
      rw [← place_result s (Lexeme.read c r)]
      exact congrArg place hr
    rw [result] at hr
    cases hf : (Lexeme.read c r).found with
    | ok k => rw [hf] at hr; cases hr
    | error f =>
      rw [hf, hloc] at hr
      have ho : d.loc.offset.toNat = pre.length := by
        rw [← hloc, hl, Location.offset_start_after, Int.toNat_natCast]
      refine ⟨?_, c, r, f, ?_, isBlank_of_body hb, hf, (Except.error.inj hr).symm⟩
      · rw [← hloc, hl, ht]
        exact Location.agreesWith_after _ _
      · rw [ho, ht, List.drop_left, hb]

theorem At.next_error (h : s.At text) (hn : s.next.1 = .error d) :
    d.loc.AgreesWith text ∧ Faulty s.settings text d ∧
      ∃ (cs : List Token) (rest : List (Except Diagnostic Token)),
        s.readAll.1 = cs.map .ok ++ .error d :: rest := by
  fun_induction Stream.next s with
  | case1 s c hc hcc ih =>
    have hce : c.isEof = false := Token.isEof_of_isComment hcc
    obtain ⟨hl, hf, cs, rest, hall⟩ := ih (h.read hc hce).2.1 hn
    rw [settings_read] at hf
    refine ⟨hl, hf, c :: cs, rest, ?_⟩
    rw [readAll_of_more (hc ▸ more_ok hce), hc, hall]
    rfl
  | case2 s c hc hcc => cases hn
  | case3 s d' hd =>
    cases hn
    obtain ⟨hl, hf⟩ := h.read_error hd
    refine ⟨hl, hf, [], s.read.2.readAll.1, ?_⟩
    rw [readAll_of_more (hd ▸ more_error d), hd]
    rfl

theorem exists_readAll_of_next (hn : s.next.1 = .ok t) (ht : t.isEof = false) :
    ∃ cs : List Token, s.readAll.1 = cs.map .ok ++ s.next.2.readAll.1 := by
  fun_induction next s with
  | case1 s c hc hcc ih =>
    obtain ⟨cs, hall⟩ := ih hn
    refine ⟨c :: cs, ?_⟩
    rw [readAll_of_more (hc ▸ more_ok (Token.isEof_of_isComment hcc)), hc, hall]
    rfl
  | case2 s c hc hcc =>
    cases hn
    refine ⟨[t], ?_⟩
    rw [readAll_of_more (hc ▸ more_ok ht), hc]
    rfl
  | case3 s d hd => cases hn

theorem Emits.exists_readAll (h : src.Emits ts src') :
    ∃ us : List Token, src.readAll.1 = us.map .ok ++ src'.readAll.1 := by
  induction h with
  | refl src => exact ⟨[], rfl⟩
  | head hn ht _ ih =>
    obtain ⟨cs, hc⟩ := exists_readAll_of_next hn ht
    obtain ⟨us, hu⟩ := ih
    exact ⟨cs ++ us, by rw [hc, hu, List.map_append, List.append_assoc]⟩

/-! ### Tokens in front of the next one -/

theorem Emits.tokens_append (h : src.Emits ts src') : src.tokens = ts ++ src'.tokens := by
  induction h with
  | refl src => rfl
  | head hn ht _ ih => rw [tokens_of_next hn ht, ih, List.cons_append]

theorem isComment_of_next (h : s.next.1 = .ok t) : t.isComment = false := by
  fun_induction next s with
  | case1 s c hc hcc ih => exact ih h
  | case2 s c hc hcc =>
    cases h
    simpa using hcc
  | case3 s d hd => cases h

theorem Emits.isComment_eq_false (h : src.Emits ts src') : ∀ t ∈ ts, t.isComment = false := by
  induction h with
  | refl => simp
  | head hn _ _ ih => exact List.forall_mem_cons.2 ⟨isComment_of_next hn, ih⟩

end Stream

open Grammar (State)

namespace Program

/-! ### Refused tokens -/

/-- Reading the text uses up the tokens `us`; behind them stands `t`, which cannot be used because
of the issue `i`. -/
inductive Refuses (settings : Settings) (text : List Char) : List Token → Token → Issue → Prop
  | intro {us : List Token} {t : Token} {i : Issue} {src : Stream} {s : State} :
      (Stream.ofText settings text).Emits us src → src.next.1 = .ok t →
      State.initial.run us = .ok s → s.step t = .error i → Refuses settings text us t i

variable {settings : Settings} {text : List Char} {us : List Token} {t : Token} {i : Issue}
  {d : Diagnostic}

/-- An error comes from a lexeme that is no token or from a token that is refused. -/
theorem error_cases (h : (parse settings text).result = .error d) :
    (∃ us src, (Stream.ofText settings text).Emits us src ∧ src.next.1 = .error d) ∨
      ∃ us t i, Refuses settings text us t i ∧ d = i.toDiagnostic settings := by
  obtain ⟨us, src, s, he, hr, hp⟩ := Parse.run_halts .initial (Stream.ofText settings text)
  change (Parse.run .initial (Stream.ofText settings text)).result = .error d at h
  generalize Parse.run .initial (Stream.ofText settings text) = p at h hp
  cases hp with
  | fault hn =>
    cases h
    exact .inl ⟨us, src, he, hn⟩
  | issue hn hs =>
    cases h
    rw [he.settings_eq]
    exact .inr ⟨us, _, _, .intro he hn hr hs, rfl⟩
  | finish hn ht hs => cases h

namespace Refuses

/-- The tokens that are used up and the one that is refused stand in the text. -/
theorem agreesWith (h : Refuses settings text us t i) :
    ∀ u ∈ us ++ [t], u.isComment = false ∧ u.range.start.AgreesWith text := by
  obtain ⟨he, hn, _, _⟩ := h
  obtain ⟨hat, hp, _, _⟩ := he.placed (Stream.at_ofText settings text)
  intro u hu
  rcases List.mem_append.1 hu with hu | hu
  · exact ⟨he.isComment_eq_false u hu, (hp u hu).start⟩
  · rw [List.mem_singleton.1 hu]
    refine ⟨Stream.isComment_of_next hn, ?_⟩
    cases ht : t.isEof with
    | false => exact (hat.next hn ht).1.start
    | true => exact (hat.next_eof hn ht).1

/-- **What is refused is about the token, or about the last parenthesis that the tokens in front of
it leave open.** -/
theorem blames (h : Refuses settings text us t i) :
    ∃ os, Grammar.LeavesOpen us os ∧ Grammar.Blames t os i := by
  obtain ⟨he, _, hr, hs⟩ := h
  have hreads := Grammar.reads_initial.run he.isEof_eq_false hr
  exact ⟨_, hreads.leavesOpen, State.step_blames hs⟩

theorem exists_token (h : Refuses settings text us t i) :
    ∃ u ∈ us ++ [t], i.loc = u.range.start := by
  obtain ⟨os, hopen, ⟨hl, _⟩ | hh⟩ := h.blames
  · exact ⟨t, by simp, hl⟩
  · obtain ⟨ps, rfl⟩ := List.head?_eq_some_iff.1 hh
    obtain ⟨before, o, after, rfl, _, ho, _⟩ := hopen.exists_token
    exact ⟨o, by simp, ho.symm⟩

theorem atEnd_iff (h : Refuses settings text us t i) :
    i.atEnd = true ↔ (Stream.ofText settings text).Clean ∧
      (Stream.ofText settings text).tokens = us := by
  obtain ⟨he, hn, _, hs⟩ := h
  rw [State.atEnd_of_step_error hs]
  constructor
  · intro ht
    exact ⟨he.clean hn ht, Stream.tokens_eq he hn ht⟩
  · rintro ⟨-, hall⟩
    cases ht : t.isEof with
    | true => rfl
    | false =>
      rw [he.tokens_append, Stream.tokens_of_next hn ht] at hall
      simp at hall

end Refuses

/-- **Errors point at what is wrong.**  The place of an error is a place of the text, and its file
name is the one that was set.  An error about a lexeme stands where the first lexeme starts that is
no token, and is not at the end.  Any other error stands where a token starts that was used, or the
one behind them, and it is at the end exactly if the text has no other tokens and no lexeme that is
none. -/
theorem error_points_at_failure (settings : Settings) (text : List Char) (d : Diagnostic)
    (h : (parse settings text).result = .error d) :
    d.filename = settings.filename ∧ d.loc.AgreesWith text ∧
      (d.stage = .lexer → d.atEnd = false ∧ Stream.Faulty settings text d ∧
        ∃ (ts : List Token) (rest : List (Except Diagnostic Token)),
          (Stream.ofText settings text).readAll.1 = ts.map .ok ++ .error d :: rest) ∧
      (d.stage = .parser → ∃ us t i, Refuses settings text us t i ∧ d = i.toDiagnostic settings ∧
        (∃ u ∈ us ++ [t], u.isComment = false ∧ d.loc = u.range.start) ∧
        (d.atEnd = true ↔ (Stream.ofText settings text).Clean ∧
          (Stream.ofText settings text).tokens = us)) := by
  rcases error_cases h with ⟨us, src, he, hn⟩ | ⟨us, t, i, hr, rfl⟩
  · obtain ⟨hat, -⟩ := he.placed (Stream.at_ofText settings text)
    obtain ⟨hl, hf, cs, rest, hall⟩ := hat.next_error hn
    rw [he.settings_eq] at hf
    obtain ⟨hname, hstage, hend⟩ := hf.fields
    obtain ⟨ts, hts⟩ := he.exists_readAll
    refine ⟨hname, hl, fun _ => ⟨hend, hf, ts ++ cs, rest, ?_⟩, ?_⟩
    · rw [hts, hall, List.map_append, List.append_assoc]
    · intro hp
      rw [hstage] at hp
      cases hp
  · obtain ⟨u, hu, hl⟩ := hr.exists_token
    obtain ⟨hc, ha⟩ := hr.agreesWith u hu
    refine ⟨rfl, ?_, ?_, fun _ => ⟨us, t, i, hr, rfl, ⟨u, hu, hc, hl⟩, hr.atEnd_iff⟩⟩
    · exact (hl ▸ ha : i.loc.AgreesWith text)
    · intro hp
      cases hp

/-- An index that is not closed, with a comment at the end of the text, and behind an open
parenthesis a character that no token starts with. -/
theorem error_points_at_failure_of_open_index :
    (parse ⟨"t.ml", false⟩ "a\n.(0 (* b *)".toList).result
        = .error ⟨⟨2, 2, 3⟩, "expected ')'", .error, .parser, "t.ml", true⟩ ∧
      (Stream.ofText ⟨"t.ml", false⟩ "a\n.(0 (* b *)".toList).Clean ∧
      (parse {} "(1 @ 2".toList).result
        = .error ⟨⟨1, 4, 3⟩, "invalid character '@'", .error, .lexer, "", false⟩ ∧
      ∃ (ts : List Token) (rest : List (Except Diagnostic Token)),
        (Stream.ofText {} "(1 @ 2".toList).readAll.1 = ts.map .ok ++
          .error ⟨⟨1, 4, 3⟩, "invalid character '@'", .error, .lexer, "", false⟩ :: rest := by
  have hp : (parse ⟨"t.ml", false⟩ "a\n.(0 (* b *)".toList).result
      = .error ⟨⟨2, 2, 3⟩, "expected ')'", .error, .parser, "t.ml", true⟩ :=
    result_parse_of_within (n := 10) rfl
  have hl : (parse {} "(1 @ 2".toList).result
      = .error ⟨⟨1, 4, 3⟩, "invalid character '@'", .error, .lexer, "", false⟩ :=
    result_parse_of_within (n := 10) rfl
  obtain ⟨-, -, -, hparser⟩ := error_points_at_failure _ _ _ hp
  obtain ⟨us, t, i, -, -, -, hend⟩ := hparser rfl
  obtain ⟨-, -, hlexer, -⟩ := error_points_at_failure _ _ _ hl
  exact ⟨hp, (hend.1 rfl).1, hl, (hlexer rfl).2.2⟩

end Program

end SmallMl
