import SmallMl.Command.Report
import SmallMl.Proofs.Grammar.Literals

/-!
# The commands on files agree

Checking a source and showing its tree come to the same end: the exit code and the messages are
those of `Report.check`, whether the tree is shown as an outline or as JSON (`Report.modes_agree`).
Writing JSON could go wrong on its own, but not because of a number (`Program.encode_error`).

The table of tokens goes on after errors, and it may list warnings of comments that the reader never
comes to.  A source that is a program has no errors, and the reader comes to its end, so there the
messages are the same, too.
-/

namespace SmallMl

/-- The source `name` is the program `p`. -/
def Inputs.Holds (i : Inputs) (name : String) (p : Program) : Prop :=
  ∃ bytes, i.load name = .ok bytes ∧
    (Program.parseBytes (Inputs.settings name) bytes).result = .ok p

/-! ### All results of a text that is a program -/

/-- A text that is read as a program consists of tokens, and it is read to its end. -/
theorem Program.nextAll_of_parse {settings : Settings} {text : List Char} {p : Program}
    (h : (parse settings text).result = .ok p) :
    ∃ ts : List Token, (Stream.ofText settings text).nextAll
      = (ts.map .ok, (parse settings text).stream) := by
  obtain ⟨ts, src, s, he, -, hp⟩ := Parse.run_halts .initial (.ofText settings text)
  rw [parse] at h ⊢
  rw [he.nextAll_eq]
  generalize Parse.run .initial (.ofText settings text) = r at h hp
  cases hp with
  | fault _ => cases h
  | issue _ _ => cases h
  | @finish e s' hn ht hs =>
    refine ⟨ts ++ [e], ?_⟩
    rw [Stream.nextAll_of_eof hn ht, List.map_append]
    rfl

namespace Report

theorem errorsOf_tokens (ts : List Token) : errorsOf (ts.map .ok) = [] := by
  simp [errorsOf]

theorem errorsOf_nextAll (s : Stream) : errorsOf s.nextAll.1 = errorsOf s.readAll.1 := by
  rw [Stream.nextAll_eq, errorsOf, errorsOf, List.filterMap_filter]
  congr 1
  funext r
  cases r with
  | ok t => simp
  | error d => rfl

/-! ### The reports -/

/-- The report `r` of a command that shows something agrees with the report `s` of one that does
not: they exit alike, with the same messages, and nothing is shown without success. -/
structure Agrees (r s : Report) : Prop where
  code : r.code = s.code
  stderr : r.stderr = s.stderr
  stdout : r.code ≠ success → r.stdout = ""

section

variable {i : Inputs} {name : String} {f : Program → Except Failure String} {bytes : List UInt8}
  {p : Program}

theorem parsed_of_unreadable {e : Failure} (h : i.load name = .error e) :
    parsed i name f = ofFailure e := by
  rw [parsed, h]

theorem parsed_of_error {d : Diagnostic} (h : i.load name = .ok bytes)
    (hd : (Program.parseBytes (Inputs.settings name) bytes).result = .error d) :
    parsed i name f = ⟨inputError, "", unlines
      ((Program.parseBytes (Inputs.settings name) bytes).heard.map Diagnostic.report
        ++ [(Failure.diagnostic d).report])⟩ := by
  rw [parsed, h]
  dsimp only
  rw [hd]

theorem parsed_of_shown {out : String} (h : i.load name = .ok bytes)
    (hp : (Program.parseBytes (Inputs.settings name) bytes).result = .ok p) (ho : f p = .ok out) :
    parsed i name f = ⟨success, out, unlines
      ((Program.parseBytes (Inputs.settings name) bytes).heard.map Diagnostic.report)⟩ := by
  rw [parsed, h]
  dsimp only
  rw [hp]
  dsimp only
  rw [ho]

theorem source_cases (i : Inputs) (name : String) :
    (∃ e, i.load name = .error e) ∨
      (∃ bytes d, i.load name = .ok bytes ∧
        (Program.parseBytes (Inputs.settings name) bytes).result = .error d) ∨
      ∃ bytes p, i.load name = .ok bytes ∧
        (Program.parseBytes (Inputs.settings name) bytes).result = .ok p := by
  cases h : i.load name with
  | error e => exact .inl ⟨e, rfl⟩
  | ok bytes =>
    cases hp : (Program.parseBytes (Inputs.settings name) bytes).result with
    | error d => exact .inr (.inl ⟨bytes, d, rfl, hp⟩)
    | ok p => exact .inr (.inr ⟨bytes, p, rfl, hp⟩)

theorem stdout_check (i : Inputs) (name : String) : (check i name).stdout = "" := by
  rcases source_cases i name with ⟨e, h⟩ | ⟨bytes, d, h, hd⟩ | ⟨bytes, p, h, hp⟩
  · rw [check, parsed_of_unreadable h]
    rfl
  · rw [check, parsed_of_error h hd]
  · rw [check, parsed_of_shown h hp rfl]

theorem code_check (i : Inputs) (name : String) :
    (check i name).code = inputError ∨ ∃ p, i.Holds name p := by
  rcases source_cases i name with ⟨e, h⟩ | ⟨bytes, d, h, hd⟩ | ⟨bytes, p, h, hp⟩
  · exact .inl (by rw [check, parsed_of_unreadable h]; rfl)
  · exact .inl (by rw [check, parsed_of_error h hd])
  · exact .inr ⟨p, bytes, h, hp⟩

/-- **Showing a program changes nothing else**, if it can be shown. -/
theorem parsed_agrees (hf : ∀ p, i.Holds name p → ∃ out, f p = .ok out) :
    (parsed i name f).Agrees (check i name) := by
  rcases source_cases i name with ⟨e, h⟩ | ⟨bytes, d, h, hd⟩ | ⟨bytes, p, h, hp⟩
  · rw [check, parsed_of_unreadable h, parsed_of_unreadable h]
    exact ⟨rfl, rfl, fun _ => rfl⟩
  · rw [check, parsed_of_error h hd, parsed_of_error h hd]
    exact ⟨rfl, rfl, fun _ => rfl⟩
  · obtain ⟨out, ho⟩ := hf p ⟨bytes, h, hp⟩
    rw [check, parsed_of_shown h hp ho, parsed_of_shown h hp rfl]
    exact ⟨rfl, rfl, fun hc => absurd rfl hc⟩

end

/-- **The table of tokens of a program** comes without errors and with the same warnings. -/
theorem tokens_of_holds {i : Inputs} {name : String} {p : Program} (h : i.Holds name p)
    (comments : Bool) :
    (tokens i name comments).code = success ∧
      (tokens i name comments).stderr = (check i name).stderr := by
  obtain ⟨bytes, hl, hp⟩ := h
  obtain ⟨ts, hts⟩ : ∃ ts : List Token, (Stream.ofBytes (Inputs.settings name) bytes).nextAll
      = (ts.map .ok, (Program.parseBytes (Inputs.settings name) bytes).stream) :=
    Program.nextAll_of_parse hp
  have hn := errorsOf_tokens ts
  -- with the comments there are no more errors, and the stream ends up in the same place
  have hr := errorsOf_nextAll (.ofBytes (Inputs.settings name) bytes)
  have hs := congrArg Prod.snd (Stream.nextAll_eq (.ofBytes (Inputs.settings name) bytes))
  rw [hts, hn] at hr
  rw [hts] at hs
  dsimp only at hs
  rw [check, parsed_of_shown hl hp rfl, tokens, hl]
  cases comments with
  | false => simp [hts, hn, Parse.heard]
  | true => simp [← hs, ← hr, Parse.heard]

/-! ### Agreement -/

/-- **All commands on files agree.**  Showing the tree of a source ends as checking it does, with
the same messages; for JSON this supposes that the encoder refuses nothing but numbers.  A source
that passes the check has a table of tokens without errors and with the same messages, so a source
with errors in its table does not pass. -/
theorem modes_agree (i : Inputs) (name : String) :
    (check i name).stdout = "" ∧
      (tree i name "text").Agrees (check i name) ∧
      ((∀ p, i.Holds name p → ∀ u, Json.encode (Node.program p).record = .error u →
          ∃ v, u = .notFinite v) →
        (tree i name "json").Agrees (check i name)) ∧
      ((check i name).code = success → ∀ comments, (tokens i name comments).code = success ∧
        (tokens i name comments).stderr = (check i name).stderr) ∧
      ∀ comments, (tokens i name comments).code = inputError →
        (check i name).code = inputError := by
  refine ⟨stdout_check i name, parsed_agrees fun p _ => ⟨_, rfl⟩, ?_, ?_, ?_⟩
  · intro hj
    refine parsed_agrees fun p hp => ?_
    obtain ⟨bytes, hl, hr⟩ := hp
    cases he : Json.encode (Node.program p).record with
    | ok s => exact ⟨s, by rw [Format.write, he]⟩
    | error u =>
      obtain ⟨v, hv⟩ := hj p ⟨bytes, hl, hr⟩ u he
      rw [Program.encode_error hr he] at hv
      cases hv
  · intro hc comments
    rcases code_check i name with h | ⟨p, hp⟩
    · rw [hc] at h
      cases h
    · exact tokens_of_holds hp comments
  · intro comments hc
    rcases code_check i name with h | ⟨p, hp⟩
    · exact h
    · rw [(tokens_of_holds hp comments).1] at hc
      cases hc

/-- A float with a comment behind it that does not end, and a float with a stray character. -/
theorem modes_agree_on_floats : ∃ i : Inputs,
    i.load "good.ml" = .ok [0x31, 0x2E, 0x35, 0x20, 0x28, 0x2A] ∧
      i.load "bad.ml" = .ok [0x31, 0x2E, 0x35, 0x20, 0x40] ∧
      (check i "good.ml").stderr = "good.ml:1:5: warning: unterminated comment\n" ∧
      (tree i "good.ml" "json").Agrees (check i "good.ml") ∧
      (∀ comments, (tokens i "good.ml" comments).code = success ∧
        (tokens i "good.ml" comments).stderr = (check i "good.ml").stderr) ∧
      (tokens i "bad.ml" false).code = inputError ∧ (check i "bad.ml").code = inputError := by
  obtain ⟨i, hg, hb⟩ : ∃ i : Inputs,
      i.load "good.ml" = .ok [0x31, 0x2E, 0x35, 0x20, 0x28, 0x2A] ∧
      i.load "bad.ml" = .ok [0x31, 0x2E, 0x35, 0x20, 0x40] :=
    ⟨{ file := fun name => .ok (if name = "good.ml" then [0x31, 0x2E, 0x35, 0x20, 0x28, 0x2A]
        else [0x31, 0x2E, 0x35, 0x20, 0x40])
       stdin := [] }, rfl, rfl⟩
  -- the first source is a program
  obtain ⟨p, src, hrun, hw, hr⟩ : ∃ p src, Parse.runWithin 10 .initial
        (.ofText (Inputs.settings "good.ml") ['1', '.', '5', ' ', '(', '*']) = some ⟨.ok p, src⟩ ∧
      src.heard = [Stream.unclosedComment (Inputs.settings "good.ml") ⟨1, 5, 4⟩] ∧
      Json.refusal? 0 (Node.program p).record = none := ⟨_, _, rfl, rfl, by decide +kernel⟩
  have hp : Program.parseBytes (Inputs.settings "good.ml") [0x31, 0x2E, 0x35, 0x20, 0x28, 0x2A]
      = ⟨.ok p, src⟩ := by
    rw [Program.parseBytes, show Utf8.decode [0x31, 0x2E, 0x35, 0x20, 0x28, 0x2A]
      = ['1', '.', '5', ' ', '(', '*'] by decide +kernel, Program.parse, Parse.run_of_within hrun]
  have hc := parsed_of_shown (f := fun _ => .ok "") hg (congrArg Parse.result hp) rfl
  rw [hp, Parse.heard, hw] at hc
  obtain ⟨-, -, hjson, htokens, -⟩ := modes_agree i "good.ml"
  refine ⟨i, hg, hb, ?_, hjson ?_, htokens (congrArg Report.code hc), ?_⟩
  · exact (congrArg Report.stderr hc).trans (by decide +kernel)
  · rintro q ⟨bytes, hl, hq⟩ u he
    rw [hg] at hl
    cases hl
    rw [hp] at hq
    cases hq
    rw [Json.encode, hr] at he
    cases he
  -- the second one has an error
  obtain ⟨r, hall, he⟩ : ∃ r, Stream.nextAllWithin 10
        (.ofText (Inputs.settings "bad.ml") ['1', '.', '5', ' ', '@']) = some r ∧
      (errorsOf r.1).isEmpty = false := ⟨_, rfl, rfl⟩
  have herr : (tokens i "bad.ml" false).code = inputError := by
    have hs : Stream.ofBytes (Inputs.settings "bad.ml") [0x31, 0x2E, 0x35, 0x20, 0x40]
        = .ofText (Inputs.settings "bad.ml") ['1', '.', '5', ' ', '@'] := by
      rw [Stream.ofBytes, show Utf8.decode [0x31, 0x2E, 0x35, 0x20, 0x40]
        = ['1', '.', '5', ' ', '@'] by decide +kernel]
    simp [tokens, hb, hs, Stream.nextAll_of_within hall, he]
  exact ⟨herr, (modes_agree i "bad.ml").2.2.2.2 false herr⟩

end Report

end SmallMl
