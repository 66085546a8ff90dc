import SmallMl.Proofs.Grammar.Run
import SmallMl.Proofs.Grammar.Settle
import SmallMl.Proofs.Token.Seam

/-!
# Errors in front of the end are final

An error that was not noticed at the end of the input stays the same error, whatever lines are
added to the text.  The reader halts at the first result that it cannot use, so it never saw the end
of the text; and up to there a line break and the text behind it are not noticed
(`Stream.next_extend`).
-/

namespace SmallMl

open Grammar (State)

theorem Stream.Emits.extend {b : Char} (hb : Lexeme.isBlank b = true) (m : List Char)
    {src src' : Stream} {ts : List Token} (h : src.Emits ts src') :
    (src.extend (b :: m)).Emits ts (src'.extend (b :: m)) := by
  induction h with
  | refl src => exact .refl _
  | @head src src' t ts hn ht _ ih =>
    have he := Stream.next_extend hb m src (hn ▸ Stream.more_ok ht)
    refine .head (by rw [he]; exact hn) ht ?_
    rw [he]
    exact ih

namespace Parse

theorem Halts.extend {b : Char} (hb : Lexeme.isBlank b = true) (m : List Char) {s : State}
    {src : Stream} {p : Parse} (h : Halts s src p) {d : Diagnostic} (hd : p.result = .error d)
    (he : d.atEnd = false) : ∃ p', Halts s (src.extend (b :: m)) p' ∧ p'.result = .error d := by
  cases h with
  | fault hn =>
    have hx := Stream.next_extend hb m src (hn ▸ Stream.more_error _)
    exact ⟨_, .fault (by rw [hx]; exact hn), hd⟩
  | @issue t i hn hs =>
    have ht : t.isEof = false := by
      cases hd
      exact (State.atEnd_of_step_error hs).symm.trans he
    have hx := Stream.next_extend hb m src (hn ▸ Stream.more_ok ht)
    exact ⟨_, .issue (by rw [hx]; exact hn) hs, hd⟩
  | finish hn ht hs => cases hd

theorem result_run_extend {b : Char} (hb : Lexeme.isBlank b = true) (m : List Char) (s : State)
    (src : Stream) {d : Diagnostic} (hd : (run s src).result = .error d) (he : d.atEnd = false) :
    (run s (src.extend (b :: m))).result = .error d := by
  obtain ⟨ts, src', s', hts, hs, hp⟩ := run_halts s src
  obtain ⟨p', hp', hd'⟩ := hp.extend hb m hd he
  rw [run_eq (hts.extend hb m) hs hp', hd']

end Parse

namespace Program

theorem parseBytes_append_newline (settings : Settings) (text more : List UInt8) :
    parseBytes settings (text ++ Utf8.newline :: more)
      = Parse.run .initial
          ((Stream.ofText settings (Utf8.decode text)).extend ('\n' :: Utf8.decode more)) := by
  rw [parseBytes, Utf8.decode_append_newline]
  rfl

theorem parseBytes_error_append {settings : Settings} {text : List UInt8} {d : Diagnostic}
    (hd : (parseBytes settings text).result = .error d) (he : d.atEnd = false)
    (more : List UInt8) :
    (parseBytes settings (text ++ Utf8.newline :: more)).result = .error d := by
  rw [parseBytes_append_newline]
  exact Parse.result_run_extend (by decide) _ _ _ hd he

theorem needsMore_eq_of_error {text : List Char} {d : Diagnostic}
    (hd : (parse {} text).result = .error d) : needsMore text = d.atEnd := by
  rw [needsMore, hd]
  rfl

/-- **An error in front of the end is final.**  Text behind a line break does not change it, and
text that is broken and not merely incomplete stays broken. -/
theorem error_before_end_is_final (settings : Settings) (text more : List UInt8) :
    (∀ d, (parseBytes settings text).result = .error d → d.atEnd = false →
      (parseBytes settings (text ++ Utf8.newline :: more)).result = .error d) ∧
    (∀ d, (parseBytes {} text).result = .error d → needsMore (Utf8.decode text) = false →
      (parseBytes {} (text ++ Utf8.newline :: more)).result = .error d ∧
        needsMore (Utf8.decode (text ++ Utf8.newline :: more)) = false) := by
  refine ⟨fun d hd he => parseBytes_error_append hd he more, ?_⟩
  intro d hd hn
  have he : d.atEnd = false := by rw [← needsMore_eq_of_error hd, hn]
  have hd' := parseBytes_error_append hd he more
  exact ⟨hd', by rw [needsMore_eq_of_error hd', he]⟩

/-- A closing parenthesis on its own stays an error, also when the bytes of a character stand on
both sides of the line break. -/
theorem stray_paren_is_final :
    (parseBytes {} [0x29, 0xE2, 0x82]).result
        = .error ⟨⟨1, 1, 0⟩, "unexpected ')'", .error, .parser, "", false⟩ ∧
      (parseBytes {} ([0x29, 0xE2, 0x82] ++ Utf8.newline :: [0xAC, 0x31])).result
        = .error ⟨⟨1, 1, 0⟩, "unexpected ')'", .error, .parser, "", false⟩ := by
  have hd : (parseBytes {} [0x29, 0xE2, 0x82]).result
      = .error ⟨⟨1, 1, 0⟩, "unexpected ')'", .error, .parser, "", false⟩ := by
    rw [parseBytes, show Utf8.decode [0x29, 0xE2, 0x82] = [')', '\uFFFD', '\uFFFD'] by
      decide +kernel]
    exact result_parse_of_within (n := 3) rfl
  exact ⟨hd, (error_before_end_is_final {} _ _).1 _ hd rfl⟩

end Program

end SmallMl
