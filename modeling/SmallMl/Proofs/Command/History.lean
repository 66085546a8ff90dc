import SmallMl.Proofs.Command.Dispatch
import SmallMl.Proofs.Command.Modes
import SmallMl.Proofs.Source.Decoding
import SmallMl.Proofs.Token.Respacing

/-!
# What is remembered replays

A text is remembered on one line: each line break becomes a blank (`Session.historyEntry`).  Blanks
are as good as one another (`Respaces`), so the entry has the results of the text, tokens with the
same kinds and texts and errors with the same messages (`Stream.Respaced.agree`), and it has
warnings if the text has.  The reader gives the same program but for the ranges, or the same error
but for its place, and the entry needs more if the text does.

The main statement is `Session.history_replays`.  It also says that bytes may be replaced before
they are decoded: a newline is no part of any other character (`Utf8.decode_onOneLine`).
-/

namespace SmallMl

/-! ### Bytes -/

namespace Utf8

def onOneLine (b : UInt8) : UInt8 := if b = newline then 0x20 else b

theorem onOneLine_of_ne {b : UInt8} (h : b ≠ newline) : onOneLine b = b := if_neg h

theorem isTail_onOneLine (b : UInt8) : isTail (onOneLine b) = isTail b := by
  by_cases h : b = newline
  · subst h
    rfl
  · rw [onOneLine_of_ne h]

theorem allows_onOneLine (a b : UInt8) : allows a (onOneLine b) = allows a b := by
  by_cases h : b = newline
  · subst h
    rw [allows_newline, onOneLine, if_pos rfl]
    unfold allows
    repeat' split
    all_goals rfl
  · rw [onOneLine_of_ne h]

theorem payload_onOneLine {b : UInt8} (h : isTail b = true ∨ ∃ a, allows a b = true) :
    payload (onOneLine b) = payload b := by
  rw [onOneLine_of_ne]
  rintro rfl
  rcases h with h | ⟨a, h⟩
  · rw [isTail_newline] at h
    cases h
  · rw [allows_newline] at h
    cases h

/-- Only a newline is read as a line break: a sequence is the encoding of the character that it is
read as. -/
theorem lead_ne_newline {a : UInt8} (h : a ≠ newline) (r : List UInt8) : (lead a r).1 ≠ '\n' := by
  rcases lead_cases a r with ⟨t, s, v, rfl, ht⟩ | hl
  · rw [ht.lead_append]
    intro (hv : Char.ofNat v = '\n')
    have he := ht.encodeChar_eq
    rw [hv] at he
    exact h (List.cons.inj he).1.symm
  · rw [hl]
    decide

theorem lead_map (a : UInt8) (r : List UInt8) : lead a (r.map onOneLine) = lead a r := by
  have htail : ∀ {b}, isTail b = true → payload (onOneLine b) = payload b :=
    fun h => payload_onOneLine (.inl h)
  have hsecond : ∀ {b}, allows a b = true → payload (onOneLine b) = payload b :=
    fun h => payload_onOneLine (.inr ⟨a, h⟩)
  unfold lead
  rcases r with _ | ⟨b, _ | ⟨c, _ | ⟨d, r⟩⟩⟩
  · rfl
  all_goals
    simp only [List.map_nil, List.map_cons, isTail_onOneLine, allows_onOneLine]
    split_ifs <;> simp_all only [Bool.and_eq_true]

/-- **Newlines may be replaced before decoding.** -/
theorem decode_onOneLine (bytes : List UInt8) :
    decode (bytes.map onOneLine) = (decode bytes).map Session.onOneLine := by
  fun_induction decode bytes with
  | case1 => rw [List.map_nil, List.map_nil, decode_nil]
  | case2 a r ih =>
    rw [List.map_cons, List.map_cons, decode_cons]
    by_cases ha : a = newline
    · subst ha
      exact congrArg (' ' :: ·) ih
    · rw [onOneLine_of_ne ha, lead_map, ← List.map_drop, ih, Session.onOneLine,
        if_neg (lead_ne_newline ha r)]

end Utf8

/-! ### Results -/

/-- A line break becomes a blank, and nothing else changes. -/
theorem Session.respaces_onOneLine : Respaces onOneLine where
  blank := by
    intro c hc
    rw [onOneLine]
    split
    · rfl
    · exact hc
  other := by
    intro c hc
    refine if_neg ?_
    rintro rfl
    cases hc

namespace Stream

/-- **Blanks mean nothing**: all results say the same, and there are warnings in both cases or in
none. -/
theorem Respaced.nextAll {g : Char → Char} (hg : Respaces g) {s s' : Stream}
    (h : Respaced g s s') :
    Agree s.nextAll.1 s'.nextAll.1 ∧ Respaced g s.nextAll.2 s'.nextAll.2 := by
  induction s using next_induct generalizing s' with
  | eof s t hn ht =>
    obtain ⟨hsame, hrest, hc⟩ := h.next hg
    rw [hn] at hsame hc
    obtain ⟨u, hu, hk, hl⟩ := hsame.of_token
    have hue : u.isEof = true := by rw [Token.isEof, ← hk]; exact ht
    rw [nextAll_of_eof hn ht, nextAll_of_eof hu hue]
    exact ⟨.token hk (hl hc) .nil, hrest⟩
  | more s hm ih =>
    obtain ⟨hsame, hrest, hc⟩ := h.next hg
    obtain ⟨hagree, hend⟩ := ih hrest
    rw [nextAll_of_more hm]
    cases hn : s.next.1 with
    | error d =>
      rw [hn] at hsame
      obtain ⟨e, he, hmsg⟩ := hsame.of_error
      have hm' : More s'.next.1 := he ▸ more_error e
      rw [nextAll_of_more hm', he]
      exact ⟨.error _ _ hmsg, hend⟩
    | ok t =>
      rw [hn] at hsame hc
      obtain ⟨u, hu, hk, hl⟩ := hsame.of_token
      have hue : u.isEof = false := by rw [Token.isEof, ← hk]; exact hm t hn
      have hm' : More s'.next.1 := hu ▸ more_ok hue
      rw [nextAll_of_more hm', hu]
      exact ⟨.token hk (hl hc) hagree, hend⟩

end Stream

namespace Parse

/-- The readings say the same: programs with the same texts, expression by expression, or errors
with the same message from the same stage, both at the end of the text or both in front of it. -/
inductive Repeats : Except Diagnostic Program → Except Diagnostic Program → Prop
  | program {p q : Program} : p.items.map Expr.sexpText = q.items.map Expr.sexpText →
      Repeats (.ok p) (.ok q)
  | error {d e : Diagnostic} : d.message = e.message → d.stage = e.stage → d.atEnd = e.atEnd →
      Repeats (.error d) (.error e)

/-- A program is shown without places. -/
theorem Alike.repeats {r q : Except Diagnostic Program} (h : Alike r q) : Repeats r q := by
  cases h with
  | error hm hs he => exact .error hm hs he
  | @program p q hb =>
    have ht : ∀ es : List Expr, (es.map Expr.bare).map Expr.sexpText = es.map Expr.sexpText := by
      intro es
      rw [List.map_map]
      refine List.map_congr_left fun e _ => ?_
      rw [Function.comp_apply, Expr.sexpText_eq, Expr.sexpText_eq, Expr.sexp_bare]
    exact .program (by rw [← ht p.items, hb, ht])

end Parse

namespace Program

section

variable {g : Char → Char} (hg : Respaces g) (settings : Settings) (text : List Char)

include hg

theorem nextAll_map :
    Stream.Agree (Stream.ofText settings text).nextAll.1
        (Stream.ofText settings (text.map g)).nextAll.1 ∧
      ((Stream.ofText settings (text.map g)).nextAll.2.warnings = [] ↔
        (Stream.ofText settings text).nextAll.2.warnings = []) := by
  have h : (Stream.ofText settings text).Respaced g (.ofText settings (text.map g)) :=
    ⟨rfl, Iff.rfl⟩
  obtain ⟨hagree, hend⟩ := h.nextAll hg
  exact ⟨hagree, hend.warnings⟩

/-- A text with other blanks gives the same program or the same error. -/
theorem alike_map :
    Parse.Alike (parse settings text).result (parse settings (text.map g)).result :=
  Parse.alike_answer (nextAll_map hg settings text).1 rfl (Stream.fault_of_error_mem _)
    (Stream.fault_of_error_mem _) _ (Parse.answer_nextAll .initial (.ofText settings text)) _
    (Parse.answer_nextAll .initial (.ofText settings (text.map g)))

theorem needsMore_map : needsMore (text.map g) = needsMore text := by
  have h := alike_map hg {} text
  generalize hr : (parse {} text).result = r at h
  generalize hr' : (parse {} (text.map g)).result = r' at h
  cases h with
  | error _ _ he => rw [needsMore_eq_of_error hr, needsMore_eq_of_error hr', he]
  | program _ =>
    -- both texts are read to their ends, so all of their warnings have arisen
    obtain ⟨_, hall⟩ := nextAll_of_parse hr
    obtain ⟨_, hall'⟩ := nextAll_of_parse hr'
    have hw := (nextAll_map hg {} text).2
    rw [hall, hall'] at hw
    rw [needsMore, needsMore, hr, hr']
    simp only [Parse.warnings]
    congr 1
    rw [Bool.eq_iff_iff, List.isEmpty_iff, List.isEmpty_iff]
    exact hw

end

end Program

namespace Session

/-- **What is remembered replays.**  A text that is read as a program is remembered on one line
without line breaks.  The entry is read as the same expressions or gives the same error, the places
aside, and it needs more if the text does.  Newlines may as well be replaced in the bytes. -/
theorem history_replays (s : Session) (text : List Char) :
    (∀ e, .history e ∈ (s.submit text).events ↔
        s.remembers = true ∧ Deed.ofText text = .program text ∧ e = historyEntry text) ∧
      '\n' ∉ (historyEntry text).toList ∧
      (∀ settings, Parse.Repeats (Program.parse settings text).result
        (Program.parse settings (historyEntry text).toList).result) ∧
      Program.needsMore (historyEntry text).toList = Program.needsMore text ∧
      ∀ bytes, Utf8.decode (bytes.map Utf8.onOneLine)
        = (historyEntry (Utf8.decode bytes)).toList := by
  simp only [toList_historyEntry]
  refine ⟨history_mem_submit s text, fun hn => ?_,
    fun settings => (Program.alike_map respaces_onOneLine settings text).repeats,
    Program.needsMore_map respaces_onOneLine text, Utf8.decode_onOneLine⟩
  obtain ⟨c, -, hc⟩ := List.mem_map.1 hn
  rw [onOneLine] at hc
  split at hc
  · cases hc
  · contradiction

end Session

end SmallMl
