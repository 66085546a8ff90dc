import SmallMl.Proofs.Token.Cutting
import SmallMl.Proofs.Token.Listing

/-!
# Comments overwritten with blanks

`withoutComments` puts a space in the place of every character of a comment and leaves the line
breaks alone, so what is behind a comment stays where it is.  No result of the stream but the
comments changes, and with them go the warnings (`Stream.nextAll_withoutComments`).

A lexeme in front of a comment is not changed, since the first character that differs is a blank and
a blank ends every lexeme (`Lexeme.read_recut`).  The blanks in the place of a comment are passed
over, as the comment was.
-/

namespace SmallMl

/-! ### Overwriting a text -/

def Range.covers (r : Range) (n : Int) : Bool := r.start.offset ≤ n && n < r.stop.offset

/-- A space in the place of a character; a line break stays. -/
def blankOf (c : Char) : Char := if c = '\n' then c else ' '

theorem isBlank_blankOf (c : Char) : Lexeme.isBlank (blankOf c) = true := by
  unfold blankOf
  split
  · next h => rw [h]; rfl
  · rfl

theorem Location.after_map_blankOf (l : Location) (cs : List Char) :
    l.after (cs.map blankOf) = l.after cs := by
  induction cs generalizing l with
  | nil => rfl
  | cons c cs ih =>
    have hn : l.next (blankOf c) = l.next c := by
      unfold blankOf
      split
      · rfl
      · next h => simp [Location.next, h]
    rw [List.map_cons, Location.after_cons, Location.after_cons, hn, ih]

/-- The text `cs` that has `n` characters before it, with blanks where one of the ranges is. -/
def overwrite (rs : List Range) : Int → List Char → List Char
  | _, [] => []
  | n, c :: cs => (if rs.any (·.covers n) then blankOf c else c) :: overwrite rs (n + 1) cs

theorem overwrite_append (rs : List Range) (ds : List Char) : ∀ (cs : List Char) (n : Int),
    overwrite rs n (cs ++ ds) = overwrite rs n cs ++ overwrite rs (n + cs.length) ds := by
  intro cs
  induction cs with
  | nil => intro n; simp [overwrite]
  | cons c cs ih =>
    intro n
    rw [List.cons_append, overwrite, overwrite, ih, List.cons_append, List.length_cons]
    congr 3
    push_cast
    omega

theorem overwrite_of_before {rs : List Range} : ∀ {cs : List Char} {n : Int},
    (∀ r ∈ rs, n + cs.length ≤ r.start.offset) → overwrite rs n cs = cs := by
  intro cs
  induction cs with
  | nil => intro n _; rfl
  | cons c cs ih =>
    intro n h
    have hc : rs.any (·.covers n) = false := by
      rw [List.any_eq_false]
      intro r hr
      have := h r hr
      simp only [List.length_cons] at this
      push_cast at this
      simp only [Range.covers, Bool.and_eq_true, decide_eq_true_eq]
      omega
    rw [overwrite, hc, ih]
    · rfl
    · intro r hr
      have := h r hr
      simp only [List.length_cons] at this
      push_cast at this
      omega

theorem overwrite_cons_of_behind {r : Range} (rs : List Range) : ∀ (cs : List Char) {n : Int},
    r.stop.offset ≤ n → overwrite (r :: rs) n cs = overwrite rs n cs := by
  intro cs
  induction cs with
  | nil => intro n _; rfl
  | cons c cs ih =>
    intro n h
    have hc : r.covers n = false := by
      simp only [Range.covers, Bool.and_eq_false_iff, decide_eq_false_iff_not]
      omega
    rw [overwrite, overwrite, List.any_cons, hc, Bool.false_or, ih (by omega)]

theorem overwrite_cons_of_around {r : Range} (rs : List Range) : ∀ (cs : List Char) {n : Int},
    r.start.offset ≤ n → n + cs.length ≤ r.stop.offset →
      overwrite (r :: rs) n cs = cs.map blankOf := by
  intro cs
  induction cs with
  | nil => intro n _ _; rfl
  | cons c cs ih =>
    intro n h h'
    rw [List.length_cons] at h'
    push_cast at h'
    have hc : r.covers n = true := by
      simp only [Range.covers, Bool.and_eq_true, decide_eq_true_eq]
      omega
    rw [overwrite, List.any_cons, hc, Bool.true_or, if_pos rfl, ih (by omega) (by omega),
      List.map_cons]

/-- The first character that is changed, if there is one, becomes a space. -/
theorem overwrite_eq_or_split (rs : List Range) : ∀ (cs : List Char) (n : Int),
    overwrite rs n cs = cs ∨
      ∃ p c q q', cs = p ++ c :: q ∧ overwrite rs n cs = p ++ ' ' :: q' := by
  intro cs
  induction cs with
  | nil => exact fun _ => .inl rfl
  | cons c cs ih =>
    intro n
    rw [overwrite]
    by_cases hc : (if rs.any (·.covers n) then blankOf c else c) = c
    · rw [hc]
      rcases ih (n + 1) with h | ⟨p, d, q, q', h, h'⟩
      · exact .inl (by rw [h])
      · exact .inr ⟨c :: p, d, q, q', by rw [h, List.cons_append], by rw [h', List.cons_append]⟩
    · refine .inr ⟨[], c, cs, overwrite rs (n + 1) cs, rfl, ?_⟩
      have hb : (if rs.any (·.covers n) then blankOf c else c) = ' ' := by
        split at hc
        · next hr =>
          rw [if_pos hr]
          unfold blankOf at hc ⊢
          split at hc
          · exact absurd rfl hc
          · next hn => rw [if_neg hn]
        · exact absurd rfl hc
      rw [hb, List.nil_append]

/-! ### The comments of a text -/

namespace Stream

def commentRange? : Except Diagnostic Token → Option Range
  | .ok t => if t.isComment then some t.range else none
  | .error _ => none

def commentRanges (s : Stream) : List Range := s.readAll.1.filterMap commentRange?

/-- The text that is left to read, with its comments overwritten. -/
def overwritten (s : Stream) : List Char := overwrite s.commentRanges s.loc.offset s.rest

/-- The stream over the text with its comments overwritten, with the given warnings. -/
def blanked (s : Stream) (ws hs : List Diagnostic) : Stream :=
  { s with rest := s.overwritten, warnings := ws, heard := hs }

end Stream

/-- **The text with a space in the place of every character of a comment.**  Line breaks stay. -/
def withoutComments (text : List Char) : List Char :=
  overwrite (Stream.ofText {} text).commentRanges 0 text

namespace Stream

theorem commentRanges_of_eof {s : Stream} {t : Token} (h : s.read.1 = .ok t)
    (ht : t.isEof = true) : s.commentRanges = [] := by
  have hc : t.isComment = false := by
    cases hc : t.isComment with
    | false => rfl
    | true => rw [Token.isEof_of_isComment hc] at ht; cases ht
  rw [commentRanges, readAll_of_eof h ht]
  simp [commentRange?, hc]

theorem commentRanges_of_more {s : Stream} (h : More s.read.1) :
    s.commentRanges = (commentRange? s.read.1).toList ++ s.read.2.commentRanges := by
  rw [commentRanges, readAll_of_more h, List.filterMap_cons]
  cases commentRange? s.read.1 <;> rfl

theorem more_read_of_body {s : Stream} {c : Char} {r : List Char} (h : s.body = c :: r) :
    More s.read.1 := by
  rcases more_or_eof s.read.1 with hm | ⟨t, hr, ht⟩
  · exact hm
  · rw [body_eq_nil_of_eof hr ht] at h
    cases h

/-- The ranges of the comments depend on the text and its place only. -/
theorem commentRanges_congr : ∀ {s s' : Stream}, s.rest = s'.rest → s.loc = s'.loc →
    s.commentRanges = s'.commentRanges := by
  intro s
  induction s using read_induct with
  | eof s t h ht =>
    intro s' hr hl
    have hb := body_eq_nil_of_eof h ht
    have hb' : s'.body = [] := by rw [body, ← hr]; exact hb
    have h' : s'.read.1 = .ok (endToken s'.here) := by rw [Stream.read, hb']
    rw [commentRanges_of_eof h ht, commentRanges_of_eof h' rfl]
  | more s h ih =>
    intro s' hr hl
    rcases s.read_cases with ⟨_, he⟩ | ⟨c, r, hb, he⟩
    · rw [he] at h
      exact absurd (h _ rfl) (by simp [endToken, Token.isEof, Kind.isEof])
    · have hb' : s'.body = c :: r := by rw [body, ← hr]; exact hb
      have hh : s.here = s'.here := by rw [here, here, hr, hl]
      have he' : s'.read = (s'.result (Lexeme.read c r), s'.behind (Lexeme.read c r)) := by
        rw [Stream.read, hb']
      rw [commentRanges_of_more h, commentRanges_of_more (more_read_of_body hb'),
        @ih s'.read.2]
      · rw [he, he']
        simp only [result, hh]
        cases (Lexeme.read c r).found <;> rfl
      · rw [he, he', rest_behind, rest_behind]
      · rw [he, he', loc_behind, loc_behind, hh]

theorem commentRange?_result (s : Stream) (l : Lexeme) :
    (l.found = .ok .comment ∧ commentRange? (s.result l) = some ⟨s.here, s.here.after l.text⟩) ∨
      (l.found ≠ .ok .comment ∧ commentRange? (s.result l) = none) := by
  unfold result
  cases l.found with
  | error f => exact .inr ⟨by simp, rfl⟩
  | ok k => cases k <;> first | exact .inl ⟨rfl, rfl⟩ | exact .inr ⟨by simp, rfl⟩

/-! ### What is left to read, lexeme by lexeme -/

section

variable {s : Stream} {c : Char} {r : List Char}

theorem read_of_body (hb : s.body = c :: r) :
    s.read = (s.result (Lexeme.read c r), s.behind (Lexeme.read c r)) := by
  rw [Stream.read, hb]

theorem rest_of_body (hb : s.body = c :: r) :
    s.rest = s.rest.takeWhile Lexeme.isBlank ++
      ((Lexeme.read c r).text ++ (s.behind (Lexeme.read c r)).rest) := by
  rw [rest_behind, Lexeme.text_append_rest, ← hb, body, List.takeWhile_append_dropWhile]

theorem offset_here_eq (s : Stream) :
    s.here.offset = s.loc.offset + (s.rest.takeWhile Lexeme.isBlank).length := by
  rw [here, Location.offset_after]

theorem offset_behind (s : Stream) (l : Lexeme) :
    (s.behind l).loc.offset = s.here.offset + l.text.length := by
  rw [loc_behind, Location.offset_after]

/-- The comments of a stream stand in what is left to read. -/
theorem start_of_mem_commentRanges (s : Stream) :
    ∀ q ∈ s.commentRanges, s.here.offset ≤ q.start.offset := by
  induction s using read_induct with
  | eof s t h ht =>
    intro q hq
    rw [commentRanges_of_eof h ht] at hq
    cases hq
  | more s h ih =>
    intro q hq
    rcases s.read_cases with ⟨_, he⟩ | ⟨c, r, _, he⟩
    · rw [he] at h
      exact Bool.noConfusion (h _ rfl)
    · rw [commentRanges_of_more h, he] at hq
      rcases List.mem_append.1 hq with hq | hq
      · rcases s.commentRange?_result (Lexeme.read c r) with ⟨_, hc⟩ | ⟨_, hc⟩
        · rw [hc, Option.toList_some, List.mem_singleton] at hq
          exact Int.le_of_eq (by rw [hq])
        · rw [hc] at hq
          cases hq
      · rw [he] at ih
        have hl : (s.behind (Lexeme.read c r)).here.offset ≤ q.start.offset := ih q hq
        have ho := offset_here (s.behind (Lexeme.read c r))
        rw [offset_behind] at ho
        omega

/-- The text is overwritten piece by piece: the blanks, the lexeme and what is behind it. -/
theorem overwritten_of_body (hb : s.body = c :: r) :
    s.overwritten = s.rest.takeWhile Lexeme.isBlank ++
      (overwrite s.commentRanges s.here.offset (Lexeme.read c r).text ++
        overwrite s.commentRanges (s.behind (Lexeme.read c r)).loc.offset
          (s.behind (Lexeme.read c r)).rest) := by
  have hgap : overwrite s.commentRanges s.loc.offset (s.rest.takeWhile Lexeme.isBlank)
      = s.rest.takeWhile Lexeme.isBlank := by
    apply overwrite_of_before
    rw [← offset_here_eq]
    exact s.start_of_mem_commentRanges
  conv_lhs => rw [overwritten, rest_of_body hb]
  rw [overwrite_append, overwrite_append, hgap, ← offset_here_eq, ← offset_behind]

theorem overwritten_of_comment (hb : s.body = c :: r)
    (hf : (Lexeme.read c r).found = .ok .comment) :
    s.overwritten = s.rest.takeWhile Lexeme.isBlank ++
      ((Lexeme.read c r).text.map blankOf ++ (s.behind (Lexeme.read c r)).overwritten) := by
  have hr : s.commentRanges = ⟨s.here, s.here.after (Lexeme.read c r).text⟩ ::
      (s.behind (Lexeme.read c r)).commentRanges := by
    rw [commentRanges_of_more (more_read_of_body hb), read_of_body hb]
    rcases s.commentRange?_result (Lexeme.read c r) with ⟨_, hc⟩ | ⟨hn, _⟩
    · rw [hc]
      rfl
    · exact absurd hf hn
  have hstop := offset_behind s (Lexeme.read c r)
  rw [loc_behind] at hstop
  rw [overwritten_of_body hb, hr, overwrite_cons_of_around _ _ (Int.le_refl _)
    (Int.le_of_eq hstop.symm),
    overwrite_cons_of_behind _ _ (Int.le_of_eq (by rw [loc_behind]))]
  rfl

theorem overwritten_of_lexeme (hb : s.body = c :: r)
    (hf : (Lexeme.read c r).found ≠ .ok .comment) :
    s.overwritten = s.rest.takeWhile Lexeme.isBlank ++
      ((Lexeme.read c r).text ++ (s.behind (Lexeme.read c r)).overwritten) := by
  have hr : s.commentRanges = (s.behind (Lexeme.read c r)).commentRanges := by
    rw [commentRanges_of_more (more_read_of_body hb), read_of_body hb]
    rcases s.commentRange?_result (Lexeme.read c r) with ⟨h, _⟩ | ⟨_, hc⟩
    · exact absurd h hf
    · rw [hc]
      rfl
  rw [overwritten_of_body hb, hr, overwrite_of_before]
  · rfl
  · intro q hq
    rw [← offset_behind]
    exact Int.le_trans (offset_here _) (start_of_mem_commentRanges _ q hq)

end

end Stream

/-! ### Results do not change -/

theorem Lexeme.read_overwrite {c : Char} {r w : List Char} (rs : List Range) (n : Int)
    (hr : w ++ (read c r).rest = r) (hu : (read c r).unclosed = false) :
    read c (w ++ overwrite rs n (read c r).rest)
      = { read c r with rest := overwrite rs n (read c r).rest } := by
  rcases overwrite_eq_or_split rs (read c r).rest n with h | ⟨p, d, q, q', h, h'⟩
  · rw [h, hr]
  · -- up to the space the text is the same
    have hs : isStop ' ' = true := rfl
    have hp : (w ++ p) ++ d :: q = r := by rw [List.append_assoc, ← h, hr]
    have hcut := read_recut (m := d :: q) (x := p) (c := c) (r := w ++ p) hs
      (by rw [hp, h]) (by rw [hp]; exact hu) q'
    rw [hp, List.append_assoc] at hcut
    rw [h', hcut]

namespace Stream

variable {s : Stream}

theorem next_blanked_of_comment {t : Token} (h : s.read.1 = .ok t) (hc : t.isComment = true)
    (ws hs : List Diagnostic) : (s.blanked ws hs).next = (s.read.2.blanked ws hs).next := by
  rcases s.read_cases with ⟨_, he⟩ | ⟨c, r, hb, he⟩
  · rw [he] at h
    cases h
    cases hc
  · have hf : (Lexeme.read c r).found = .ok .comment := by
      rw [he] at h
      rcases s.commentRange?_result (Lexeme.read c r) with ⟨hf, _⟩ | ⟨_, hn⟩
      · exact hf
      · rw [show s.result (Lexeme.read c r) = .ok t from h, commentRange?, if_pos hc] at hn
        cases hn
    -- the blanks in front of the comment and those in its place
    have hbs : ∀ b ∈ s.rest.takeWhile Lexeme.isBlank ++ (Lexeme.read c r).text.map blankOf,
        Lexeme.isBlank b = true := by
      intro b hb
      rcases List.mem_append.1 hb with hb | hb
      · exact List.mem_takeWhile_imp hb
      · obtain ⟨a, _, rfl⟩ := List.mem_map.1 hb
        exact isBlank_blankOf a
    have hn := next_blanks hbs s.settings (s.behind (Lexeme.read c r)).overwritten s.loc ws hs
    rw [List.append_assoc, ← overwritten_of_comment hb hf] at hn
    rw [blanked, hn, he, blanked, settings_behind, loc_behind, here, Location.after_append,
      Location.after_map_blankOf]

/-- In front of a lexeme that stays the blanks stay, too. -/
theorem blanked_of_lexeme {c : Char} {r w : List Char} (hb : s.body = c :: r)
    (hf : (Lexeme.read c r).found ≠ .ok .comment) (hw : (Lexeme.read c r).text = c :: w)
    (ws hs : List Diagnostic) :
    (s.blanked ws hs).body = c :: (w ++ (s.behind (Lexeme.read c r)).overwritten) ∧
      (s.blanked ws hs).here = s.here := by
  have hc := isBlank_of_body hb
  have hgap : ∀ b ∈ s.rest.takeWhile Lexeme.isBlank, Lexeme.isBlank b = true :=
    fun b hb => List.mem_takeWhile_imp hb
  have hov := overwritten_of_lexeme hb hf
  rw [hw, List.cons_append] at hov
  constructor
  · rw [body, blanked, hov, List.dropWhile_append_of_pos hgap,
      List.dropWhile_cons_of_neg (by simp [hc])]
  · rw [here, blanked, hov, List.takeWhile_append_of_pos hgap,
      List.takeWhile_cons_of_neg (by simp [hc]), List.append_nil]
    rfl

/-- A result that is no comment. -/
theorem read_blanked (h : isComment s.read.1 = false) (ws hs : List Diagnostic) :
    (s.blanked ws hs).read = (s.read.1, s.read.2.blanked ws hs) := by
  rcases s.read_cases with ⟨hb, he⟩ | ⟨c, r, hb, he⟩
  · have hr : s.commentRanges = [] := commentRanges_of_eof (t := endToken s.here) (by rw [he]) rfl
    have hov : s.overwritten = s.rest := by
      rw [overwritten, hr]
      exact overwrite_of_before (by simp)
    have hbody : (s.blanked ws hs).body = [] := by
      rw [blanked, hov]
      exact hb
    have hhere : (s.blanked ws hs).here = s.here := by
      rw [blanked, hov]
      rfl
    rw [read, hbody, he, hhere]
    rfl
  · have hf : (Lexeme.read c r).found ≠ .ok .comment := by
      intro hf
      rw [he, result, hf] at h
      cases h
    have hu : (Lexeme.read c r).unclosed = false := by
      cases hu : (Lexeme.read c r).unclosed with
      | false => rfl
      | true => exact absurd (Lexeme.found_rest_of_unclosed hu).1 hf
    obtain ⟨w, hw, hr⟩ := Lexeme.exists_text_eq c r
    obtain ⟨hbody, hhere⟩ := blanked_of_lexeme hb hf hw ws hs
    have hlex : Lexeme.read c (w ++ (s.behind (Lexeme.read c r)).overwritten)
        = { Lexeme.read c r with rest := (s.behind (Lexeme.read c r)).overwritten } := by
      rw [overwritten, rest_behind]
      exact Lexeme.read_overwrite _ _ hr hu
    have hbehind : ∀ l : Lexeme, l.unclosed = false → (s.blanked ws hs).behind l =
        ⟨s.settings, l.rest, s.here.after l.text, ws, hs⟩ := by
      intro l hl
      rw [behind_of_closed hl, hhere]
      rfl
    rw [read_of_body hbody, hlex, he, hbehind _ (by exact hu)]
    simp only [result, hhere]
    simp only [blanked, settings_behind, loc_behind]

/-- **The next result stays**, and so does what is left, with its comments overwritten. -/
theorem next_blanked (s : Stream) (ws hs : List Diagnostic) :
    (s.blanked ws hs).next = (s.next.1, s.next.2.blanked ws hs) := by
  fun_induction next s with
  | case1 s t ht hc ih => rw [next_blanked_of_comment ht hc, ih]
  | case2 s t ht hc =>
    have hr := read_blanked (s := s) (by rw [ht]; exact Bool.eq_false_iff.2 hc) ws hs
    rw [next_of_token (t := t) (by rw [hr, ht]) (Bool.eq_false_iff.2 hc), hr, ht]
  | case3 s d hd =>
    have hr := read_blanked (s := s) (by rw [hd]; rfl) ws hs
    rw [next_of_error (d := d) (by rw [hr, hd]), hr, hd]

theorem nextAll_blanked (s : Stream) (ws hs : List Diagnostic) :
    (s.blanked ws hs).nextAll = (s.nextAll.1, s.nextAll.2.blanked ws hs) := by
  induction s using next_induct with
  | eof s t h ht =>
    have hn := s.next_blanked ws hs
    rw [nextAll_of_eof h ht, nextAll_of_eof (t := t) (by rw [hn, h]) ht, hn]
  | more s h ih =>
    have hn := s.next_blanked ws hs
    have hm : More (s.blanked ws hs).next.1 := by
      rw [hn]
      exact h
    rw [nextAll_of_more h, nextAll_of_more hm, hn, ih]

theorem ofText_withoutComments (settings : Settings) (text : List Char) :
    ofText settings (withoutComments text) = (ofText settings text).blanked [] [] := by
  have hr : (ofText {} text).commentRanges = (ofText settings text).commentRanges :=
    commentRanges_congr rfl rfl
  rw [blanked, overwritten, ← hr]
  rfl

/-- **Overwriting the comments changes no other result**, and it takes all warnings away. -/
theorem nextAll_withoutComments (settings : Settings) (text : List Char) :
    (ofText settings (withoutComments text)).nextAll.1 = (ofText settings text).nextAll.1 ∧
      (ofText settings (withoutComments text)).nextAll.2.warnings = [] := by
  rw [ofText_withoutComments, nextAll_blanked]
  exact ⟨rfl, rfl⟩

end Stream

end SmallMl
