import SmallMl.Proofs.Token.Tiling

/-!
# All results of a stream

`Stream.next` passes over comments and does nothing else, so a stream that is asked for token after
token gives the results of `Stream.read` without the comments and ends up in the same place
(`Stream.nextAll_eq`).

* `Stream.read_induct`, `Stream.next_induct`: what holds at the end token, and in front of a result
  if it holds behind it, holds of every stream.
* `Stream.Emits.exists_lexeme`: every token that is given was read as a lexeme.
* `Stream.Emits.nextAll_eq`, `Stream.emits_of_nextAll`: tokens that are given one by one are the
  front of the list of all results, and the other way round.
* `Stream.warnings_isPrefix`: warnings are only ever added.
-/

namespace SmallMl

namespace Lexeme

theorem exists_text_eq (c : Char) (r : List Char) :
    ∃ w, (read c r).text = c :: w ∧ w ++ (read c r).rest = r := by
  have hx := text_append_rest c r
  obtain ⟨d, w, hw⟩ := List.exists_cons_of_ne_nil (text_ne_nil c r)
  rw [hw, List.cons_append] at hx
  obtain ⟨rfl, hr⟩ := List.cons.inj hx
  exact ⟨w, hw, hr⟩

theorem isLetter_of_ident {c : Char} {r : List Char} (h : (read c r).found = .ok .ident) :
    isLetter c = true := by
  cases hc : isLetter c with
  | true => rfl
  | false =>
    rw [read, if_neg (by simp [hc])] at h
    split at h
    · rcases numeralKind_cases h with ⟨_, -, hk⟩ | ⟨_, -, hk⟩ <;> cases hk
    split at h
    · rcases operatorKind_cases h with ⟨hk, -⟩ | ⟨hk, -⟩ | ⟨_, hk, -⟩ <;> cases hk
    split at h
    · unfold paren at h
      split at h
      · cases h
      · split at h <;> cases h
    split at h
    · next k hm =>
      obtain rfl : k = .ident := Except.ok.inj h
      unfold Kind.ofMark? at hm
      split at hm <;> cases hm
    · cases h

end Lexeme

namespace Stream

theorem isBlank_of_body {s : Stream} {c : Char} {r : List Char} (h : s.body = c :: r) :
    Lexeme.isBlank c = false := by
  have hh := List.head?_dropWhile_not Lexeme.isBlank s.rest
  rw [← body, h] at hh
  exact hh

theorem more_or_eof (r : Except Diagnostic Token) :
    More r ∨ ∃ t, r = .ok t ∧ t.isEof = true := by
  cases r with
  | error d => exact .inl (more_error d)
  | ok t =>
    cases ht : t.isEof with
    | false => exact .inl (more_ok ht)
    | true => exact .inr ⟨t, rfl, ht⟩

/-- **Induction along the results of `read`.** -/
@[elab_as_elim]
theorem read_induct {motive : Stream → Prop}
    (eof : ∀ s t, s.read.1 = .ok t → t.isEof = true → motive s)
    (more : ∀ s, More s.read.1 → motive s.read.2 → motive s) (s : Stream) : motive s := by
  induction hl : s.rest.length using Nat.strong_induction_on generalizing s with
  | _ l ih =>
    subst hl
    rcases more_or_eof s.read.1 with h | ⟨t, h, ht⟩
    · exact more s h (ih _ (length_read h) _ rfl)
    · exact eof s t h ht

/-- **Induction along the results of `next`.** -/
@[elab_as_elim]
theorem next_induct {motive : Stream → Prop}
    (eof : ∀ s t, s.next.1 = .ok t → t.isEof = true → motive s)
    (more : ∀ s, More s.next.1 → motive s.next.2 → motive s) (s : Stream) : motive s := by
  induction hl : s.rest.length using Nat.strong_induction_on generalizing s with
  | _ l ih =>
    subst hl
    rcases more_or_eof s.next.1 with h | ⟨t, h, ht⟩
    · exact more s h (ih _ (length_next h) _ rfl)
    · exact eof s t h ht

/-! ### Settings and warnings -/

theorem settings_behind (s : Stream) (l : Lexeme) : (s.behind l).settings = s.settings := by
  unfold behind
  split <;> rfl

theorem settings_read (s : Stream) : s.read.2.settings = s.settings := by
  rcases s.read_cases with ⟨_, h⟩ | ⟨c, r, _, h⟩
  · rw [h]
  · rw [h]
    exact s.settings_behind _

theorem warnings_read_isPrefix (s : Stream) : s.warnings <+: s.read.2.warnings := by
  rcases s.read_cases with ⟨_, h⟩ | ⟨c, r, _, h⟩
  · exact ⟨[], by rw [h, List.append_nil]⟩
  · rw [h, behind]
    split
    · exact List.prefix_append _ _
    · exact List.prefix_rfl

theorem settings_next (s : Stream) : s.next.2.settings = s.settings := by
  fun_induction next s with
  | case1 s t ht hc ih => rw [ih, settings_read]
  | case2 s t ht hc => exact s.settings_read
  | case3 s d hd => exact s.settings_read

theorem warnings_next_isPrefix (s : Stream) : s.warnings <+: s.next.2.warnings := by
  fun_induction next s with
  | case1 s t ht hc ih => exact s.warnings_read_isPrefix.trans ih
  | case2 s t ht hc => exact s.warnings_read_isPrefix
  | case3 s d hd => exact s.warnings_read_isPrefix

/-! ### Result after result -/

theorem nextAll_of_eof {s : Stream} {t : Token} (h : s.next.1 = .ok t) (ht : t.isEof = true) :
    s.nextAll = ([.ok t], s.next.2) := by
  rw [nextAll]
  split
  · next t' h' =>
    rw [h] at h'
    cases h'
    rw [dif_pos ht]
  · next d h' =>
    rw [h] at h'
    cases h'

theorem nextAll_of_more {s : Stream} (h : More s.next.1) :
    s.nextAll = (s.next.1 :: s.next.2.nextAll.1, s.next.2.nextAll.2) := by
  rw [nextAll]
  split
  · next t ht =>
    rw [dif_neg (by simp [h t ht])]
    simp only [ht]
  · next d hd => simp only [hd]

/-- Streams with the same next result have all results in common. -/
theorem nextAll_congr {s s' : Stream} (h : s.next = s'.next) : s.nextAll = s'.nextAll := by
  rcases more_or_eof s.next.1 with hm | ⟨t, hn, ht⟩
  · have hm' : More s'.next.1 := h ▸ hm
    rw [nextAll_of_more hm, nextAll_of_more hm', h]
  · have hn' : s'.next.1 = .ok t := h ▸ hn
    rw [nextAll_of_eof hn ht, nextAll_of_eof hn' ht, h]

theorem warnings_isPrefix (s : Stream) : s.warnings <+: s.nextAll.2.warnings := by
  induction s using next_induct with
  | eof s t h ht =>
    rw [nextAll_of_eof h ht]
    exact s.warnings_next_isPrefix
  | more s h ih =>
    rw [nextAll_of_more h]
    exact s.warnings_next_isPrefix.trans ih

def isComment : Except Diagnostic Token → Bool
  | .ok t => t.isComment
  | .error _ => false

/-- **Passing over comments changes nothing else**: the results are those of `read` without the
comments, and the stream ends up in the same place. -/
theorem nextAll_eq (s : Stream) :
    s.nextAll = (s.readAll.1.filter fun r => !isComment r, s.readAll.2) := by
  induction s using read_induct with
  | eof s t h ht =>
    have hc : t.isComment = false := by
      cases hc : t.isComment with
      | false => rfl
      | true => rw [Token.isEof_of_isComment hc] at ht; cases ht
    have hn := next_of_token h hc
    rw [nextAll_of_eof (hn ▸ h) ht, readAll_of_eof h ht, hn]
    simp [isComment, hc]
  | more s h ih =>
    rw [readAll_of_more h, List.filter_cons]
    cases hr : s.read.1 with
    | error d =>
      have hn := next_of_error hr
      rw [nextAll_of_more (hn ▸ h), hn, ih, hr]
      rfl
    | ok t =>
      cases hc : t.isComment with
      | true =>
        rw [nextAll_congr (next_of_comment hr hc), ih]
        simp [isComment, hc]
      | false =>
        have hn := next_of_token hr hc
        rw [nextAll_of_more (hn ▸ h), hn, ih, hr]
        simp [isComment, hc]

/-! ### Tokens one by one -/

theorem lexeme_of_next {s : Stream} {t : Token} (h : s.next.1 = .ok t) (ht : t.isEof = false) :
    ∃ c r, Lexeme.isBlank c = false ∧ (Lexeme.read c r).found = .ok t.kind ∧
      (Lexeme.read c r).text = t.lit ∧ (Lexeme.read c r).unclosed = false ∧
      t.isComment = false := by
  fun_induction next s with
  | case1 s t' ht' hc ih => exact ih h
  | case2 s t' ht' hc =>
    cases h
    rcases s.read_cases with ⟨_, hr⟩ | ⟨c, r, hbody, hr⟩
    · rw [hr] at ht'
      cases ht'
      cases ht
    · rw [hr] at ht'
      obtain ⟨-, hl⟩ := of_result_eq_ok ht'
      rw [result] at ht'
      cases hf : (Lexeme.read c r).found with
      | error f => rw [hf] at ht'; cases ht'
      | ok k =>
        rw [hf] at ht'
        cases ht'
        refine ⟨c, r, isBlank_of_body hbody, hf, rfl, ?_, by simpa using hc⟩
        -- what is not closed is a comment
        cases hu : (Lexeme.read c r).unclosed with
        | false => rfl
        | true =>
          rw [(Lexeme.found_rest_of_unclosed hu).1] at hf
          cases hf
          exact absurd rfl hc
  | case3 s d hd => cases h

/-- Every token, a comment or not, was read from a lexeme, also behind an error. -/
theorem exists_lexeme_of_mem {s : Stream} {t : Token} (h : .ok t ∈ s.readAll.1)
    (ht : t.isEof = false) :
    ∃ c r, (Lexeme.read c r).found = .ok t.kind ∧ (Lexeme.read c r).text = t.lit := by
  induction s using read_induct with
  | eof s e he hee =>
    rw [readAll_of_eof he hee, List.mem_singleton] at h
    cases h
    exact absurd (ht.symm.trans hee) Bool.false_ne_true
  | more s hm ih =>
    rw [readAll_of_more hm] at h
    rcases List.mem_cons.1 h with h | h
    · rcases s.read_cases with ⟨_, hr⟩ | ⟨c, r, _, hr⟩
      · rw [hr] at h
        cases h
        cases ht
      · rw [hr] at h
        obtain ⟨-, hl⟩ := of_result_eq_ok h.symm
        rw [result] at h
        cases hf : (Lexeme.read c r).found with
        | error f => rw [hf] at h; cases h
        | ok k =>
          rw [hf] at h
          cases h
          exact ⟨c, r, hf, rfl⟩
    · exact ih h

theorem Emits.exists_lexeme {src src' : Stream} {ts : List Token} (h : src.Emits ts src') :
    ∀ t ∈ ts, ∃ c r, (Lexeme.read c r).found = .ok t.kind ∧ (Lexeme.read c r).text = t.lit := by
  induction h with
  | refl => simp
  | head hn ht _ ih =>
    obtain ⟨c, r, -, hf, hl, -⟩ := lexeme_of_next hn ht
    exact List.forall_mem_cons.2 ⟨⟨c, r, hf, hl⟩, ih⟩

theorem Emits.lit_of_operator {src src' : Stream} {ts : List Token} (h : src.Emits ts src') :
    ∀ t ∈ ts, ∀ o, t.kind = .operator o → t.lit = o.spelling := by
  intro t ht o ho
  obtain ⟨c, r, hf, hl⟩ := h.exists_lexeme t ht
  exact hl.symm.trans (Lexeme.text_of_operator (hf.trans (congrArg _ ho)))

theorem Emits.settings_eq {src src' : Stream} {ts : List Token} (h : src.Emits ts src') :
    src'.settings = src.settings := by
  induction h with
  | refl => rfl
  | @head src _ _ _ _ _ _ ih => exact ih.trans src.settings_next

theorem Emits.nextAll_eq {src src' : Stream} {ts : List Token} (h : src.Emits ts src') :
    src.nextAll = (ts.map .ok ++ src'.nextAll.1, src'.nextAll.2) := by
  induction h with
  | refl => rfl
  | head hn ht _ ih =>
    rw [nextAll_of_more (hn ▸ more_ok ht), ih, hn, List.map_cons, List.cons_append]

/-- If all results are tokens, they are given one by one, and the last one is the end token. -/
theorem emits_of_nextAll : ∀ {ts : List Token} {src : Stream} {e : Token},
    src.nextAll.1 = ts.map .ok ++ [.ok e] →
      ∃ src', src.Emits ts src' ∧ src'.next.1 = .ok e ∧ e.isEof = true := by
  intro ts src
  induction src using next_induct generalizing ts with
  | eof s t h ht =>
    intro e hs
    rw [nextAll_of_eof h ht] at hs
    cases ts with
    | nil =>
      cases hs
      exact ⟨s, .refl s, h, ht⟩
    | cons u ts => simp at hs
  | more s h ih =>
    intro e hs
    rw [nextAll_of_more h] at hs
    cases ts with
    | nil =>
      -- behind a result there is at least the end token
      have hl := (List.cons.inj hs).2
      rcases more_or_eof s.next.2.next.1 with hm | ⟨t, hn, ht⟩
      · rw [nextAll_of_more hm] at hl
        cases hl
      · rw [nextAll_of_eof hn ht] at hl
        cases hl
    | cons u ts =>
      obtain ⟨hu, hl⟩ := List.cons.inj hs
      obtain ⟨src', he, hn, heof⟩ := ih hl
      exact ⟨src', .head hu (h u hu) he, hn, heof⟩

/-! ### Evaluation -/

/-- All results of `next`, if there are fewer than `n`, each found by `n` calls of `read`. -/
def nextAllWithin : Nat → Stream → Option (List (Except Diagnostic Token) × Stream)
  | 0, _ => none
  | n + 1, s =>
    match s.nextWithin (n + 1) with
    | none => none
    | some (.ok t, s') =>
      if t.isEof then some ([.ok t], s')
      else (nextAllWithin n s').map fun r => (.ok t :: r.1, r.2)
    | some (.error d, s') => (nextAllWithin n s').map fun r => (.error d :: r.1, r.2)

theorem nextAll_of_within : ∀ {n : Nat} {s : Stream}
    {r : List (Except Diagnostic Token) × Stream}, nextAllWithin n s = some r → s.nextAll = r := by
  intro n
  induction n with
  | zero => intro s r h; cases h
  | succ n ih =>
    intro s r h
    rw [nextAllWithin] at h
    split at h
    · cases h
    · next t s' hn =>
      have hx := next_of_within hn
      split at h
      · next ht =>
        cases h
        rw [nextAll_of_eof (by rw [hx]) ht, hx]
      · next ht =>
        obtain ⟨q, hq, rfl⟩ := Option.map_eq_some_iff.1 h
        rw [nextAll_of_more (by rw [hx]; exact more_ok (by simpa using ht)), hx, ih hq]
    · next d s' hn =>
      have hx := next_of_within hn
      obtain ⟨q, hq, rfl⟩ := Option.map_eq_some_iff.1 h
      rw [nextAll_of_more (by rw [hx]; exact more_error d), hx, ih hq]

end Stream

end SmallMl
