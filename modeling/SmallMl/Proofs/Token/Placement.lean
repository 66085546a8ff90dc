import SmallMl.Proofs.Grammar.Run
import SmallMl.Proofs.Token.Closing

/-!
# Where tokens stand

A stream in front of a text knows its place in the text: the location it carries is the location
behind the characters that it has read (`Stream.At`).  So every token it gives stands where its
range says, covers at least one character, and stands behind the tokens before it.

* `Stream.Emits.placed`: the tokens of a text are placed in it, one behind the other.
* `Stream.tokens_eq`: the tokens that a run takes are the tokens of the text without the comments.
* `Lexeme.text_of_operator`: an operator token is spelled as its operator.
-/

namespace SmallMl

namespace Location

theorem offset_after (l : Location) (cs : List Char) :
    (l.after cs).offset = l.offset + cs.length := by
  induction cs generalizing l with
  | nil => simp
  | cons c cs ih =>
    have hn : (l.next c).offset = l.offset + 1 := by
      unfold next
      split <;> rfl
    rw [after_cons, ih, hn, List.length_cons]
    push_cast
    omega

/-- The location is a place of the text: its line and column are those of its offset. -/
def AgreesWith (text : List Char) (l : Location) : Prop :=
  l = start.after (text.take l.offset.toNat)

theorem agreesWith_after (pre post : List Char) : (start.after pre).AgreesWith (pre ++ post) := by
  have ho : (start.after pre).offset.toNat = pre.length := by
    rw [offset_after]
    simp [start]
  rw [AgreesWith, ho, List.take_left]

end Location

/-! ### Tokens in a text -/

namespace Token

structure Placed (text : List Char) (t : Token) : Prop where
  start : t.range.start.AgreesWith text
  stop : t.range.stop.AgreesWith text
  nonempty : t.range.start.offset < t.range.stop.offset

/-- The tokens stand one behind the other, and none is empty. -/
structure Ordered (ts : List Token) : Prop where
  nonempty : ∀ t ∈ ts, t.range.start.offset < t.range.stop.offset
  sorted : ts.Pairwise fun t u => t.range.stop.offset ≤ u.range.start.offset

theorem Ordered.sublist {ts us : List Token} (h : Ordered ts) (hs : us.Sublist ts) : Ordered us :=
  ⟨fun t ht => h.nonempty t (hs.subset ht), h.sorted.sublist hs⟩

/-- **A place in the text tells how many tokens stand in front of it.** -/
theorem Ordered.front_eq {as bs cs ds : List Token} {t u : Token} (ho : Ordered (as ++ t :: bs))
    (h : as ++ t :: bs = cs ++ u :: ds) (hs : t.range.start = u.range.start) : as = cs := by
  -- a token is not empty, so the ones behind it do not start where it does
  have later : ∀ {v w : Token} {vs : List Token}, Ordered (v :: vs) → w ∈ vs →
      v.range.start ≠ w.range.start := by
    intro v w vs hv hw he
    have hn := hv.nonempty v (by simp)
    have hb := (List.pairwise_cons.1 hv.sorted).1 w hw
    rw [he] at hn
    omega
  induction as generalizing cs with
  | nil =>
    cases cs with
    | nil => rfl
    | cons c cs =>
      obtain ⟨rfl, rfl⟩ := List.cons.inj h
      exact absurd hs (later ho (by simp))
  | cons a as ih =>
    cases cs with
    | nil =>
      obtain ⟨rfl, hd⟩ := List.cons.inj h
      exact absurd hs.symm (later ho (by simp))
    | cons c cs =>
      obtain ⟨rfl, ht⟩ := List.cons.inj h
      rw [ih (ho.sublist (List.sublist_cons_self _ _)) ht]

end Token

namespace Stream

/-- The stream has read the front of the text and is at the place behind it. -/
def At (text : List Char) (s : Stream) : Prop :=
  ∃ pre, text = pre ++ s.rest ∧ s.loc = Location.start.after pre

theorem at_ofText (settings : Settings) (text : List Char) : (ofText settings text).At text :=
  ⟨[], rfl, rfl⟩

theorem loc_behind (s : Stream) (l : Lexeme) : (s.behind l).loc = s.here.after l.text := by
  unfold behind
  split <;> rfl

theorem offset_here (s : Stream) : s.loc.offset ≤ s.here.offset := by
  rw [here, Location.offset_after]
  omega

section

variable {text : List Char} {s : Stream}

theorem At.here (h : s.At text) :
    ∃ pre, text = pre ++ s.body ∧ s.here = Location.start.after pre := by
  obtain ⟨pre, ht, hl⟩ := h
  refine ⟨pre ++ s.rest.takeWhile Lexeme.isBlank, ?_, ?_⟩
  · rw [ht, List.append_assoc, body, List.takeWhile_append_dropWhile]
  · rw [Stream.here, hl, Location.after_append]

/-- **The next token is placed behind what has been read.** -/
theorem At.read (h : s.At text) {t : Token} (hr : s.read.1 = .ok t) (ht : t.isEof = false) :
    t.Placed text ∧ s.read.2.At text ∧ s.loc.offset ≤ t.range.start.offset ∧
      t.range.stop = s.read.2.loc := by
  obtain ⟨pre, hp, hl⟩ := h.here
  have hh := s.offset_here
  unfold Stream.read at hr ⊢
  split at hr
  · cases hr
    cases ht
  · next c r hb =>
    dsimp only at hr
    rw [result] at hr
    split at hr
    · cases hr
      have hx := Lexeme.text_append_rest c r
      have hn := List.length_pos_iff.2 (Lexeme.text_ne_nil c r)
      rw [hb, ← hx] at hp
      have ha : s.here.after (Lexeme.read c r).text
          = Location.start.after (pre ++ (Lexeme.read c r).text) := by
        rw [hl, Location.after_append]
      refine ⟨⟨?_, ?_, ?_⟩, ⟨pre ++ (Lexeme.read c r).text, ?_, ?_⟩, hh, ?_⟩
      · rw [hp, hl]
        exact Location.agreesWith_after _ _
      · rw [hp, ha, ← List.append_assoc]
        exact Location.agreesWith_after _ _
      · show s.here.offset < (s.here.after (Lexeme.read c r).text).offset
        rw [Location.offset_after]
        omega
      · simp only [rest_behind]
        rw [hp, List.append_assoc]
      · simp only [loc_behind]
        exact ha
      · simp only [loc_behind]
    · cases hr

theorem At.next (h : s.At text) {t : Token} (hr : s.next.1 = .ok t) (ht : t.isEof = false) :
    t.Placed text ∧ s.next.2.At text ∧ s.loc.offset ≤ t.range.start.offset ∧
      t.range.stop = s.next.2.loc := by
  fun_induction Stream.next s with
  | case1 s c hc hcc ih =>
    -- a comment is passed over
    obtain ⟨hp, ha, hl, he⟩ := h.read hc (Token.isEof_of_isComment hcc)
    obtain ⟨hp', ha', hl', he'⟩ := ih ha hr
    have hn := hp.nonempty
    rw [he] at hn
    exact ⟨hp', ha', by omega, he'⟩
  | case2 s c hc hcc =>
    cases hr
    exact h.read hc ht
  | case3 s d hd => cases hr

theorem At.next_eof (h : s.At text) {t : Token} (hr : s.next.1 = .ok t) (ht : t.isEof = true) :
    t.range.start.AgreesWith text ∧ t.range.stop.AgreesWith text := by
  fun_induction Stream.next s with
  | case1 s c hc hcc ih => exact ih (h.read hc (Token.isEof_of_isComment hcc)).2.1 hr
  | case2 s c hc hcc =>
    cases hr
    obtain ⟨pre, hp, hl⟩ := h.here
    have hb := body_eq_nil_of_eof hc ht
    rcases s.read_cases with ⟨_, he⟩ | ⟨c', r, hc', _⟩
    · rw [he] at hc
      cases hc
      have ha : s.here.AgreesWith text := by
        rw [hp, hl]
        exact Location.agreesWith_after _ _
      exact ⟨ha, ha⟩
    · rw [hb] at hc'
      cases hc'
  | case3 s d hd => cases hr

/-- **The tokens of a text are placed in it, one behind the other.** -/
theorem Emits.placed {src src' : Stream} {ts : List Token} (h : src.Emits ts src') :
    src.At text → src'.At text ∧ (∀ t ∈ ts, t.Placed text) ∧ Token.Ordered ts ∧
      ∀ t ∈ ts, src.loc.offset ≤ t.range.start.offset := by
  induction h with
  | refl src =>
    intro ha
    exact ⟨ha, by simp, ⟨by simp, by simp⟩, by simp⟩
  | @head src src' t ts hn he _ ih =>
    intro ha
    obtain ⟨hp, ha₁, hl, hs⟩ := ha.next hn he
    obtain ⟨ha', hp', ho, hb⟩ := ih ha₁
    have hne := hp.nonempty
    refine ⟨ha', ?_, ⟨?_, ?_⟩, ?_⟩
    · intro u hu
      rcases List.mem_cons.1 hu with rfl | hu
      · exact hp
      · exact hp' u hu
    · intro u hu
      rcases List.mem_cons.1 hu with rfl | hu
      · exact hne
      · exact ho.nonempty u hu
    · refine List.pairwise_cons.2 ⟨?_, ho.sorted⟩
      intro u hu
      have := hb u hu
      rw [hs]
      exact this
    · intro u hu
      rcases List.mem_cons.1 hu with rfl | hu
      · exact hl
      · have := hb u hu
        rw [← hs] at this
        omega

end

/-! ### The tokens of a text -/

/-- The token that a result is, unless it is a comment or the end. -/
def token? : Except Diagnostic Token → Option Token
  | .ok t => if t.isComment || t.isEof then none else some t
  | .error _ => none

def tokens (s : Stream) : List Token := s.readAll.1.filterMap token?

theorem tokens_of_eof {s : Stream} {t : Token} (h : s.read.1 = .ok t) (ht : t.isEof = true) :
    s.tokens = [] := by
  rw [tokens, readAll]
  split
  · next t' h' =>
    rw [h] at h'
    cases h'
    rw [dif_pos ht]
    simp [token?, ht]
  · next d h' =>
    rw [h] at h'
    cases h'

theorem tokens_of_token {s : Stream} {t : Token} (h : s.read.1 = .ok t) (ht : t.isEof = false) :
    s.tokens = (token? (.ok t)).toList ++ s.read.2.tokens := by
  rw [tokens, readAll]
  split
  · next t' h' =>
    rw [h] at h'
    cases h'
    rw [dif_neg (by simp [ht])]
    dsimp only
    rw [List.filterMap_cons]
    cases token? (.ok t) <;> rfl
  · next d h' =>
    rw [h] at h'
    cases h'

theorem tokens_of_comment {s : Stream} {t : Token} (h : s.read.1 = .ok t)
    (hc : t.isComment = true) : s.tokens = s.read.2.tokens := by
  rw [tokens_of_token h (Token.isEof_of_isComment hc)]
  simp [token?, hc]

theorem tokens_of_next {s : Stream} {t : Token} (h : s.next.1 = .ok t) (ht : t.isEof = false) :
    s.tokens = t :: s.next.2.tokens := by
  fun_induction next s with
  | case1 s c hc hcc ih => rw [tokens_of_comment hc hcc, ih h]
  | case2 s c hc hcc =>
    cases h
    rw [tokens_of_token hc ht]
    simp [token?, hcc, ht]
  | case3 s d hd => cases h

theorem tokens_of_next_eof {s : Stream} {t : Token} (h : s.next.1 = .ok t) (ht : t.isEof = true) :
    s.tokens = [] := by
  fun_induction next s with
  | case1 s c hc hcc ih => rw [tokens_of_comment hc hcc, ih h]
  | case2 s c hc hcc =>
    cases h
    exact tokens_of_eof hc ht
  | case3 s d hd => cases h

theorem tokens_eq {src src' : Stream} {ts : List Token} {e : Token} (h : src.Emits ts src')
    (hn : src'.next.1 = .ok e) (he : e.isEof = true) : src.tokens = ts := by
  induction h with
  | refl src => exact tokens_of_next_eof hn he
  | head ht hte _ ih => rw [tokens_of_next ht hte, ih hn]

end Stream

/-! ### Spellings -/

namespace Lexeme

theorem spelling_of_ofWord {w : List Char} {o : Operator} (h : Kind.ofWord w = .operator o) :
    w = o.spelling := by
  have hres : ∀ p ∈ Kind.reserved, ∀ o ∈ p.2.operator?, p.1 = o.spelling := by decide
  exact Kind.ofWord_of_reserved (P := fun w k => ∀ o ∈ k.operator?, w = o.spelling) hres
    (fun _ => nofun) w o (by rw [h]; rfl)

/-- **An operator token is spelled as its operator.** -/
theorem text_of_operator {c : Char} {r : List Char} {o : Operator}
    (h : (read c r).found = .ok (.operator o)) : (read c r).text = o.spelling := by
  rcases found_cases h with hw | ⟨n, hn⟩ | ho | ⟨hp, _⟩ | hc | ⟨hm, _⟩
  · exact spelling_of_ofWord hw.symm
  · rcases numeralKind_cases hn with ⟨_, -, hk⟩ | ⟨_, -, hk⟩ <;> cases hk
  · rcases operatorKind_cases ho with ⟨hk, -⟩ | ⟨hk, -⟩ | ⟨_, hk, hr⟩ <;> cases hk
    exact hr
  · cases hp
  · cases hc
  · unfold Kind.ofMark? at hm
    split at hm <;> cases hm

end Lexeme

end SmallMl
