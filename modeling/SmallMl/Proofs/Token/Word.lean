import Mathlib.Data.List.Forall2
import SmallMl.Proofs.Grammar.Run
import SmallMl.Proofs.Source.Decoding
import SmallMl.Proofs.Token.Seam

/-!
# Words

A `Word` is a text that is one token when it stands on its own.  A blank ends every token, so the
same text is the same token wherever it stands between blanks: a line of words gives exactly the
tokens of its words, in order (`Stream.emits_line`).

Words are ASCII, so that a line of words is its own byte string (`Utf8.decode_bytes`).
-/

namespace SmallMl

/-- A text that is one token on its own. -/
structure Word where
  first : Char
  others : List Char
  kind : Kind
  isBlank_first : Lexeme.isBlank first = false
  read_eq : Lexeme.read first others = ⟨first :: others, [], .ok kind, false⟩
  isComment_kind : kind.isComment = false
  isEof_kind : kind.isEof = false
  ascii : (first :: others).all (fun c => c.toNat < 128) = true

namespace Word

def text (w : Word) : List Char := w.first :: w.others

/-- The token `t` is written as the word `w`. -/
def Spells (t : Token) (w : Word) : Prop := t.kind = w.kind ∧ t.lit = w.text

def line : List Word → List Char
  | [] => []
  | w :: ws => w.text ++ ' ' :: line ws

theorem ascii_line : ∀ (ws : List Word), ∀ c ∈ line ws, c.toNat < 128 := by
  intro ws
  induction ws with
  | nil => intro c hc; simp [line] at hc
  | cons w ws ih =>
    intro c hc
    rw [line, List.mem_append, List.mem_cons] at hc
    rcases hc with hc | rfl | hc
    · exact of_decide_eq_true (List.all_eq_true.1 w.ascii c hc)
    · decide
    · exact ih c hc

/-- The lexeme at the front of a word with a blank behind it is the word. -/
theorem read_append_blank (w : Word) {b : Char} (hb : Lexeme.isBlank b = true) (m : List Char) :
    Lexeme.read w.first (w.others ++ b :: m) = ⟨w.text, b :: m, .ok w.kind, false⟩ := by
  have h := Lexeme.read_append (Lexeme.isStop_of_isBlank hb) w.first w.others m (by rw [w.read_eq])
  rw [h, w.read_eq]
  rfl

end Word

namespace Stream

/-- Two streams that stand in front of the same lexeme read on alike. -/
theorem next_congr {s s' : Stream} (h : s.read = s'.read) : s.next = s'.next := by
  cases hr : s.read.1 with
  | error d =>
    have hr' : s'.read.1 = .error d := by rw [← h, hr]
    rw [next_of_error hr, next_of_error hr', h]
  | ok t =>
    have hr' : s'.read.1 = .ok t := by rw [← h, hr]
    cases hc : t.isComment with
    | true => rw [next_of_comment hr hc, next_of_comment hr' hc, h]
    | false => rw [next_of_token hr hc, next_of_token hr' hc, h]

theorem next_blanks {bs : List Char} (hbs : ∀ b ∈ bs, Lexeme.isBlank b = true)
    (settings : Settings) (m : List Char) (l : Location) (ws hs : List Diagnostic) :
    (⟨settings, bs ++ m, l, ws, hs⟩ : Stream).next
      = (⟨settings, m, l.after bs, ws, hs⟩ : Stream).next := by
  have hbody : (⟨settings, bs ++ m, l, ws, hs⟩ : Stream).body
      = (⟨settings, m, l.after bs, ws, hs⟩ : Stream).body :=
    List.dropWhile_append_of_pos hbs
  have hhere : (⟨settings, bs ++ m, l, ws, hs⟩ : Stream).here
      = (⟨settings, m, l.after bs, ws, hs⟩ : Stream).here := by
    simp only [here]
    rw [List.takeWhile_append_of_pos hbs, Location.after_append]
  apply next_congr
  unfold read
  rw [hbody]
  split
  · simp only [hhere]
  · simp only [result, behind, hhere]

theorem next_word {b b' : Char} (hb : Lexeme.isBlank b = true) (hb' : Lexeme.isBlank b' = true)
    (w : Word) (m : List Char) {s : Stream} (hs : s.rest = b :: (w.text ++ b' :: m)) :
    ∃ t l, s.next = (.ok t, { s with rest := b' :: m, loc := l }) ∧ t.isEof = false ∧
      Word.Spells t w := by
  have hbody : s.body = w.first :: (w.others ++ b' :: m) := by
    rw [body, hs, List.dropWhile_cons_of_pos hb, Word.text, List.cons_append,
      List.dropWhile_cons_of_neg (by simp [w.isBlank_first])]
  have hread : s.read = (.ok ⟨w.kind, ⟨s.here, s.here.after w.text⟩, w.text⟩,
      { s with rest := b' :: m, loc := s.here.after w.text }) := by
    rw [read, hbody]
    simp only [w.read_append_blank hb' m]
    rfl
  have hc : (⟨w.kind, ⟨s.here, s.here.after w.text⟩, w.text⟩ : Token).isComment = false :=
    w.isComment_kind
  refine ⟨⟨w.kind, ⟨s.here, s.here.after w.text⟩, w.text⟩, s.here.after w.text, ?_, w.isEof_kind,
    rfl, rfl⟩
  rw [next_of_token (by rw [hread]) hc, hread]

/-- **A line of words gives the tokens of its words.** -/
theorem emits_line : ∀ (ws : List Word) {b : Char} {s : Stream}, Lexeme.isBlank b = true →
    s.rest = b :: Word.line ws →
    ∃ ts b' l, s.Emits ts { s with rest := [b'], loc := l } ∧ Lexeme.isBlank b' = true ∧
      List.Forall₂ Word.Spells ts ws := by
  intro ws
  induction ws with
  | nil =>
    intro b s hb hs
    refine ⟨[], b, s.loc, ?_, hb, .nil⟩
    have he : ({ s with rest := [b], loc := s.loc } : Stream) = s := by
      rw [Word.line] at hs
      rw [← hs]
    rw [he]
    exact .refl s
  | cons w ws ih =>
    intro b s hb hs
    have hsp : Lexeme.isBlank ' ' = true := by decide
    obtain ⟨t, l, hn, ht, hw⟩ := next_word hb hsp w (Word.line ws) hs
    obtain ⟨ts, b', l', he, hb', hws⟩ := ih (b := ' ') (s := s.next.2) hsp (by rw [hn])
    refine ⟨t :: ts, b', l', .head (by rw [hn]) ht ?_, hb', .cons hw hws⟩
    rw [hn] at he ⊢
    exact he

theorem next_of_blank {b : Char} {s : Stream} (hb : Lexeme.isBlank b = true)
    (hs : s.rest = [b]) :
    s.next = (.ok (endToken s.here), { s with rest := [], loc := s.here }) := by
  apply next_of_body_nil
  rw [body, hs, List.dropWhile_cons_of_pos hb, List.dropWhile_nil]

end Stream

/-! ### ASCII text as bytes -/

namespace Utf8

def byte (c : Char) : UInt8 := c.toNat.toUInt8

/-- **ASCII text is its own byte string.** -/
theorem decode_bytes : ∀ (cs : List Char), (∀ c ∈ cs, c.toNat < 128) →
    decode (cs.map byte) = cs := by
  intro cs
  induction cs with
  | nil => intro _; rw [List.map_nil, decode_nil]
  | cons c cs ih =>
    intro h
    have hc : [byte c] = String.utf8EncodeChar c := (encodeChar_one (h c (by simp))).symm
    rw [List.map_cons, ← List.singleton_append, hc, decode_encodeChar_append,
      ih (fun d hd => h d (by simp [hd]))]

end Utf8

end SmallMl
