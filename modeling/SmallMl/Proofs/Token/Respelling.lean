import SmallMl.Proofs.Token.Cutting
import SmallMl.Proofs.Token.Listing

/-!
# Tokens that are written out again

The tokens of a text can be written on one line, each by its canonical spelling and with a space
between two of them, and the line is read as the same tokens.

The canonical spelling of a token that was read is the text it was read from
(`Stream.spelling_of_next`), although the keywords and the punctuation are spelled by their names.
This text is the token on its own (`Stream.lexes_lit`), and a space ends every token.  So the line
is put together from its tokens by `Lexes.append`, and `Stream.spellings_read_back` is the statement
about all results.
-/

namespace SmallMl

/-! ### Canonical spellings -/

namespace Kind

/-- The token of this kind that covers the text `w` is spelled like that. -/
def Canonical (k : Kind) (w : List Char) : Prop :=
  ∀ range, (⟨k, range, w⟩ : Token).spelling = String.ofList w

theorem canonical_ofWord (w : List Char) : (ofWord w).Canonical w := by
  have hres : ∀ p ∈ reserved, (⟨p.2, default, p.1⟩ : Token).spelling = String.ofList p.1 := by
    decide +kernel
  exact ofWord_of_reserved (P := fun w k => k.Canonical w) (fun p hp _ => hres p hp)
    (fun _ _ => rfl) w

theorem canonical_of_ofMark? {c : Char} {k : Kind} (h : ofMark? c = some k) :
    k.Canonical [c] := by
  intro range
  unfold ofMark? at h
  split at h <;> cases h <;> rfl

end Kind

namespace Lexeme

theorem canonical_of_numeralKind {n : Numeral} {k : Kind} (h : numeralKind n = .ok k)
    (w : List Char) : k.Canonical w := by
  rcases numeralKind_cases h with ⟨v, -, rfl⟩ | ⟨v, -, rfl⟩ <;> exact fun _ => rfl

theorem canonical_of_operatorKind {run : List Char} {k : Kind} (h : operatorKind run = .ok k) :
    k.Canonical run := by
  rcases operatorKind_cases h with ⟨rfl, rfl⟩ | ⟨rfl, rfl⟩ | ⟨o, rfl, -⟩ <;> exact fun _ => rfl

/-- **The canonical spelling of a token is the text it was read from.** -/
theorem canonical_of_found {c : Char} {r : List Char} {k : Kind} (h : (read c r).found = .ok k) :
    k.Canonical (read c r).text := by
  rcases found_cases h with rfl | ⟨n, hn⟩ | ho | ⟨rfl, hp⟩ | rfl | ⟨hm, hx⟩
  · exact Kind.canonical_ofWord _
  · exact canonical_of_numeralKind hn _
  · exact canonical_of_operatorKind ho
  · rw [hp]
    exact fun _ => rfl
  · exact fun _ => rfl
  · rw [hx]
    exact Kind.canonical_of_ofMark? hm

end Lexeme

/-! ### One token -/

namespace Stream

theorem spelling_of_next {s : Stream} {t : Token} (h : s.next.1 = .ok t) (ht : t.isEof = false) :
    t.spelling = String.ofList t.lit := by
  obtain ⟨c, r, -, hf, hl, -, -⟩ := lexeme_of_next h ht
  rw [← hl, ← Lexeme.canonical_of_found hf t.range, hl]

/-- **The text of a token is the token on its own.** -/
theorem lexes_lit {s : Stream} {t : Token} (h : s.next.1 = .ok t) (ht : t.isEof = false) :
    Lexes t.lit [t.bare] [] := by
  obtain ⟨c, r, hb, hf, hl, hu, hc⟩ := lexeme_of_next h ht
  obtain ⟨w, hw, hrest⟩ := Lexeme.exists_text_eq c r
  -- the text behind the token is cut off
  have hr := @Lexeme.read_trim c w (Lexeme.read c r).rest []
  rw [hrest] at hr
  have hlit : t.lit = c :: w := hl.symm.trans hw
  rw [hlit]
  refine Lexes.token hb ?_ hc ht
  rw [hr rfl hu]
  simp only [hw, hf, hu, hlit]

/-! ### A line of tokens -/

theorem Emits.lexes_line {src src' : Stream} {ts : List Token} (h : src.Emits ts src') :
    Lexes (List.intercalate [' '] (ts.map Token.lit)) (ts.map Token.bare) [] := by
  induction h with
  | refl => exact .nil []
  | @head src src' t ts hn ht _ ih =>
    have hl := lexes_lit hn ht
    cases ts with
    | nil => simpa using hl
    | cons u us =>
      have hs : Lexeme.isBlank ' ' = true := rfl
      rw [List.map_cons, List.map_cons, List.map_cons, List.intercalate_cons_cons,
        List.append_assoc, List.singleton_append]
      refine (hl.extend ?_).append (Lexes.blank hs ih (by simp))
      intro b hb
      cases hb
      exact Lexeme.isStop_of_isBlank hs

theorem Emits.spelling_eq {src src' : Stream} {ts : List Token} (h : src.Emits ts src') :
    ∀ t ∈ ts, t.spelling = String.ofList t.lit := by
  induction h with
  | refl => simp
  | head hn ht _ ih =>
    intro u hu
    rcases List.mem_cons.1 hu with rfl | hu
    · exact spelling_of_next hn ht
    · exact ih u hu

theorem Emits.line_eq {src src' : Stream} {ts : List Token} (h : src.Emits ts src') :
    (" ".intercalate (ts.map Token.spelling)).toList
      = List.intercalate [' '] (ts.map Token.lit) := by
  rw [String.toList_intercalate, List.map_map]
  have hs : ts.map (String.toList ∘ Token.spelling) = ts.map Token.lit := by
    apply List.map_congr_left
    intro t ht
    rw [Function.comp_apply, h.spelling_eq t ht, String.toList_ofList]
  rw [hs]
  rfl

/-- A text that is nothing but the tokens, comments aside. -/
theorem nextAll_of_lexes {settings : Settings} {text : List Char} {us : List Token}
    (h : Lexes text us []) : ∃ (ts : List Token) (e : Token),
      (ofText settings text).nextAll.1 = ts.map .ok ++ [.ok e] ∧ e.isEof = true ∧
        ts.map Token.bare = us ∧ (ofText settings text).nextAll.2.warnings = [] := by
  obtain ⟨ts, src, he, hr, ht⟩ := h (ofText settings text) rfl
  have hb : src.body = [] := by
    rw [body, hr]
    rfl
  have hn := next_of_body_nil hb
  have ha := nextAll_of_eof (t := endToken src.here) (by rw [hn]) rfl
  refine ⟨ts, endToken src.here, ?_, rfl, ht, ?_⟩
  · rw [he.nextAll_eq, ha]
  · rw [he.nextAll_eq, ha, hn]
    exact he.warnings_eq

/-- **Tokens are read back from their spellings.**  If all results of a text are tokens, `e` at its
end, then the spellings of the tokens, with single spaces between them, are read without an error
and without a warning as tokens of the same kinds, values and texts. -/
theorem spellings_read_back {settings : Settings} {text : List Char} {ts : List Token} {e : Token}
    (h : (ofText settings text).nextAll.1 = ts.map .ok ++ [.ok e]) (settings' : Settings) :
    ∃ (us : List Token) (e' : Token),
      (ofText settings' (" ".intercalate (ts.map Token.spelling)).toList).nextAll.1
        = us.map .ok ++ [.ok e'] ∧ e'.isEof = true ∧ us.map Token.bare = ts.map Token.bare ∧
      (ofText settings' (" ".intercalate (ts.map Token.spelling)).toList).nextAll.2.warnings
        = [] := by
  obtain ⟨src, he, -, -⟩ := emits_of_nextAll h
  rw [he.line_eq]
  exact nextAll_of_lexes he.lexes_line

/-- Tokens with no blanks between them, one comment among them and one behind them that does not
end. -/
theorem crowded_spellings_read_back :
    ∃ (ts : List Token) (e : Token),
      (ofText {} "a.(*b*)(1.)-.true(*".toList).nextAll.1 = ts.map .ok ++ [.ok e] ∧
      " ".intercalate (ts.map Token.spelling) = "a . ( 1. ) -. true" ∧
      ∃ (us : List Token) (e' : Token),
        (ofText {} "a . ( 1. ) -. true".toList).nextAll.1 = us.map .ok ++ [.ok e'] ∧
          e'.isEof = true ∧ us.map Token.bare = ts.map Token.bare ∧
          (ofText {} "a . ( 1. ) -. true".toList).nextAll.2.warnings = [] := by
  have hall : ((ofText {} "a.(*b*)(1.)-.true(*".toList).nextAllWithin 20).map Prod.fst
      = some ((([⟨.ident, ⟨⟨1, 1, 0⟩, ⟨1, 2, 1⟩⟩, ['a']⟩,
          ⟨.dot, ⟨⟨1, 2, 1⟩, ⟨1, 3, 2⟩⟩, ['.']⟩,
          ⟨.lparen, ⟨⟨1, 8, 7⟩, ⟨1, 9, 8⟩⟩, ['(']⟩,
          ⟨.float ⟨0x3FF0000000000000⟩, ⟨⟨1, 9, 8⟩, ⟨1, 11, 10⟩⟩, ['1', '.']⟩,
          ⟨.rparen, ⟨⟨1, 11, 10⟩, ⟨1, 12, 11⟩⟩, [')']⟩,
          ⟨.operator .minusDot, ⟨⟨1, 12, 11⟩, ⟨1, 14, 13⟩⟩, ['-', '.']⟩,
          ⟨.bool true, ⟨⟨1, 14, 13⟩, ⟨1, 18, 17⟩⟩, ['t', 'r', 'u', 'e']⟩] : List Token).map .ok)
        ++ [.ok (endToken ⟨1, 20, 19⟩)]) := rfl
  obtain ⟨r, hr, h⟩ := Option.map_eq_some_iff.1 hall
  rw [← nextAll_of_within hr] at h
  have hs := spellings_read_back h {}
  exact ⟨_, _, h, by decide +kernel, hs⟩

end Stream

end SmallMl
