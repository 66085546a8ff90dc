import SmallMl.Proofs.Grammar.Reading
import SmallMl.Proofs.Token.Tiling

/-!
# Only the grammar is accepted

A text that is read as a program consists of tokens, comments and blanks, with nothing else in
between (`Stream.Clean`), and its tokens make up the program by the rules of `Derives`: each of them
is used, once, and in its place.  `Program.parse_derives` is the statement.
-/

namespace SmallMl

namespace Stream

/-- Every lexeme of the stream is a token. -/
def Clean (s : Stream) : Prop := ∀ r ∈ s.readAll.1, ∃ t, r = .ok t

theorem clean_of_token {s : Stream} {t : Token} (h : s.read.1 = .ok t) (ht : t.isEof = false)
    (hc : s.read.2.Clean) : s.Clean := by
  intro r hr
  rw [readAll_of_more (h ▸ more_ok ht), h] at hr
  rcases List.mem_cons.1 hr with rfl | hr
  · exact ⟨t, rfl⟩
  · exact hc r hr

/-- Comments are tokens, so what `next` passes over is clean. -/
theorem clean_of_next {s : Stream} {t : Token} (h : s.next.1 = .ok t) (ht : t.isEof = false)
    (hc : s.next.2.Clean) : s.Clean := by
  fun_induction next s with
  | case1 s c hr hcc ih => exact clean_of_token hr (Token.isEof_of_isComment hcc) (ih h hc)
  | case2 s c hr hcc =>
    cases h
    exact clean_of_token hr ht hc
  | case3 s d hd => cases h

theorem clean_of_next_eof {s : Stream} {t : Token} (h : s.next.1 = .ok t) (ht : t.isEof = true) :
    s.Clean := by
  fun_induction next s with
  | case1 s c hr hcc ih => exact clean_of_token hr (Token.isEof_of_isComment hcc) (ih h)
  | case2 s c hr hcc =>
    cases h
    intro r hrm
    rw [readAll_of_eof hr ht] at hrm
    exact ⟨t, List.mem_singleton.1 hrm⟩
  | case3 s d hd => cases h

theorem Emits.clean {src src' : Stream} {ts : List Token} {e : Token} (h : src.Emits ts src')
    (hn : src'.next.1 = .ok e) (he : e.isEof = true) : src.Clean := by
  induction h with
  | refl src => exact clean_of_next_eof hn he
  | head ht hte _ ih => exact clean_of_next ht hte (ih hn)

end Stream

open Grammar

namespace Program

/-- **A program is derived from all tokens of its text.**  Every lexeme of a text that is read is a
token, and the tokens without the comments are expressions with semicolons around them, whose trees
are the items of the program. -/
theorem parse_derives {settings : Settings} {text : List Char} {p : Program}
    (h : (parse settings text).result = .ok p) :
    (Stream.ofText settings text).Clean ∧
      ItemsOf (Stream.ofText settings text).tokens p.items.reverse := by
  obtain ⟨ts, src, e, items, hem, hn, he, hi, rfl⟩ := itemsOf_parse h
  refine ⟨hem.clean hn he, ?_⟩
  rw [Stream.tokens_eq hem hn he, items_program, List.reverse_reverse]
  exact hi

/-- A function with an annotation, an index and a comparison, and behind two semicolons a sequence
and a comment. -/
theorem two_items_derive :
    ∃ p, (parse {} "let rec f (x : int) = a.(x) < 1;; (b; c) (* d *)".toList).result = .ok p ∧
      p.items.length = 2 ∧
      (Stream.ofText {} "let rec f (x : int) = a.(x) < 1;; (b; c) (* d *)".toList).Clean ∧
      ItemsOf (Stream.ofText {} "let rec f (x : int) = a.(x) < 1;; (b; c) (* d *)".toList).tokens
        p.items.reverse := by
  have h : ∃ p, (Parse.runWithin 30 .initial
      (.ofText {} "let rec f (x : int) = a.(x) < 1;; (b; c) (* d *)".toList)).map Parse.result
        = some (.ok p) ∧ p.items.length = 2 := by
    refine ⟨_, rfl, ?_⟩
    rfl
  obtain ⟨p, hp, hl⟩ := h
  have hr := result_parse_of_within hp
  exact ⟨p, hr, hl, parse_derives hr⟩

end Program

end SmallMl
