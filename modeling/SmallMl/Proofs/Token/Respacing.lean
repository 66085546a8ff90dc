import SmallMl.Proofs.Token.Calls

/-!
# One blank is as good as another

A map of characters that takes blanks to blanks and leaves every other character alone (`Respaces`)
changes no token of a text.  No class of characters that a lexeme is made of has blanks in it, so a
word, a numeral and an operator are taken as before and stay what they are; a comment keeps its
marks, and only its characters change (`Respaces.read_map`).

So a stream over the changed text gives results that say the same as those over the text, one by
one, and it has warnings when the other one has (`Stream.Respaced.next`).
-/

namespace SmallMl

/-- Blanks become blanks, and every other character stays. -/
structure Respaces (g : Char → Char) : Prop where
  blank : ∀ c, Lexeme.isBlank c = true → Lexeme.isBlank (g c) = true
  other : ∀ c, Lexeme.isBlank c = false → g c = c

namespace Respaces

variable {g : Char → Char}

/-! ### Characters and runs -/

theorem isBlank_eq (hg : Respaces g) (c : Char) : Lexeme.isBlank (g c) = Lexeme.isBlank c := by
  cases hc : Lexeme.isBlank c with
  | true => exact hg.blank c hc
  | false => rw [hg.other c hc, hc]

theorem eq_iff (hg : Respaces g) {c d : Char} (hd : Lexeme.isBlank d = false) :
    g c = d ↔ c = d := by
  cases hc : Lexeme.isBlank c with
  | false => rw [hg.other c hc]
  | true =>
    have hgc := hg.blank c hc
    constructor <;> rintro rfl
    · rw [hgc] at hd
      cases hd
    · rw [hc] at hd
      cases hd

theorem class_eq (hg : Respaces g) {p : Char → Bool}
    (hp : ∀ c, Lexeme.isBlank c = true → p c = false) (c : Char) : p (g c) = p c := by
  cases hc : Lexeme.isBlank c with
  | false => rw [hg.other c hc]
  | true => rw [hp c hc, hp _ (hg.blank c hc)]

theorem map_eq_self (hg : Respaces g) {cs : List Char}
    (h : ∀ c ∈ cs, Lexeme.isBlank c = false) : cs.map g = cs :=
  (List.map_congr_left fun c hc => hg.other c (h c hc)).trans (List.map_id cs)

theorem run_map (hg : Respaces g) {p : Char → Bool}
    (hp : ∀ c, Lexeme.isBlank c = true → p c = false) (cs : List Char) :
    (cs.map g).takeWhile p = cs.takeWhile p ∧ (cs.map g).dropWhile p = (cs.dropWhile p).map g := by
  have hpg : p ∘ g = p := funext (hg.class_eq hp)
  refine ⟨?_, by rw [List.dropWhile_map, hpg]⟩
  rw [List.takeWhile_map, hpg]
  refine hg.map_eq_self fun c hc => Bool.eq_false_iff.2 fun hb => ?_
  have hpc := List.mem_takeWhile_imp hc
  rw [hp c hb] at hpc
  cases hpc

theorem isWordChar_of_isBlank {c : Char} (h : Lexeme.isBlank c = true) :
    Lexeme.isWordChar c = false := Lexeme.isWordChar_stop (Lexeme.isStop_of_isBlank h)

theorem isLetter_of_isBlank {c : Char} (h : Lexeme.isBlank c = true) :
    Lexeme.isLetter c = false := Lexeme.isLetter_stop (Lexeme.isStop_of_isBlank h)

theorem isDigit_of_isBlank {c : Char} (h : Lexeme.isBlank c = true) :
    Digits.isDigit c = false := Lexeme.isDigit_stop (Lexeme.isStop_of_isBlank h)

theorem isOperatorChar_of_isBlank {c : Char} (h : Lexeme.isBlank c = true) :
    Lexeme.isOperatorChar c = false := Lexeme.isOperatorChar_stop (Lexeme.isStop_of_isBlank h)

/-! ### Words, numerals and operators -/

theorem splitWord_map (hg : Respaces g) (cs : List Char) :
    Lexeme.splitWord (cs.map g)
      = ((Lexeme.splitWord cs).1, (Lexeme.splitWord cs).2.map g) := by
  induction cs with
  | nil => rfl
  | cons c r ih =>
    have hw := hg.class_eq (fun _ => isWordChar_of_isBlank) c
    have hl : Lexeme.startsWithLetter (r.map g) = Lexeme.startsWithLetter r := by
      cases r with
      | nil => rfl
      | cons d r => exact hg.class_eq (fun _ => isLetter_of_isBlank) d
    have hp : g c = '.' ↔ c = '.' := hg.eq_iff rfl
    rw [List.map_cons, Lexeme.splitWord, Lexeme.splitWord, hw, hl, ih]
    simp only [hp]
    split
    · next h =>
      have hc : Lexeme.isBlank c = false := by
        refine Bool.eq_false_iff.2 fun hb => ?_
        rw [isWordChar_of_isBlank hb] at h
        simp only [Bool.false_or, Bool.and_eq_true, decide_eq_true_eq] at h
        rw [h.1] at hb
        cases hb
      rw [hg.other c hc]
    · rfl

theorem readFraction_map (hg : Respaces g) (cs : List Char) :
    Numeral.readFraction (cs.map g)
      = ((Numeral.readFraction cs).1, (Numeral.readFraction cs).2.map g) := by
  cases cs with
  | nil => rfl
  | cons c r =>
    obtain ⟨htake, hdrop⟩ := hg.run_map (fun _ => isDigit_of_isBlank) r
    have hp : g c = '.' ↔ c = '.' := hg.eq_iff rfl
    simp only [List.map_cons, Numeral.readFraction, hp, htake, hdrop]
    split <;> rfl

theorem readSign_map (hg : Respaces g) (cs : List Char) :
    Exponent.readSign (cs.map g)
      = ((Exponent.readSign cs).1, (Exponent.readSign cs).2.map g) := by
  cases cs with
  | nil => rfl
  | cons c r =>
    have hp : g c = '+' ↔ c = '+' := hg.eq_iff rfl
    have hm : g c = '-' ↔ c = '-' := hg.eq_iff rfl
    simp only [List.map_cons, Exponent.readSign, hp, hm]
    split
    · next h =>
      simp only [Bool.or_eq_true, decide_eq_true_eq] at h
      rcases h with rfl | rfl <;> rw [hg.other _ rfl]
    · rfl

theorem readExponent_map (hg : Respaces g) (cs : List Char) :
    Exponent.read (cs.map g) = ((Exponent.read cs).1, (Exponent.read cs).2.map g) := by
  cases cs with
  | nil => rfl
  | cons c r =>
    obtain ⟨htake, hdrop⟩ :=
      hg.run_map (fun _ => isDigit_of_isBlank) (Exponent.readSign r).2
    have he : g c = 'e' ↔ c = 'e' := hg.eq_iff rfl
    have hE : g c = 'E' ↔ c = 'E' := hg.eq_iff rfl
    simp only [List.map_cons, Exponent.read, he, hE, hg.readSign_map, htake, hdrop]
    split
    · next h =>
      simp only [Bool.or_eq_true, decide_eq_true_eq] at h
      rcases h with rfl | rfl <;> rw [hg.other _ rfl]
    · rfl

theorem readNumeral_map (hg : Respaces g) (cs : List Char) :
    Numeral.read (cs.map g) = ((Numeral.read cs).1, (Numeral.read cs).2.map g) := by
  obtain ⟨htake, hdrop⟩ := hg.run_map (fun _ => isDigit_of_isBlank) cs
  simp only [Numeral.read, htake, hdrop, hg.readFraction_map, hg.readExponent_map]

theorem splitOperator_map (hg : Respaces g) (cs : List Char) :
    Lexeme.splitOperator (cs.map g)
      = ((Lexeme.splitOperator cs).1, (Lexeme.splitOperator cs).2.map g) := by
  obtain ⟨htake, hdrop⟩ := hg.run_map (fun _ => isOperatorChar_of_isBlank) cs
  simp only [Lexeme.splitOperator, htake, hdrop]
  cases cs.dropWhile Lexeme.isOperatorChar with
  | nil => rfl
  | cons c r =>
    have hp : g c = '.' ↔ c = '.' := hg.eq_iff rfl
    simp only [List.map_cons, hp]
    split
    · next h =>
      simp only [Bool.and_eq_true, decide_eq_true_eq] at h
      rw [h.1, hg.other _ rfl]
    · rfl

/-! ### Comments -/

theorem splitComment_map (hg : Respaces g) (depth : Nat) (cs : List Char) :
    Lexeme.splitComment depth (cs.map g)
      = ((Lexeme.splitComment depth cs).1.map g, (Lexeme.splitComment depth cs).2.1.map g,
        (Lexeme.splitComment depth cs).2.2) := by
  have hstar : ∀ c, g c = '*' ↔ c = '*' := fun c => hg.eq_iff rfl
  have hopen : ∀ c, g c = '(' ↔ c = '(' := fun c => hg.eq_iff rfl
  have hclose : ∀ c, g c = ')' ↔ c = ')' := fun c => hg.eq_iff rfl
  fun_induction Lexeme.splitComment depth cs with
  | case1 => simp [Lexeme.splitComment]
  | case2 => rfl
  | case3 => rfl
  | case4 depth c d r h s ih =>
    simp only [List.map_cons, Lexeme.splitComment, hstar, hclose, if_pos h, ih, s]
  | case5 depth c d r h h' s ih =>
    simp only [List.map_cons, Lexeme.splitComment, hstar, hclose, hopen, if_neg h, if_pos h', ih, s]
  | case6 depth c d r h h' s ih =>
    rw [List.map_cons] at ih
    simp only [List.map_cons, Lexeme.splitComment, hstar, hclose, hopen, if_neg h, if_neg h', ih, s]

theorem paren_map (hg : Respaces g) (r : List Char) :
    ∃ w, Lexeme.paren (r.map g)
        = ⟨w, (Lexeme.paren r).rest.map g, (Lexeme.paren r).found, (Lexeme.paren r).unclosed⟩ ∧
      ((Lexeme.paren r).found ≠ .ok .comment → w = (Lexeme.paren r).text) := by
  cases r with
  | nil => exact ⟨_, rfl, fun _ => rfl⟩
  | cons c r =>
    by_cases hc : c = '*'
    · have hgc : g c = '*' := (hg.eq_iff rfl).2 hc
      rw [List.map_cons, Lexeme.paren, Lexeme.paren, if_pos hc, if_pos hgc, hg.splitComment_map]
      exact ⟨_, rfl, fun hf => absurd rfl hf⟩
    · have hgc : g c ≠ '*' := mt (hg.eq_iff rfl).1 hc
      rw [List.map_cons, Lexeme.paren, Lexeme.paren, if_neg hc, if_neg hgc]
      exact ⟨_, rfl, fun _ => rfl⟩

/-- **A lexeme stays what it is**, and all of it stays, unless it is a comment. -/
theorem read_map (hg : Respaces g) {c : Char} (hc : Lexeme.isBlank c = false) (r : List Char) :
    ∃ w, Lexeme.read c (r.map g)
        = ⟨w, (Lexeme.read c r).rest.map g, (Lexeme.read c r).found, (Lexeme.read c r).unclosed⟩ ∧
      ((Lexeme.read c r).found ≠ .ok .comment → w = (Lexeme.read c r).text) := by
  have hcr : c :: r.map g = (c :: r).map g := by rw [List.map_cons, hg.other c hc]
  rw [Lexeme.read, Lexeme.read, hcr]
  split
  · rw [Lexeme.word, Lexeme.word, hg.splitWord_map]
    exact ⟨_, rfl, fun _ => rfl⟩
  split
  · rw [Lexeme.numeral, Lexeme.numeral, hg.readNumeral_map]
    exact ⟨_, rfl, fun _ => rfl⟩
  split
  · rw [Lexeme.operator, Lexeme.operator, hg.splitOperator_map]
    exact ⟨_, rfl, fun _ => rfl⟩
  split
  · exact hg.paren_map r
  split <;> exact ⟨_, rfl, fun _ => rfl⟩

end Respaces

/-! ### Results -/

namespace Stream

/-- The results say the same: the kind and the text of a token, of a comment only that it is one, or
the message of an error. -/
inductive Same : Except Diagnostic Token → Except Diagnostic Token → Prop
  | token {t u : Token} : t.kind = u.kind → (t.isComment = false → t.lit = u.lit) →
      Same (.ok t) (.ok u)
  | error {d e : Diagnostic} : d.message = e.message → Same (.error d) (.error e)

theorem Same.of_token {t : Token} {r : Except Diagnostic Token} (h : Same (.ok t) r) :
    ∃ u, r = .ok u ∧ t.kind = u.kind ∧ (t.isComment = false → t.lit = u.lit) := by
  cases h with
  | token hk hl => exact ⟨_, rfl, hk, hl⟩

theorem Same.of_error {d : Diagnostic} {r : Except Diagnostic Token} (h : Same (.error d) r) :
    ∃ e, r = .error e ∧ d.message = e.message := by
  cases h with
  | error hm => exact ⟨_, rfl, hm⟩

/-- The second stream is over the changed text of the first one, and it has warnings if the first
one has. -/
structure Respaced (g : Char → Char) (s s' : Stream) : Prop where
  rest : s'.rest = s.rest.map g
  warnings : s'.warnings = [] ↔ s.warnings = []

namespace Respaced

variable {g : Char → Char} {s s' : Stream}

theorem body (hg : Respaces g) (h : Respaced g s s') : s'.body = s.body.map g := by
  have hbg : Lexeme.isBlank ∘ g = Lexeme.isBlank := funext hg.isBlank_eq
  rw [Stream.body, Stream.body, h.rest, List.dropWhile_map, hbg]

/-- **The next result says the same.** -/
theorem read (hg : Respaces g) (h : Respaced g s s') :
    Same s.read.1 s'.read.1 ∧ Respaced g s.read.2 s'.read.2 := by
  have hbody := h.body hg
  rcases s.read_cases with ⟨hb, hr⟩ | ⟨c, r, hb, hr⟩
  · rw [hb] at hbody
    have hr' : s'.read = (.ok (endToken s'.here), { s' with rest := [], loc := s'.here }) := by
      rw [Stream.read, hbody]
      rfl
    rw [hr, hr']
    exact ⟨.token rfl fun _ => rfl, rfl, h.warnings⟩
  · have hc := isBlank_of_body hb
    obtain ⟨w, hl, hw⟩ := hg.read_map hc r
    rw [hb, List.map_cons, hg.other c hc] at hbody
    have hr' : s'.read
        = (s'.result (Lexeme.read c (r.map g)), s'.behind (Lexeme.read c (r.map g))) := by
      rw [Stream.read, hbody]
    have hraised : s'.raised = [] ↔ s.raised = [] := by
      simp only [raised, hb, hbody, hl]
      split <;> simp
    refine ⟨?_, ?_, ?_⟩
    · rw [hr, hr', hl, result, result]
      cases hf : (Lexeme.read c r).found with
      | error f => exact .error rfl
      | ok k =>
        refine .token rfl fun hk => (hw ?_).symm
        rintro he
        rw [hf] at he
        cases he
        cases hk
    · rw [hr, hr', rest_behind, rest_behind, hl]
    · rw [warnings_read, warnings_read, List.append_eq_nil_iff, List.append_eq_nil_iff, h.warnings,
        hraised]

theorem next (hg : Respaces g) (h : Respaced g s s') :
    Same s.next.1 s'.next.1 ∧ Respaced g s.next.2 s'.next.2 ∧ isComment s.next.1 = false := by
  fun_induction Stream.next s generalizing s' with
  | case1 s t ht hc ih =>
    obtain ⟨hsame, hrest⟩ := h.read hg
    obtain ⟨u, hu, hk, -⟩ := (ht ▸ hsame).of_token
    have huc : u.isComment = true := by rw [Token.isComment, ← hk]; exact hc
    rw [next_of_comment hu huc]
    exact ih hrest
  | case2 s t ht hc =>
    obtain ⟨hsame, hrest⟩ := h.read hg
    obtain ⟨u, hu, hk, hl⟩ := (ht ▸ hsame).of_token
    have htc : t.isComment = false := Bool.eq_false_iff.2 hc
    have huc : u.isComment = false := by rw [Token.isComment, ← hk]; exact htc
    rw [next_of_token hu huc, hu]
    exact ⟨.token hk hl, hrest, htc⟩
  | case3 s d hd =>
    obtain ⟨hsame, hrest⟩ := h.read hg
    obtain ⟨e, he, hm⟩ := (hd ▸ hsame).of_error
    rw [next_of_error he, he]
    exact ⟨.error hm, hrest, rfl⟩

end Respaced

end Stream

end SmallMl
