import SmallMl.Proofs.Grammar.Diagnosis

/-!
# Where a closing parenthesis is missing

Among the tokens that were used up, the last opening parenthesis that none of them closes is the
innermost one that a state remembers (`LeavesOpen.lastUnclosed`).  So an error that says that a
closing parenthesis is missing points at it, whichever construct has opened it, and in a text that
is read to the end everything is balanced (`Program.missing_paren_points_at_opening`).
-/

namespace SmallMl

namespace Grammar

/-! ### Numbers of parentheses -/

def openingCount (ts : List Token) : Nat := ts.countP fun t => t.kind = .lparen

def closingCount (ts : List Token) : Nat := ts.countP fun t => t.kind = .rparen

section

variable (t : Token) (ts us : List Token)

theorem openingCount_cons :
    openingCount (t :: ts) = openingCount ts + if t.kind = .lparen then 1 else 0 := by
  simp [openingCount, List.countP_cons]

theorem closingCount_cons :
    closingCount (t :: ts) = closingCount ts + if t.kind = .rparen then 1 else 0 := by
  simp [closingCount, List.countP_cons]

theorem openingCount_append : openingCount (ts ++ us) = openingCount ts + openingCount us :=
  List.countP_append

theorem closingCount_append : closingCount (ts ++ us) = closingCount ts + closingCount us :=
  List.countP_append

/-- The depth behind the tokens, with the closing parentheses added; none of them is lost if enough
parentheses are open in front. -/
theorem depth_add_closingCount : ∀ d,
    d + openingCount ts ≤ ts.foldl depthAfter d + closingCount ts ∧
      (closingCount ts ≤ d → ts.foldl depthAfter d + closingCount ts = d + openingCount ts) := by
  induction ts with
  | nil => simp [openingCount, closingCount]
  | cons t ts ih =>
    intro d
    obtain ⟨hle, heq⟩ := ih (depthAfter d t)
    rw [List.foldl_cons, openingCount_cons, closingCount_cons]
    by_cases hl : t.kind = .lparen
    · rw [if_pos hl, if_neg (by simp [hl])]
      rw [depthAfter_lparen hl] at hle heq ⊢
      omega
    by_cases hr : t.kind = .rparen
    · have hd : depthAfter d t = d - 1 := by rw [depthAfter, hr]
      rw [if_neg hl, if_pos hr]
      rw [hd] at hle heq ⊢
      omega
    · rw [if_neg hl, if_neg hr]
      rw [depthAfter_of_kind rfl hl hr] at hle heq ⊢
      exact ⟨hle, heq⟩

end

/-- **Balanced tokens close as many parentheses as they open**, and at no place more. -/
theorem Balanced.counts {ts : List Token} (h : Balanced ts) :
    closingCount ts = openingCount ts ∧
      ∀ us, us <+: ts → closingCount us ≤ openingCount us := by
  have htotal : closingCount ts = openingCount ts := by
    have heq := (depth_add_closingCount ts (closingCount ts)).2 le_rfl
    rw [h] at heq
    omega
  refine ⟨htotal, ?_⟩
  rintro us ⟨vs, rfl⟩
  -- what is open behind the beginning is closed by the rest
  have hle := (depth_add_closingCount vs (us.foldl depthAfter 0)).1
  rw [← List.foldl_append, h] at hle
  rw [closingCount_append, openingCount_append] at htotal
  omega

/-! ### Closing parentheses -/

/-- One of the tokens closes the parenthesis in front of them: what stands between the two is
balanced. -/
def ClosedBy (ts : List Token) : Prop :=
  ∃ inside c rest, ts = inside ++ c :: rest ∧ Balanced inside ∧ c.kind = .rparen

/-- The token is the last opening parenthesis of the tokens that none of them closes. -/
def LastUnclosed (ts : List Token) (o : Token) : Prop :=
  ∃ before after, ts = before ++ o :: after ∧ o.kind = .lparen ∧ ¬ ClosedBy after ∧
    ∀ xs p ys, after = xs ++ p :: ys → p.kind = .lparen → ClosedBy ys

section

variable {ts us xs ys : List Token} {p : Token} {os : List Location} {l : Location}

theorem ClosedBy.append (h : ClosedBy ts) (us : List Token) : ClosedBy (ts ++ us) := by
  obtain ⟨inside, c, rest, rfl, hb, hc⟩ := h
  exact ⟨inside, c, rest ++ us, by rw [List.append_assoc, List.cons_append], hb, hc⟩

/-- Balanced tokens close nothing in front of them. -/
theorem Balanced.not_closedBy (h : Balanced ts) : ¬ ClosedBy ts := by
  rintro ⟨inside, c, rest, rfl, hb, hc⟩
  have hle := h.counts.2 (inside ++ [c]) ⟨rest, by rw [List.append_assoc, List.singleton_append]⟩
  rw [closingCount_append, openingCount_append, hb.counts.1, closingCount_cons,
    openingCount_cons, if_pos hc, if_neg (by simp [hc])] at hle
  have hnil : closingCount [] = openingCount [] := rfl
  omega

/-- Tokens that do not close the parenthesis in front of them only leave some open. -/
theorem closedBy_or_leavesOpen (ts : List Token) : ClosedBy ts ∨ ∃ os, LeavesOpen ts os := by
  induction ts using List.reverseRecOn with
  | nil => exact .inr ⟨[], .none .nil⟩
  | append_singleton ts t ih =>
    rcases ih with h | ⟨os, h⟩
    · exact .inl (h.append [t])
    · by_cases hl : t.kind = .lparen
      · exact .inr ⟨_, h.append (.single hl)⟩
      by_cases hr : t.kind = .rparen
      · cases os with
        | nil =>
          cases h with
          | none hb => exact .inl ⟨ts, t, [], rfl, hb, hr⟩
        | cons o os => exact .inr ⟨os, h.close hr⟩
      · exact .inr ⟨os, h.append_balanced (.single rfl hl hr)⟩

/-- Balanced tokens close every parenthesis that they open. -/
theorem Balanced.closedBy (h : Balanced (xs ++ p :: ys)) (hp : p.kind = .lparen) : ClosedBy ys := by
  refine (closedBy_or_leavesOpen ys).resolve_right ?_
  rintro ⟨os, ho⟩
  have hzero := h 0
  rw [List.foldl_append, List.foldl_cons, depthAfter_lparen hp, ho.depth] at hzero
  omega

/-- **The innermost parenthesis that is open is the last one that is not closed.** -/
theorem LeavesOpen.lastUnclosed (h : LeavesOpen ts (l :: os)) :
    ∃ o, LastUnclosed ts o ∧ o.range.start = l := by
  obtain ⟨before, o, after, rfl, hk, hl, hb⟩ := h.exists_token
  refine ⟨o, ⟨before, after, rfl, hk, hb.not_closedBy, ?_⟩, hl⟩
  rintro xs p ys rfl hp
  exact hb.closedBy hp

end

end Grammar

/-! ### The message -/

theorem Kind.eq_rparen_of_name {k : Kind} (h : k.name = ")") : k = .rparen := by
  cases k <;> first | rfl | simp [name] at h

theorem Complaint.eq_of_message {c : Complaint} (h : c.message = "expected ')'") :
    c = .expected .rparen := by
  have hl := congrArg String.toList h
  cases c with
  | expected k =>
    have hk : k.name.toList ++ ['\''] = [')'] ++ ['\''] := by
      simpa [message, String.join] using hl
    rw [Kind.eq_rparen_of_name (String.toList_inj.1 (List.append_cancel_right hk))]
  | _ => simp [message, String.join] at hl

theorem Fault.message_ne (f : Fault) : f.message ≠ "expected ')'" := by
  intro h
  have hl := congrArg String.toList h
  cases f <;> simp [message, String.join] at hl

namespace Program

open Grammar

/-- **A missing closing parenthesis is reported at its opening one.**  An error that says that one
is missing points at the last opening parenthesis, among the tokens in front of the one that was
refused, that none of these tokens closes.  In a text that is a program as many parentheses are
closed as are opened, and in no beginning of it more. -/
theorem missing_paren_points_at_opening (settings : Settings) (text : List Char) :
    (∀ d, (parse settings text).result = .error d → d.message = "expected ')'" →
      ∃ us t i o, Refuses settings text us t i ∧ d = i.toDiagnostic settings ∧
        LastUnclosed us o ∧ d.loc = o.range.start) ∧
      ∀ p, (parse settings text).result = .ok p →
        closingCount (Stream.ofText settings text).tokens
            = openingCount (Stream.ofText settings text).tokens ∧
          ∀ us, us <+: (Stream.ofText settings text).tokens →
            closingCount us ≤ openingCount us := by
  refine ⟨fun d h hm => ?_, fun p h => ?_⟩
  · rcases error_cases h with ⟨us, src, he, hn⟩ | ⟨us, t, i, hr, rfl⟩
    · -- no lexeme is faulty in this way
      obtain ⟨hat, -⟩ := he.placed (Stream.at_ofText settings text)
      obtain ⟨-, ⟨c, r, f, -, -, -, hd⟩, -⟩ := hat.next_error hn
      rw [hd] at hm
      exact absurd hm f.message_ne
    · obtain ⟨os, hopen, ⟨-, hc⟩ | hh⟩ := hr.blames
      · exact absurd (Complaint.eq_of_message hm) hc
      · obtain ⟨ps, rfl⟩ := List.head?_eq_some_iff.1 hh
        obtain ⟨o, ho, hl⟩ := hopen.lastUnclosed
        exact ⟨us, t, i, o, hr, rfl, ho, hl.symm⟩
  · exact (parse_derives h).2.balanced.counts

/-- A parenthesis that is closed, and behind it an index that is not. -/
theorem missing_paren_points_at_index :
    (parse {} "(f (a); b.(c then".toList).result
        = .error ⟨⟨1, 11, 10⟩, "expected ')'", .error, .parser, "", false⟩ ∧
      (∃ us t i o, Refuses {} "(f (a); b.(c then".toList us t i ∧ LastUnclosed us o ∧
        o.range.start = ⟨1, 11, 10⟩) ∧
      (∃ p, (parse {} "(f (a); b.(c))".toList).result = .ok p) ∧
      closingCount (Stream.ofText {} "(f (a); b.(c))".toList).tokens
        = openingCount (Stream.ofText {} "(f (a); b.(c))".toList).tokens := by
  have hd : (parse {} "(f (a); b.(c then".toList).result
      = .error ⟨⟨1, 11, 10⟩, "expected ')'", .error, .parser, "", false⟩ :=
    result_parse_of_within (n := 15) rfl
  obtain ⟨p, hp⟩ : ∃ p, (Parse.runWithin 15 .initial
      (.ofText {} "(f (a); b.(c))".toList)).map Parse.result = some (.ok p) := ⟨_, rfl⟩
  have hp := result_parse_of_within hp
  obtain ⟨us, t, i, o, hr, -, ho, hl⟩ := (missing_paren_points_at_opening {} _).1 _ hd rfl
  exact ⟨hd, ⟨us, t, i, o, hr, ho, hl.symm⟩, ⟨p, hp⟩,
    ((missing_paren_points_at_opening {} _).2 p hp).1⟩

end Program

end SmallMl
