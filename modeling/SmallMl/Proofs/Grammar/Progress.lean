import SmallMl.Proofs.Grammar.Agreement
import SmallMl.Proofs.Grammar.Depth

/-!
# Reading comes to an end

The grammar as a program of mutually recursive functions comes to an end on every text, with the
answer of `Program.parse` (`Descent.comes_program`).  No bound on the depth of the calls is known
beforehand, so this rests on what the functions do: whatever calls itself has used up a token in
between (`Descent.Advances`).

The requests for another token are counted as well.  They are made as long as the answers are tokens
other than the end token; the first other answer is the last one (`Stream.Asked`).

`Program.parseBytes_terminates` puts this together for all byte strings.
-/

namespace SmallMl

/-! ### Requests -/

namespace Stream

/-- The result is a token and not the end token. -/
def isUsable : Except Diagnostic Token → Bool
  | .ok t => !t.isEof
  | .error _ => false

/-- The stream was asked for tokens one by one, only the last answer is possibly not usable, and
`rest` is behind it. -/
def Asked (src : Stream) (answers : List (Except Diagnostic Token)) (rest : Stream) : Prop :=
  ∃ us src', src.Emits us src' ∧ answers = us.map .ok ++ [src'.next.1] ∧ rest = src'.next.2

namespace Asked

variable {src rest : Stream} {answers : List (Except Diagnostic Token)} {t : Token}

theorem first (src : Stream) : Asked src [src.next.1] src.next.2 := ⟨[], src, .refl src, rfl, rfl⟩

theorem more (h : Asked src (answers ++ [.ok t]) rest) (ht : t.isEof = false) :
    Asked src (answers ++ [.ok t] ++ [rest.next.1]) rest.next.2 := by
  obtain ⟨us, src', he, ha, rfl⟩ := h
  obtain ⟨rfl, hn⟩ := List.append_inj' ha rfl
  have hn' : src'.next.1 = .ok t := by simpa using hn.symm
  exact ⟨us ++ [t], src'.next.2, he.append (.head hn' ht (.refl _)), by simp, rfl⟩

theorem isPrefix (h : Asked src answers rest) : answers <+: src.nextAll.1 := by
  obtain ⟨us, src', he, rfl, rfl⟩ := h
  rw [he.nextAll_eq, List.prefix_append_right_inj]
  rcases more_or_eof src'.next.1 with hm | ⟨t, hn, ht⟩
  · rw [nextAll_of_more hm]
    exact ⟨_, rfl⟩
  · rw [nextAll_of_eof hn ht]
    exact ⟨[], by rw [hn, List.append_nil]⟩

theorem isUsable_of_mem (h : Asked src answers rest) :
    ∀ q ∈ answers.dropLast, isUsable q = true := by
  obtain ⟨us, src', he, rfl, rfl⟩ := h
  intro q hq
  rw [List.dropLast_concat] at hq
  obtain ⟨t, ht, rfl⟩ := List.mem_map.1 hq
  simp [isUsable, he.isEof_eq_false t ht]

/-- **There are no more requests than results up to the first one that is not usable.** -/
theorem length_le (h : Asked src answers rest) :
    answers.length ≤ (src.nextAll.1.takeWhile isUsable).length + 1 := by
  have hu := h.isUsable_of_mem
  obtain ⟨us, src', he, rfl, rfl⟩ := h
  rw [List.dropLast_concat] at hu
  rw [he.nextAll_eq, List.takeWhile_append_of_pos hu, List.length_append, List.length_append,
    List.length_singleton]
  omega

end Asked

end Stream

namespace Grammar

namespace Reader

/-- The reader has asked `src` for its tokens. -/
structure Within (src : Stream) (r : Reader) : Prop where
  asked : src.Asked r.taken r.src
  last : ∃ qs, r.taken = qs ++ [.ok r.tok]

theorem Passes.within {src : Stream} {r r' : Reader} {ts : List Token} (h : Passes r ts r')
    (hr : Within src r) : Within src r' := by
  induction h with
  | refl => exact hr
  | @head r r' t ts he hn _ ih =>
    obtain ⟨qs, hq⟩ := hr.last
    refine ih ⟨?_, r.taken, rfl⟩
    have ha := (hq ▸ hr.asked).more he
    rwa [← hq, hn] at ha

theorem Within.broken {src : Stream} {r : Reader} (hr : Within src r) {d : Diagnostic}
    (he : r.tok.isEof = false) (hn : r.src.next.1 = .error d) :
    src.Asked (r.broken d).taken (r.broken d).src := by
  obtain ⟨qs, hq⟩ := hr.last
  have ha := (hq ▸ hr.asked).more he
  rwa [← hq, hn] at ha

end Reader

open Reader (Passes Within)
open Reading

namespace Descent

variable {α : Type} {p : Parse} {r r' : Reader} {m : Descent α} {a : α} {Q : α → Reader → Prop}

/-! ### Turns -/

def Consumed (r r' : Reader) : Prop := ∃ ts, ts ≠ [] ∧ Passes r ts r'

theorem Follows.of_comes_ok (h : Follows p r m Q) (hm : Comes m r (.ok a) r') :
    Q a r' ∧ ∃ ts, Passes r ts r' := by
  cases h with
  | done hm' ht hq =>
    obtain ⟨ha, rfl⟩ := hm.unique hm'
    cases ha
    exact ⟨hq, _, ht⟩
  | issue hm' => cases (hm.unique hm').1
  | fault hm' => cases (hm.unique hm').1

theorem Follows.consumed (h : Follows p r m Q) (hm : Comes m r (.ok a) r')
    (hl : Q a r' → r'.left < r.left) : Consumed r r' := by
  obtain ⟨hq, ts, ht⟩ := h.of_comes_ok hm
  refine ⟨ts, ?_, ht⟩
  rintro rfl
  cases ht
  exact absurd (hl hq) (Nat.lt_irrefl _)

/-- A stack whose top leaves the same operators to an expression as `prec` does. -/
def selecting : Nat → List Frame
  | 0 | 1 => []
  | 2 => [.right .missing .equal]
  | 3 => [.right .missing .lxor]
  | 4 => [.right .missing .plus]
  | 5 | 6 => [.right .missing .star]
  | _ => [.right .missing .lsl]

theorem selects_selecting (prec : Nat) : Selects (selecting prec) prec := by
  have h : ∀ op : Operator, strengthOf (selecting prec) ≤ op.precedence ↔ prec ≤ op.precedence := by
    intro op
    match prec with
    | 0 | 1 | 2 | 3 | 4 | 5 | 6 => cases op <;> decide
    | n + 7 =>
      have hop := op.precedence_le
      have hs : strengthOf (selecting (n + 7)) = 7 := rfl
      omega
  intro t
  simp only [binding?, h]

/-- **Every function that starts over and every turn of a loop uses up a token**, whatever the depth
its calls may go to. -/
structure Advances (n : Nat) : Prop where
  mustExpr : ∀ prec r x r', (mustExpr prec n).run r = some (.ok x, r') → Consumed r r'
  /-- One turn of `items`, the loop over the top level. -/
  item : ∀ r o r', r.tok.isEof = false → (item n).run r = some (.ok o, r') → Consumed r r'
  /-- One turn of `operators`. -/
  operation : ∀ prec x r y r', (operation prec x n).run r = some (.ok (some y), r') → Consumed r r'
  /-- One turn of `application`. -/
  argument : ∀ r x r', (simpleExpr n).run r = some (.ok (some x), r') → Consumed r r'
  /-- The beginning of a turn of `elements`. -/
  index : ∀ r i r', r.tok.kind = .dot → (index n).run r = some (.ok i, r') → Consumed r r'
  /-- One turn of `params`. -/
  param : ∀ r b r', (binder .malformedParams n).run r = some (.ok b, r') → Consumed r r'
  /-- One turn of `suffixes`. -/
  suffix : ∀ r r', State.isArrayWord r.tok = true → next.run r = some (.ok (), r') → Consumed r r'

theorem advances (n : Nat) : Advances n where
  mustExpr prec r x r' h := by
    have hc : Comes (mustExpr prec) r (.ok x) r' :=
      Deepens.comes (fun k => (expressionsDeepen k).mustExpr prec) h
    have hd : r.drive [] (selecting prec) .start = r.drive [] (selecting prec) .start := rfl
    exact (follows_mustExpr (agrees _) (Nat.le_refl _) (selects_selecting prec) hd).consumed hc
      Read.left
  item r o r' he h := by
    have hd : r.drive [] [] .top = r.drive [] [] .top := rfl
    refine (follows_item hd he).consumed (deepens_item.comes h) fun hq => ?_
    cases o <;> exact hq.1
  operation prec x r y r' h := by
    have hc : Comes (operation prec x) r (.ok (some y)) r' :=
      Deepens.comes (fun k => (expressionsDeepen k).operation prec x) h
    have hd : r.after [] (selecting prec) false x = r.after [] (selecting prec) false x := rfl
    exact (follows_operation (agrees _) (Nat.le_refl _) (selects_selecting prec) hd).consumed hc
      And.left
  argument r x r' h := by
    have hc : Comes simpleExpr r (.ok (some x)) r' :=
      Deepens.comes (fun k => (expressionsDeepen k).simpleExpr) h
    have hd : r.drive [] [] .start = r.drive [] [] .start := rfl
    exact (follows_atom (agrees _) (Nat.le_refl _) hd).consumed hc And.left
  index r i r' hk h := by
    have hc : Comes index r (.ok i) r' := Deepens.comes (fun k => (expressionsDeepen k).index) h
    have hd : r.proceed (.ok (.use [] [] r.tok (.dot .missing)))
        = r.proceed (.ok (.use [] [] r.tok (.dot .missing))) := rfl
    exact (follows_index (agrees _) (Nat.le_refl _) hk hd).consumed hc And.left
  param r b r' h := by
    have hd : r.proceed (State.stepBinder .initial (.function ⟨default, "", default, []⟩) r.tok)
        = r.proceed (State.stepBinder .initial (.function ⟨default, "", default, []⟩) r.tok) := rfl
    exact (follows_binder [] [] hd).consumed ((deepens_binder _).comes h) And.left
  suffix r r' ht h := by
    have hd : r.proceed (.ok (.use [] [] r.tok .start))
        = r.proceed (.ok (.use [] [] r.tok .start)) := rfl
    exact (follows_next [] [] (isEof_of_isArrayWord ht) hd).consumed (.of_run h) Used.left

/-! ### Programs -/

def answer (r : Reader) : Except Stop Program → Parse
  | .ok x => ⟨.ok x, r.src⟩
  | .error (.issue i) => ⟨.error (i.toDiagnostic r.src.settings), r.src⟩
  | .error (.fault d) => ⟨.error d, r.src⟩

/-- **The descent comes to an end with the answer of the reader with a stack.** -/
theorem comes_program (src : Stream) : ∃ o r, Comes program (.before src) o r ∧
    answer r o = Parse.run .initial src ∧ src.Asked r.taken r.src := by
  cases hn : src.next.1 with
  | error d =>
    have hm : next.run (.before src) = _ := run_next_of_error hn
    refine ⟨_, _, (Comes.of_run hm).bind_error _, ?_, ?_⟩
    · rw [Parse.run_of_halts (.fault hn)]
      rfl
    · rw [Reader.broken, ← hn]
      exact .first src
  | ok t =>
    have hm : next.run (.before src) = _ := run_next_of_ok hn
    have hp : ((Reader.before src).advance t).drive [] [] .top = Parse.run .initial src :=
      (Reader.run_eq_proceed hn _ _ _).symm
    have hw : Within src ((Reader.before src).advance t) := by
      refine ⟨?_, [], rfl⟩
      rw [Reader.advance, ← hn]
      exact .first src
    have hf : Follows (Parse.run .initial src) ((Reader.before src).advance t)
        (fun n => items [] n >>= fun xs => do return ofItems xs (← ahead))
        fun x r => Parse.run .initial src = ⟨.ok x, r.src⟩ :=
      (follows_items hp).bind fun xs r' _ h => .ahead (.pure h)
    cases hf with
    | done hm' ht hq => exact ⟨_, _, .bind (.of_run hm) hm', hq.symm, (ht.within hw).asked⟩
    | issue hm' ht hi => exact ⟨_, _, .bind (.of_run hm) hm', hi.symm, (ht.within hw).asked⟩
    | fault hm' ht he hn' hi =>
      exact ⟨_, _, .bind (.of_run hm) hm', hi.symm, (ht.within hw).broken he hn'⟩

end Descent

end Grammar

open Grammar (Reader Descent)

/-- **Reading comes to an end on every byte string**, with a program or with one error.  If the
calls may not go deep enough, there is no outcome at all. -/
theorem Program.parseBytes_terminates (settings : Settings) (bytes : List UInt8) :
    ∃ o r, Descent.Comes Descent.program (.before (.ofBytes settings bytes)) o r ∧
      (∀ n x, (Descent.program n).run (.before (.ofBytes settings bytes)) = some x → x = (o, r)) ∧
      Descent.answer r o = parseBytes settings bytes ∧
      r.taken <+: (Stream.ofBytes settings bytes).nextAll.1 ∧
      (∀ q ∈ r.taken.dropLast, Stream.isUsable q = true) ∧
      r.taken.length
        ≤ ((Stream.ofBytes settings bytes).nextAll.1.takeWhile Stream.isUsable).length + 1 ∧
      ∀ n, Descent.Advances n := by
  obtain ⟨o, r, hm, hp, ha⟩ := Descent.comes_program (.ofBytes settings bytes)
  have hn : ∀ n x, (Descent.program n).run (.before (.ofBytes settings bytes)) = some x →
      x = (o, r) := by
    rintro n ⟨o', r'⟩ h
    obtain ⟨rfl, rfl⟩ := hm.unique (Descent.deepens_program.comes h)
    rfl
  exact ⟨o, r, hm, hn, hp, ha.isPrefix, ha.isUsable_of_mem, ha.length_le,
    Descent.advances⟩

end SmallMl
