import Mathlib.Data.List.Induction
import SmallMl.Command.Session
import SmallMl.Proofs.Grammar.Run

/-!
# The groups of a script

A session reads its script in groups.  Lines are collected as long as they need more (`Pending`).
A group is submitted by the line that completes it or by a blank line (`Submits`); it may also be
cut by a signal or by the end of the script.  `Transcript` lists what can become of a group and says
of each case which prompts are shown, what else is seen, and in which mode the session goes on.

The main statement is `Session.run_eq_iff_transcript`: what a session does with a script is what the
groups of the script say, and nothing else.  So no line is lost, read twice or put into another
group, and a text is remembered and evaluated once, in its turn.
-/

namespace SmallMl

theorem Program.needsMore_nil : needsMore [] = false := by
  have h : parse {} [] = ⟨.ok ⟨⟨.start, .start⟩, []⟩, .ofText {} []⟩ :=
    Parse.run_of_within (n := 1) rfl
  rw [needsMore, h]
  rfl

namespace Session

/-! ### Lines -/

def joined (ls : List (List Char)) : List Char := ['\n'].intercalate ls

theorem joined_concat {ls : List (List Char)} (h : ls ≠ []) (l : List Char) :
    joined (ls ++ [l]) = joined ls ++ '\n' :: l := by
  unfold joined
  induction ls with
  | nil => exact absurd rfl h
  | cons a ls ih =>
    cases ls with
    | nil => simp
    | cons b ls =>
      have hb := ih (by simp)
      rw [List.cons_append, List.cons_append, List.intercalate_cons_cons, ← List.cons_append, hb,
        List.intercalate_cons_cons, List.append_assoc, List.append_assoc, List.append_assoc]

/-- The lines are the beginning of a group: all of them together need more, and so did those before
each line.  A blank line would have submitted those in front of it. -/
structure Pending (ls : List (List Char)) : Prop where
  incomplete : ∀ p, p ≠ [] → p <+: ls → Program.needsMore (joined p) = true
  notBlank : ∀ l ∈ ls.tail, Blank.isBlank l = false

/-- The lines are a group that is submitted, by the blank line `closing` if there is one and by the
last of the lines otherwise. -/
structure Submits (ls : List (List Char)) (closing : Option (List Char)) : Prop where
  ne_nil : ls ≠ []
  incomplete : ∀ p, p ≠ [] → p <+: ls → p ≠ ls → Program.needsMore (joined p) = true
  notBlank : ∀ l ∈ ls.tail, Blank.isBlank l = false
  ends : match closing with
    | none => Program.needsMore (joined ls) = false
    | some b => Program.needsMore (joined ls) = true ∧ Blank.isBlank b = true

def entries (ls : List (List Char)) (closing : Option (List Char)) : List Input :=
  (ls ++ closing.toList).map .line

namespace Pending

variable {ls : List (List Char)} {l : List Char}

theorem nil : Pending [] :=
  ⟨fun _ hn hp => absurd (List.prefix_nil.1 hp) hn, by simp⟩

theorem tail_concat (h : Pending ls) (hb : ls ≠ [] → Blank.isBlank l = false) :
    ∀ x ∈ (ls ++ [l]).tail, Blank.isBlank x = false := by
  cases ls with
  | nil => simp
  | cons a ls =>
    intro x hx
    rw [List.cons_append, List.tail_cons, List.mem_append, List.mem_singleton] at hx
    rcases hx with hx | rfl
    · exact h.notBlank x hx
    · exact hb (by simp)

theorem concat (h : Pending ls) (hb : ls ≠ [] → Blank.isBlank l = false)
    (hn : Program.needsMore (joined (ls ++ [l])) = true) : Pending (ls ++ [l]) := by
  refine ⟨fun p hne hp => ?_, h.tail_concat hb⟩
  rcases List.prefix_concat_iff.1 hp with rfl | hp
  · exact hn
  · exact h.incomplete p hne hp

/-- All lines but the last one are the beginning of a group. -/
theorem of_concat (h : Pending (ls ++ [l])) :
    Pending ls ∧ (ls ≠ [] → Blank.isBlank l = false) ∧
      Program.needsMore (joined (ls ++ [l])) = true := by
  refine ⟨⟨fun p hn hp => h.incomplete p hn (hp.trans (List.prefix_append _ _)), fun x hx => ?_⟩,
    fun hn => ?_, h.incomplete _ (by simp) List.prefix_rfl⟩
  · refine h.notBlank x ?_
    cases ls with
    | nil => cases hx
    | cons a ls => exact List.mem_append_left _ hx
  · refine h.notBlank l ?_
    obtain ⟨a, as, rfl⟩ := List.exists_cons_of_ne_nil hn
    simp

theorem isEmpty_joined (h : Pending ls) : (joined ls).isEmpty = decide (ls = []) := by
  by_cases hn : ls = []
  · simp [hn, joined]
  · have hm := h.incomplete ls hn List.prefix_rfl
    have hj : joined ls ≠ [] := by
      intro hj
      rw [hj, Program.needsMore_nil] at hm
      cases hm
    simp [hn, hj]

/-- The line that completes a text submits it. -/
theorem submits (h : Pending ls) (hb : ls ≠ [] → Blank.isBlank l = false)
    (hn : Program.needsMore (joined (ls ++ [l])) = false) : Submits (ls ++ [l]) none := by
  refine ⟨by simp, fun p hne hp hpl => ?_, h.tail_concat hb, hn⟩
  exact h.incomplete p hne ((List.prefix_concat_iff.1 hp).resolve_left hpl)

theorem submits_blank (h : Pending ls) (hn : ls ≠ []) (hb : Blank.isBlank l = true) :
    Submits ls (some l) :=
  ⟨hn, fun p hne hp _ => h.incomplete p hne hp, h.notBlank, h.incomplete ls hn List.prefix_rfl, hb⟩

end Pending

/-- What stands in front of the last entry of a group is the beginning of it. -/
theorem Submits.cases {ls : List (List Char)} {closing : Option (List Char)}
    (h : Submits ls closing) :
    (∃ ks l, ls = ks ++ [l] ∧ closing = none ∧ Pending ks ∧ (ks ≠ [] → Blank.isBlank l = false) ∧
      Program.needsMore (joined ls) = false) ∨
    ∃ b, closing = some b ∧ Pending ls ∧ Blank.isBlank b = true := by
  cases closing with
  | none =>
    obtain ⟨ks, l, rfl⟩ := (List.eq_nil_or_concat ls).resolve_left h.ne_nil
    rw [List.concat_eq_append] at h ⊢
    refine .inl ⟨ks, l, rfl, rfl, ⟨fun p hn hp => ?_, fun x hx => ?_⟩, fun hn => ?_, h.ends⟩
    · refine h.incomplete p hn (hp.trans (List.prefix_append _ _)) fun he => ?_
      have hl := hp.length_le
      rw [he, List.length_append, List.length_singleton] at hl
      omega
    · refine h.notBlank x ?_
      cases ks with
      | nil => cases hx
      | cons a ks => exact List.mem_append_left _ hx
    · refine h.notBlank l ?_
      obtain ⟨a, as, rfl⟩ := List.exists_cons_of_ne_nil hn
      simp
  | some b =>
    refine .inr ⟨b, rfl, ⟨fun p hn hp => ?_, h.notBlank⟩, h.ends.2⟩
    by_cases he : p = ls
    · rw [he]
      exact h.ends.1
    · exact h.incomplete p hn hp he

/-! ### Prompts -/

def prompts : Nat → List Event
  | 0 => []
  | n + 1 => .prompt "# " :: List.replicate n (.prompt "  ")

theorem prompts_succ (n : Nat) :
    prompts (n + 1) = prompts n ++ [.prompt (if n = 0 then "# " else "  ")] := by
  cases n with
  | zero => rfl
  | succ n => simp [prompts, List.replicate_succ']

def Run.after (es : List Event) (r : Run) : Run := { r with events := es ++ r.events }

theorem Run.after_after (es fs : List Event) (r : Run) :
    Run.after es (Run.after fs r) = Run.after (es ++ fs) r := by
  simp [Run.after, List.append_assoc]

def behind (p : Reply) (script : List Input) : Run :=
  if p.goesOn then Run.after p.events (run p.session script)
  else ⟨p.events, p.session, script.length⟩

theorem run_cons (s : Session) (i : Input) (script : List Input) :
    run s (i :: script) = Run.after [.prompt s.promptText] (behind (s.feed i) script) := by
  rw [run, behind]
  split <;> rfl

/-! ### One group -/

def typing (tree remembers : Bool) (ls : List (List Char)) : Session :=
  ⟨tree, remembers, joined ls⟩

section

variable {tree remembers : Bool} {ls : List (List Char)} {l : List Char}

theorem promptText_typing (h : Pending ls) :
    (typing tree remembers ls).promptText = if ls.length = 0 then "# " else "  " := by
  simp [promptText, typing, h.isEmpty_joined]

theorem extend_typing (h : Pending ls) :
    (typing tree remembers ls).extend l = joined (ls ++ [l]) := by
  have he : (typing tree remembers ls).buffer.isEmpty = decide (ls = []) := h.isEmpty_joined
  rw [extend, he]
  by_cases hn : ls = []
  · simp [hn, joined]
  · simp only [hn, decide_false, Bool.false_eq_true, if_false]
    exact (joined_concat hn l).symm

theorem feed_more (h : Pending (ls ++ [l])) :
    (typing tree remembers ls).feed (.line l)
      = ⟨[], typing tree remembers (ls ++ [l]), true⟩ := by
  obtain ⟨hp, hb, hn⟩ := h.of_concat
  have he : (typing tree remembers ls).buffer.isEmpty = decide (ls = []) := hp.isEmpty_joined
  have hskip : (!(typing tree remembers ls).buffer.isEmpty && Blank.isBlank l) = false := by
    rw [he]
    by_cases hls : ls = []
    · simp [hls]
    · simp [hb hls]
  rw [feed, hskip, extend_typing hp, hn]
  rfl

theorem feed_complete (h : Pending ls) (hb : ls ≠ [] → Blank.isBlank l = false)
    (hn : Program.needsMore (joined (ls ++ [l])) = false) :
    (typing tree remembers ls).feed (.line l)
      = (start tree remembers).submit (joined (ls ++ [l])) := by
  have he : (typing tree remembers ls).buffer.isEmpty = decide (ls = []) := h.isEmpty_joined
  have hskip : (!(typing tree remembers ls).buffer.isEmpty && Blank.isBlank l) = false := by
    rw [he]
    by_cases hls : ls = []
    · simp [hls]
    · simp [hb hls]
  rw [feed, hskip, extend_typing h, hn]
  rfl

theorem feed_blank (h : Pending ls) (hn : ls ≠ []) (hb : Blank.isBlank l = true) :
    (typing tree remembers ls).feed (.line l) = (start tree remembers).submit (joined ls) := by
  have he : (typing tree remembers ls).buffer.isEmpty = decide (ls = []) := h.isEmpty_joined
  rw [feed, he, hb]
  simp only [hn, decide_false, Bool.not_false, Bool.and_self, if_true]
  rfl

/-- **The beginning of a group** shows its prompts and nothing else. -/
theorem run_pending (h : Pending ls) (script : List Input) :
    run (start tree remembers) (ls.map .line ++ script)
      = Run.after (prompts ls.length) (run (typing tree remembers ls) script) := by
  induction ls using List.reverseRecOn generalizing script with
  | nil => rfl
  | append_singleton ls l ih =>
    have hp := h.of_concat.1
    rw [List.map_append, List.append_assoc, ih hp, List.map_singleton, List.singleton_append,
      run_cons, promptText_typing hp, feed_more h, Run.after_after, ← prompts_succ]
    simp [behind, Run.after]

theorem run_entry (h : Pending ls) (i : Input) (script : List Input) :
    run (start tree remembers) (ls.map .line ++ i :: script)
      = Run.after (prompts (ls.length + 1))
        (behind ((typing tree remembers ls).feed i) script) := by
  rw [run_pending h, run_cons, promptText_typing h, Run.after_after, ← prompts_succ]

/-- **A group that is submitted** is dealt with when its last entry has been read. -/
theorem run_submits {closing : Option (List Char)} (h : Submits ls closing) (script : List Input) :
    run (start tree remembers) (entries ls closing ++ script)
      = Run.after (prompts (entries ls closing).length)
        (behind ((start tree remembers).submit (joined ls)) script) := by
  rcases h.cases with ⟨ks, l, rfl, rfl, hp, hb, hn⟩ | ⟨b, rfl, hp, hb⟩
  · rw [← feed_complete hp hb hn]
    simpa [entries] using run_entry hp (.line l) script
  · rw [← feed_blank hp h.ne_nil hb]
    simpa [entries] using run_entry hp (.line b) script

end

/-! ### Submitted texts -/

def Quits (cmd : List Char) : Prop := String.ofList cmd = ":quit" ∨ String.ofList cmd = ":q"

/-- The entry that is remembered of a text, if somebody remembers. -/
def remembered (remembers : Bool) (text : List Char) : List Event :=
  if remembers then [.history (historyEntry text)] else []

section

variable {s : Session} {text cs : List Char}

theorem submit_blank (h : Blank.trim text = []) : s.submit text = ⟨[], s, true⟩ := by
  simp only [submit, h]

theorem submit_command (h : Blank.trim text = ':' :: cs) :
    s.submit text = s.command (':' :: cs) := by
  simp only [submit, h]

theorem submit_program {c : Char} (h : Blank.trim text = c :: cs) (hc : c ≠ ':') :
    s.submit text = ⟨remembered s.remembers text ++ s.eval text, s, true⟩ := by
  rw [submit, h]
  split
  · next he => cases he
  · next he => exact absurd (List.cons.inj he).1 hc
  · rfl

/-- Only two commands end a session, and they do nothing else. -/
theorem command_of_quits (h : Quits cs) : s.command cs = ⟨[], s, false⟩ := by
  rcases h with h | h <;> simp only [command, h]

theorem goesOn_command (h : ¬ Quits cs) : (s.command cs).goesOn = true := by
  unfold command
  split
  · next he => exact absurd (.inl he) h
  · next he => exact absurd (.inr he) h
  all_goals rfl

/-- A command changes nothing but the mode. -/
theorem session_command (tree remembers : Bool) (cs : List Char) :
    ((start tree remembers).command cs).session
      = start ((start tree remembers).command cs).session.tree remembers := by
  unfold command
  split <;> rfl

end

/-! ### Scripts -/

/-- **What a session does with a script**, group by group; `tree` is the mode in which it begins.
The run lists the events, the session at the end and the number of entries that are not read. -/
inductive Transcript (remembers : Bool) : Bool → List Input → Run → Prop
  /-- Nothing is done with a blank text. -/
  | blank {tree : Bool} {ls : List (List Char)} {closing : Option (List Char)}
      {script : List Input} {r : Run} : Submits ls closing → Blank.trim (joined ls) = [] →
      Transcript remembers tree script r →
      Transcript remembers tree (entries ls closing ++ script)
        (r.after (prompts (entries ls closing).length))
  /-- A command is carried out. -/
  | command {tree : Bool} {ls : List (List Char)} {closing : Option (List Char)} {cs : List Char}
      {script : List Input} {r : Run} : Submits ls closing →
      Blank.trim (joined ls) = ':' :: cs → ¬ Quits (':' :: cs) →
      Transcript remembers ((start tree remembers).command (':' :: cs)).session.tree script r →
      Transcript remembers tree (entries ls closing ++ script)
        (r.after (prompts (entries ls closing).length ++
          ((start tree remembers).command (':' :: cs)).events))
  /-- Any other text is remembered and evaluated. -/
  | program {tree : Bool} {ls : List (List Char)} {closing : Option (List Char)} {c : Char}
      {cs : List Char} {script : List Input} {r : Run} : Submits ls closing →
      Blank.trim (joined ls) = c :: cs → c ≠ ':' → Transcript remembers tree script r →
      Transcript remembers tree (entries ls closing ++ script)
        (r.after (prompts (entries ls closing).length ++
          (remembered remembers (joined ls) ++ (start tree remembers).eval (joined ls))))
  /-- The session is left.  What stands behind the command is not read. -/
  | quit {tree : Bool} {ls : List (List Char)} {closing : Option (List Char)} {cs : List Char}
      {unread : List Input} : Submits ls closing → Blank.trim (joined ls) = ':' :: cs →
      Quits (':' :: cs) →
      Transcript remembers tree (entries ls closing ++ unread)
        ⟨prompts (entries ls closing).length, start tree remembers, unread.length⟩
  /-- The lines are given up. -/
  | aborted {tree : Bool} {ls : List (List Char)} {script : List Input} {r : Run} : Pending ls →
      Transcript remembers tree script r →
      Transcript remembers tree (ls.map .line ++ .abort :: script)
        (r.after (prompts (ls.length + 1)))
  /-- No more lines can be read. -/
  | failed {tree : Bool} {ls : List (List Char)} {unread : List Input} : Pending ls →
      Transcript remembers tree (ls.map .line ++ .failure :: unread)
        ⟨prompts (ls.length + 1) ++ [.out "\n"], start tree remembers, unread.length⟩
  /-- The script is at its end. -/
  | exhausted {tree : Bool} {ls : List (List Char)} : Pending ls →
      Transcript remembers tree (ls.map .line)
        ⟨prompts (ls.length + 1) ++ [.out "\n"], start tree remembers, 0⟩

section

variable {remembers : Bool}

theorem Transcript.run_eq {tree : Bool} {script : List Input} {r : Run}
    (h : Transcript remembers tree script r) : run (start tree remembers) script = r := by
  induction h with
  | blank hs hb _ ih =>
    rw [run_submits hs, submit_blank hb, behind, if_pos rfl, ih]
    rfl
  | @command tree ls closing cs script r hs hc hq _ ih =>
    rw [run_submits hs, submit_command hc, behind, if_pos (goesOn_command hq), session_command, ih,
      Run.after_after]
  | program hs hb hc _ ih =>
    rw [run_submits hs, submit_program hb hc, behind, if_pos rfl, ih, Run.after_after]
    rfl
  | quit hs hc hq =>
    rw [run_submits hs, submit_command hc, command_of_quits hq]
    simp [behind, Run.after]
  | @aborted tree ls script r hp _ ih =>
    rw [run_entry hp, show (typing tree remembers ls).feed .abort = ⟨[], start tree remembers, true⟩
      from rfl, behind, if_pos rfl, ih, Run.after_after, List.append_nil]
  | failed hp =>
    rw [run_entry hp]
    rfl
  | @exhausted tree ls hp =>
    have h : run (start tree remembers) (ls.map .line ++ []) = _ := run_pending hp []
    rw [List.append_nil] at h
    rw [h, run, promptText_typing hp, prompts_succ]
    simp [Run.after, typing, clear, start]

/-- A group that is submitted, whatever its text is. -/
theorem exists_transcript_of_submits {ls : List (List Char)} {closing : Option (List Char)}
    (h : Submits ls closing) {script : List Input}
    (ih : ∀ tree, ∃ r, Transcript remembers tree script r) (tree : Bool) :
    ∃ r, Transcript remembers tree (entries ls closing ++ script) r := by
  cases ht : Blank.trim (joined ls) with
  | nil =>
    obtain ⟨r, hr⟩ := ih tree
    exact ⟨_, .blank h ht hr⟩
  | cons c cs =>
    by_cases hc : c = ':'
    · subst hc
      by_cases hq : Quits (':' :: cs)
      · exact ⟨_, .quit h ht hq⟩
      · obtain ⟨r, hr⟩ := ih ((start tree remembers).command (':' :: cs)).session.tree
        exact ⟨_, .command h ht hq hr⟩
    · obtain ⟨r, hr⟩ := ih tree
      exact ⟨_, .program h ht hc hr⟩

/-- Every script is made up of groups, whatever has been typed in front of it. -/
theorem exists_transcript (script : List Input) : ∀ {ls : List (List Char)}, Pending ls →
    ∀ tree, ∃ r, Transcript remembers tree (ls.map .line ++ script) r := by
  induction script with
  | nil =>
    intro ls hp tree
    exact ⟨_, by rw [List.append_nil]; exact .exhausted hp⟩
  | cons i script ih =>
    intro ls hp tree
    have hnil : ∀ tree, ∃ r, Transcript remembers tree script r := ih .nil
    cases i with
    | abort =>
      obtain ⟨r, hr⟩ := hnil tree
      exact ⟨_, .aborted hp hr⟩
    | failure => exact ⟨_, .failed hp⟩
    | line l =>
      by_cases hb : ls ≠ [] ∧ Blank.isBlank l = true
      · have hs := exists_transcript_of_submits (hp.submits_blank hb.1 hb.2) hnil tree
        simpa [entries] using hs
      have hb' : ls ≠ [] → Blank.isBlank l = false := fun hn =>
        Bool.eq_false_iff.2 fun h => hb ⟨hn, h⟩
      cases hm : Program.needsMore (joined (ls ++ [l])) with
      | true => simpa using ih (hp.concat hb' hm) tree
      | false =>
        have hs := exists_transcript_of_submits (hp.submits hb' hm) hnil tree
        simpa [entries] using hs

/-- **A session accounts for every line once.**  What it does with a script is what the groups of
the script say, in their order. -/
theorem run_eq_iff_transcript (tree remembers : Bool) (script : List Input) (r : Run) :
    run (start tree remembers) script = r ↔ Transcript remembers tree script r := by
  refine ⟨?_, Transcript.run_eq⟩
  rintro rfl
  have hex : ∃ r, Transcript remembers tree script r := exists_transcript script .nil tree
  obtain ⟨r, hr⟩ := hex
  have hrun : run (start tree remembers) script = r := hr.run_eq
  rw [hrun]
  exact hr

end

end Session

end SmallMl
