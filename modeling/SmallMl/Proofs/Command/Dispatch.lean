import SmallMl.Proofs.Command.Groups
import SmallMl.Proofs.Grammar.Finality
import SmallMl.Proofs.Grammar.Layout

/-!
# Commands stand alone

A submitted text is a command if a colon is its first character that is no white space.  What counts
as white space differs: a session trims all that Unicode calls so, and a program has four blanks.
But behind blanks the reader halts at the colon and at every other kind of white space, so a text
that starts like this never needs more (`Program.needsMore_of_visible`).  A text that needs more has
a visible character in front that is no colon, whatever is added behind it
(`Session.not_startsWithColon_append`).

`Session.groups` lists the groups that a session submits while it reads a script, and
`Session.seen_run` says that what is seen of a run, the prompts aside, are the replies to them.  A
reply is that of the command or the program that the text of the group is (`Session.Deed`).  The
main statement is `Session.commands_stand_alone`.
-/

namespace SmallMl

def Event.isPrompt : Event → Bool
  | prompt _ => true
  | _ => false

/-! ### The first visible character -/

namespace Blank

def visible? (cs : List Char) : Option Char := (cs.dropWhile isSpace).head?

theorem head?_trim (cs : List Char) : (trim cs).head? = visible? cs := by
  rw [trim, visible?]
  cases h : cs.dropWhile isSpace with
  | nil => rfl
  | cons c r =>
    have hc : isSpace c = false := by
      have hh := List.head?_dropWhile_not isSpace cs
      rw [h] at hh
      exact hh
    rw [List.reverse_cons, List.dropWhile_append]
    split <;> simp [hc]

theorem visible?_append (cs ds : List Char) :
    visible? (cs ++ ds) = (visible? cs).or (visible? ds) := by
  rw [visible?, visible?, List.dropWhile_append]
  cases h : cs.dropWhile isSpace with
  | nil => simp [visible?]
  | cons c r => simp

theorem isSpace_of_isBlank {c : Char} (h : Lexeme.isBlank c = true) : isSpace c = true := by
  rcases Lexeme.eq_of_isBlank h with rfl | rfl | rfl | rfl <;> decide

theorem toNat_of_isSpace {c : Char} (h : isSpace c = true) :
    c.val.toNat ≤ 32 ∨ 128 ≤ c.val.toNat := by
  simp only [isSpace, Char.toNat, Bool.or_eq_true, Bool.and_eq_true, decide_eq_true_eq,
    beq_iff_eq] at h
  omega

theorem read_isSpace {c : Char} (h : isSpace c = true) (r : List Char) :
    (Lexeme.read c r).found = .error (.invalidCharacter c) := by
  have hn := toNat_of_isSpace h
  have hl : Lexeme.isLetter c = false := by
    simp only [Lexeme.isLetter, Bool.or_eq_false_iff, Bool.and_eq_false_iff,
      decide_eq_false_iff_not, Char.le_def, UInt32.le_iff_toNat_le]
    have ha : ('a' : Char).val.toNat = 97 := rfl
    have hz : ('z' : Char).val.toNat = 122 := rfl
    have hA : ('A' : Char).val.toNat = 65 := rfl
    have hZ : ('Z' : Char).val.toNat = 90 := rfl
    omega
  have hd : Digits.isDigit c = false := by
    simp only [Digits.isDigit, Bool.and_eq_false_iff, decide_eq_false_iff_not, Char.le_def,
      UInt32.le_iff_toNat_le]
    have h0 : ('0' : Char).val.toNat = 48 := rfl
    have h9 : ('9' : Char).val.toNat = 57 := rfl
    omega
  have ho : Lexeme.isOperatorChar c = false := by
    refine Bool.eq_false_iff.2 fun ho => ?_
    simp only [Lexeme.isOperatorChar, Bool.or_eq_true, decide_eq_true_eq] at ho
    rcases ho with (((((rfl | rfl) | rfl) | rfl) | rfl) | rfl) | rfl <;> cases h
  have hp : c ≠ '(' := by
    rintro rfl
    cases h
  have hm : Kind.ofMark? c = none := by
    unfold Kind.ofMark?
    split <;> first | rfl | cases h
  simp [Lexeme.read, hl, hd, ho, hp, hm]

end Blank

/-! ### What needs more -/

/-- The reader passes over no visible character. -/
theorem Blank.visible?_dropWhile (cs : List Char) :
    visible? (cs.dropWhile Lexeme.isBlank) = visible? cs := by
  induction cs with
  | nil => rfl
  | cons c cs ih =>
    cases hc : Lexeme.isBlank c with
    | true =>
      rw [List.dropWhile_cons_of_pos hc, ih, visible?, visible?,
        List.dropWhile_cons_of_pos (isSpace_of_isBlank hc)]
    | false => rw [List.dropWhile_cons_of_neg (by simp [hc])]

namespace Program

/-- An error at the first token decides whether more is needed. -/
theorem needsMore_of_halts {text : List Char} {p : Parse} {d : Diagnostic}
    (h : Parse.Halts .initial (.ofText {} text) p) (hd : p.result = .error d) :
    needsMore text = d.atEnd :=
  needsMore_eq_of_error (by rw [parse, Parse.run_of_halts h, hd])

/-- **A text with a colon in front, or with nothing visible, needs no more.** -/
theorem needsMore_of_visible {text : List Char} (h : ∀ c ∈ Blank.visible? text, c = ':') :
    needsMore text = false := by
  rw [← Blank.visible?_dropWhile] at h
  cases hb : (Stream.ofText {} text).body with
  | nil =>
    have hn := Stream.next_of_body_nil hb
    have hp : parse {} text = _ := Parse.run_of_halts (.finish (by rw [hn]) rfl rfl)
    rw [needsMore, hp, hn]
    rfl
  | cons c r =>
    have hr : (Stream.ofText {} text).read.1
        = (Stream.ofText {} text).result (Lexeme.read c r) := by
      rw [Stream.read, hb]
    cases hs : Blank.isSpace c with
    | true =>
      -- the session trims it, but it is no blank of a program
      rw [Stream.result, Blank.read_isSpace hs] at hr
      have hn := Stream.next_of_error hr
      rw [← hn] at hr
      rw [needsMore_of_halts (.fault hr) rfl]
      rfl
    | false =>
      have hc : c = ':' := h c (by rw [show text.dropWhile Lexeme.isBlank = c :: r from hb,
        Blank.visible?, List.dropWhile_cons_of_neg (by simp [hs])]; rfl)
      subst hc
      have hn := Stream.next_of_token hr rfl
      rw [← hn] at hr
      rw [needsMore_of_halts (.issue hr rfl) rfl]
      rfl

end Program

namespace Session

/-! ### Texts with a colon in front -/

def StartsWithColon (text : List Char) : Prop := (Blank.trim text).head? = some ':'

instance : DecidablePred StartsWithColon := fun _ => inferInstanceAs (Decidable (_ = _))

theorem startsWithColon_iff {text : List Char} :
    StartsWithColon text ↔ Blank.visible? text = some ':' := by
  rw [StartsWithColon, Blank.head?_trim]

theorem StartsWithColon.needsMore {text : List Char} (h : StartsWithColon text) :
    Program.needsMore text = false := by
  refine Program.needsMore_of_visible fun c hc => ?_
  rw [startsWithColon_iff.1 h] at hc
  exact (Option.mem_some_iff.1 hc).symm

/-- **No command begins with a text that needs more.** -/
theorem not_startsWithColon_append {text : List Char} (h : Program.needsMore text = true)
    (more : List Char) : ¬ StartsWithColon (text ++ more) := by
  rw [startsWithColon_iff, Blank.visible?_append]
  intro hc
  have hn : Program.needsMore text = false := by
    refine Program.needsMore_of_visible fun c hv => ?_
    rw [Option.mem_def.1 hv] at hc
    exact Option.some.inj hc
  rw [hn] at h
  cases h

theorem StartsWithColon.append {text : List Char} (h : StartsWithColon text) (more : List Char) :
    StartsWithColon (text ++ more) := by
  rw [startsWithColon_iff] at h ⊢
  rw [Blank.visible?_append, h]
  rfl

theorem joined_singleton (l : List Char) : joined [l] = l := by simp [joined]

theorem exists_joined_cons (l : List Char) (ls : List (List Char)) :
    ∃ more, joined (l :: ls) = l ++ more := by
  cases ls with
  | nil => exact ⟨[], by rw [joined_singleton, List.append_nil]⟩
  | cons m ls => exact ⟨_, by rw [joined, List.intercalate_cons_cons, List.append_assoc]⟩

theorem Submits.eq_singleton {ls : List (List Char)} {closing : Option (List Char)}
    (h : Submits ls closing) (hc : StartsWithColon (joined ls)) :
    (∃ l, ls = [l]) ∧ closing = none := by
  obtain ⟨l, rest, rfl⟩ := List.exists_cons_of_ne_nil h.ne_nil
  have hrest : rest = [] := by
    by_contra hrest
    -- otherwise the first line needs more, and the text starts with it
    have hl := h.incomplete [l] (by simp) (by simp) (by simpa using Ne.symm hrest)
    rw [joined_singleton] at hl
    obtain ⟨more, hmore⟩ := exists_joined_cons l rest
    rw [hmore] at hc
    exact not_startsWithColon_append hl more hc
  subst hrest
  refine ⟨⟨l, rfl⟩, ?_⟩
  cases closing with
  | none => rfl
  | some b =>
    have hn := hc.needsMore
    rw [h.ends.1] at hn
    cases hn

/-! ### What is done with a text -/

inductive Deed
  | nothing
  | command (cmd : List Char)
  | program (text : List Char)
  deriving DecidableEq

namespace Deed

def ofText (text : List Char) : Deed :=
  if Blank.trim text = [] then nothing
  else if StartsWithColon text then command (Blank.trim text)
  else program text

def reply (s : Session) : Deed → Reply
  | nothing => ⟨[], s, true⟩
  | command cmd => s.command cmd
  | program text => ⟨remembered s.remembers text ++ s.eval text, s, true⟩

theorem exists_command_iff {text : List Char} :
    (∃ cmd, ofText text = command cmd) ↔ StartsWithColon text := by
  have hn : StartsWithColon text → Blank.trim text ≠ [] := by
    intro h he
    rw [StartsWithColon, he] at h
    cases h
  rw [ofText]
  constructor
  · rintro ⟨cmd, h⟩
    split at h
    · cases h
    split at h
    · assumption
    · cases h
  · intro h
    rw [if_neg (hn h), if_pos h]
    exact ⟨_, rfl⟩

theorem eq_of_program {text text' : List Char} (h : ofText text = program text') :
    text' = text := by
  rw [ofText] at h
  split at h
  · cases h
  split at h <;> cases h
  rfl

end Deed

/-- A session does with a text what is to be done with it. -/
theorem submit_eq_reply (s : Session) (text : List Char) :
    s.submit text = (Deed.ofText text).reply s := by
  rw [Deed.ofText]
  cases h : Blank.trim text with
  | nil => exact submit_blank h
  | cons c cs =>
    have hw : StartsWithColon text ↔ c = ':' := by simp [StartsWithColon, h]
    rw [if_neg (by simp)]
    by_cases hc : c = ':'
    · rw [if_pos (hw.2 hc)]
      subst hc
      exact submit_command h
    · rw [if_neg (mt hw.1 hc)]
      exact submit_program h hc

/-- What a command can have to show. -/
theorem command_events (s : Session) (cmd : List Char) : ∀ e ∈ (s.command cmd).events,
    (∃ l ∈ helpText, e = .out (line l)) ∨
      e = .err (line ("unknown command " ++ String.ofList cmd ++ "; type :help")) := by
  intro e he
  unfold command at he
  split at he
  · cases he
  · cases he
  · cases he
  · cases he
  · obtain ⟨l, hl, rfl⟩ := List.mem_map.1 he
    exact .inl ⟨l, hl, rfl⟩
  · exact .inr (List.mem_singleton.1 he)

/-- What an evaluation can have to show. -/
theorem eval_events (s : Session) (text : List Char) : ∀ e ∈ s.eval text,
    (∃ t, e = .out t) ∨ ∃ t, e = .err t := by
  have hshown : ∀ p, ∀ e ∈ s.shown p, ∃ t, e = .out t := by
    intro p e he
    unfold shown at he
    split at he
    · exact ⟨_, List.mem_singleton.1 he⟩
    · obtain ⟨x, -, rfl⟩ := List.mem_map.1 he
      exact ⟨_, rfl⟩
  intro e he
  unfold eval at he
  rcases List.mem_append.1 he with he | he
  · obtain ⟨d, -, rfl⟩ := List.mem_map.1 he
    exact .inr ⟨_, rfl⟩
  · split at he
    · exact .inr ⟨_, List.mem_singleton.1 he⟩
    · exact .inl (hshown _ e he)

/-- What comes of a deed is seen, or it is a program that is remembered. -/
theorem Deed.reply_events (s : Session) (d : Deed) : ∀ e ∈ (d.reply s).events,
    (∃ t, e = .out t) ∨ (∃ t, e = .err t) ∨
      ∃ text, s.remembers = true ∧ d = .program text ∧ e = .history (historyEntry text) := by
  intro e he
  cases d with
  | nothing => cases he
  | command cmd =>
    rcases command_events s cmd e he with ⟨l, -, rfl⟩ | rfl
    · exact .inl ⟨_, rfl⟩
    · exact .inr (.inl ⟨_, rfl⟩)
  | program text =>
    rcases List.mem_append.1 he with he | he
    · rw [remembered] at he
      split at he
      · next hs => exact .inr (.inr ⟨text, hs, rfl, List.mem_singleton.1 he⟩)
      · cases he
    · rcases eval_events s text e he with ⟨t, rfl⟩ | ⟨t, rfl⟩
      · exact .inl ⟨t, rfl⟩
      · exact .inr (.inl ⟨t, rfl⟩)

/-- A text is remembered if it is to be read as a program and somebody remembers. -/
theorem history_mem_submit (s : Session) (text : List Char) (e : String) :
    .history e ∈ (s.submit text).events ↔
      s.remembers = true ∧ Deed.ofText text = .program text ∧ e = historyEntry text := by
  rw [submit_eq_reply]
  constructor
  · intro he
    rcases Deed.reply_events _ _ _ he with ⟨_, hx⟩ | ⟨_, hx⟩ | ⟨text', hs, hd, hx⟩ <;> cases hx
    obtain rfl := Deed.eq_of_program hd
    exact ⟨hs, hd, rfl⟩
  · rintro ⟨hs, hd, rfl⟩
    rw [hd, Deed.reply, remembered, if_pos hs]
    exact List.mem_cons_self

/-- Nothing but the mode is changed. -/
theorem Deed.session_reply (tree remembers : Bool) (d : Deed) :
    (d.reply (start tree remembers)).session
      = start (d.reply (start tree remembers)).session.tree remembers := by
  cases d with
  | nothing => rfl
  | command cmd => exact session_command tree remembers cmd
  | program text => rfl

def onOneLine (c : Char) : Char := if c = '\n' then ' ' else c

theorem toList_historyEntry (text : List Char) :
    (historyEntry text).toList = text.map onOneLine := String.toList_ofList

theorem startsWithColon_historyEntry {text : List Char} :
    StartsWithColon (historyEntry text).toList ↔ StartsWithColon text := by
  have hs : Blank.isSpace ∘ onOneLine = Blank.isSpace := by
    funext c
    rw [Function.comp_apply, onOneLine]
    split
    · next h => rw [h]; rfl
    · rfl
  have hc : ∀ c, onOneLine c = ':' ↔ c = ':' := by
    intro c
    rw [onOneLine]
    split
    · next h => simp [h]
    · rfl
  simp only [startsWithColon_iff, Blank.visible?, toList_historyEntry, List.dropWhile_map, hs,
    List.head?_map, Option.map_eq_some_iff, hc, exists_eq_right]

/-! ### The groups of a script -/

/-- A group of lines that is submitted, in the mode `tree`, by the blank line `closing` if there is
one and by the last of the lines otherwise. -/
structure Group where
  tree : Bool
  lines : List (List Char)
  closing : Option (List Char)
  deriving DecidableEq

namespace Group

def text (g : Group) : List Char := joined g.lines

def deed (g : Group) : Deed := .ofText g.text

def reply (remembers : Bool) (g : Group) : Reply := (start g.tree remembers).submit g.text

end Group

/-- The group that the line `l` submits behind the lines `ls`. -/
def submitted? (tree : Bool) (ls : List (List Char)) (l : List Char) : Option Group :=
  if ls ≠ [] ∧ Blank.isBlank l = true then some ⟨tree, ls, some l⟩
  else if Program.needsMore (joined (ls ++ [l])) then none
  else some ⟨tree, ls ++ [l], none⟩

/-- The groups that are submitted while a script is read behind the lines `ls`. -/
def groups (remembers tree : Bool) (ls : List (List Char)) : List Input → List Group
  | [] => []
  | .abort :: script => groups remembers tree [] script
  | .failure :: _ => []
  | .line l :: script =>
    match submitted? tree ls l with
    | none => groups remembers tree (ls ++ [l]) script
    | some g =>
      let r := g.reply remembers
      g :: if r.goesOn then groups remembers r.session.tree [] script else []

/-- What is seen of the groups: the replies to them, and a line break unless a command ends the
session. -/
def said (remembers : Bool) (gs : List Group) : List Event :=
  gs.flatMap (fun g => (g.reply remembers).events) ++
    if gs.all fun g => (g.reply remembers).goesOn then [.out "\n"] else []

theorem said_cons (remembers : Bool) (g : Group) (gs : List Group) :
    said remembers (g :: if (g.reply remembers).goesOn then gs else [])
      = (g.reply remembers).events ++
        if (g.reply remembers).goesOn then said remembers gs else [] := by
  cases h : (g.reply remembers).goesOn <;> simp [said, h]

/-- The events of a run, the prompts aside. -/
def Run.seen (r : Run) : List Event := r.events.filter (!Event.isPrompt ·)

section

variable {tree remembers : Bool} {ls : List (List Char)}

theorem filter_reply (remembers : Bool) (g : Group) :
    (g.reply remembers).events.filter (!Event.isPrompt ·) = (g.reply remembers).events := by
  refine List.filter_eq_self.2 fun e he => ?_
  rw [Group.reply, submit_eq_reply] at he
  rcases Deed.reply_events _ _ e he with ⟨_, rfl⟩ | ⟨_, rfl⟩ | ⟨_, -, -, rfl⟩ <;> rfl

theorem seen_behind (g : Group) (script : List Input) :
    (behind (g.reply remembers) script).seen
      = (g.reply remembers).events ++
        if (g.reply remembers).goesOn then
          (run (start (g.reply remembers).session.tree remembers) script).seen
        else [] := by
  have hs : (g.reply remembers).session = start (g.reply remembers).session.tree remembers := by
    rw [Group.reply, submit_eq_reply]
    exact Deed.session_reply _ _ _
  rw [behind]
  split
  · rw [← hs, Run.seen, Run.after, List.filter_append, filter_reply, Run.seen]
  · rw [Run.seen, filter_reply, List.append_nil]

/-- The prompt in front of an entry is no part of what is seen. -/
theorem seen_run_cons (s : Session) (i : Input) (script : List Input) :
    (run s (i :: script)).seen = (behind (s.feed i) script).seen := by
  rw [run_cons]
  rfl

/-- A line is added to the others, or it submits a group. -/
theorem feed_line (h : Pending ls) (tree remembers : Bool) (l : List Char) :
    match submitted? tree ls l with
    | none => Pending (ls ++ [l]) ∧
        (typing tree remembers ls).feed (.line l) = ⟨[], typing tree remembers (ls ++ [l]), true⟩
    | some g => Submits g.lines g.closing ∧
        (typing tree remembers ls).feed (.line l) = g.reply remembers := by
  unfold submitted?
  by_cases hb : ls ≠ [] ∧ Blank.isBlank l = true
  · rw [if_pos hb]
    exact ⟨h.submits_blank hb.1 hb.2, feed_blank h hb.1 hb.2⟩
  have hb' : ls ≠ [] → Blank.isBlank l = false := fun hn =>
    Bool.eq_false_iff.2 fun h => hb ⟨hn, h⟩
  rw [if_neg hb]
  cases hm : Program.needsMore (joined (ls ++ [l])) with
  | true => exact ⟨h.concat hb' hm, feed_more (h.concat hb' hm)⟩
  | false => exact ⟨h.submits hb' hm, feed_complete h hb' hm⟩

/-- **What is seen of a run** are the replies to the groups of the script. -/
theorem seen_run (h : Pending ls) (script : List Input) :
    (run (typing tree remembers ls) script).seen
      = said remembers (groups remembers tree ls script) := by
  induction script generalizing tree ls with
  | nil => rfl
  | cons i script ih =>
    rw [seen_run_cons]
    cases i with
    | abort => exact ih .nil
    | failure => rfl
    | line l =>
      have hl := feed_line h tree remembers l
      rw [groups]
      cases hg : submitted? tree ls l with
      | none =>
        rw [hg] at hl
        rw [hl.2]
        exact ih hl.1
      | some g =>
        rw [hg] at hl
        rw [hl.2, seen_behind, said_cons]
        congr 2
        exact ih .nil

theorem submits_of_mem_groups (h : Pending ls) (script : List Input) :
    ∀ g ∈ groups remembers tree ls script, Submits g.lines g.closing := by
  induction script generalizing tree ls with
  | nil => simp [groups]
  | cons i script ih =>
    cases i with
    | abort => exact ih .nil
    | failure => simp [groups]
    | line l =>
      have hl := feed_line h tree remembers l
      rw [groups]
      cases hg : submitted? tree ls l with
      | none =>
        rw [hg] at hl
        exact ih hl.1
      | some g =>
        rw [hg] at hl
        refine List.forall_mem_cons.2 ⟨hl.1, fun g' hg' => ?_⟩
        split at hg'
        · exact ih .nil g' hg'
        · cases hg'

/-- What is remembered in a run are programs of its groups. -/
theorem history_mem_run {script : List Input} {e : String}
    (h : .history e ∈ (run (start tree remembers) script).events) :
    ∃ g ∈ groups remembers tree [] script, g.deed = .program g.text ∧ e = historyEntry g.text := by
  have hseen : .history e ∈ (run (typing tree remembers []) script).seen :=
    List.mem_filter.2 ⟨h, rfl⟩
  rw [seen_run .nil, said] at hseen
  rcases List.mem_append.1 hseen with hm | hm
  · obtain ⟨g, hg, he⟩ := List.mem_flatMap.1 hm
    obtain ⟨-, hd, rfl⟩ := (history_mem_submit _ _ _).1 he
    exact ⟨g, hg, hd, rfl⟩
  · split at hm <;> simp at hm

end

/-! ### Commands -/

/-- A group is dealt with by what its text is, and a command in it stands alone. -/
structure Group.StandsAlone (remembers : Bool) (g : Group) : Prop where
  submits : Submits g.lines g.closing
  reply : g.reply remembers = g.deed.reply (start g.tree remembers)
  /-- A command is a single line with a colon in front, white space aside. -/
  isCommand_iff : (∃ cmd, g.deed = .command cmd) ↔ ∃ l, g.lines = [l] ∧ StartsWithColon l
  /-- Such a line is not joined with later ones. -/
  notJoined : ∀ l rest, g.lines = l :: rest → StartsWithColon l → rest = [] ∧ g.closing = none
  /-- Several lines never start like that. -/
  notLater : 2 ≤ g.lines.length → ¬ StartsWithColon g.text
  /-- A command is neither remembered nor read as a program. -/
  events : ∀ cmd, g.deed = .command cmd → ∀ e ∈ (g.reply remembers).events,
    (∃ l ∈ helpText, e = .out (line l)) ∨
      e = .err (line ("unknown command " ++ String.ofList cmd ++ "; type :help"))

theorem Group.standsAlone {g : Group} (h : Submits g.lines g.closing) (remembers : Bool) :
    g.StandsAlone remembers where
  submits := h
  reply := submit_eq_reply _ _
  isCommand_iff := by
    rw [deed, Deed.exists_command_iff, text]
    constructor
    · intro hc
      obtain ⟨⟨l, hl⟩, -⟩ := h.eq_singleton hc
      rw [hl, joined_singleton] at hc
      exact ⟨l, hl, hc⟩
    · rintro ⟨l, hl, hc⟩
      rwa [hl, joined_singleton]
  notJoined := by
    intro l rest hl hc
    obtain ⟨more, hmore⟩ := exists_joined_cons l rest
    obtain ⟨⟨m, hm⟩, hnone⟩ := h.eq_singleton (by rw [hl, hmore]; exact hc.append more)
    rw [hl] at hm
    exact ⟨(List.cons.inj hm).2, hnone⟩
  notLater := by
    intro hlen hc
    obtain ⟨⟨l, hl⟩, -⟩ := h.eq_singleton hc
    rw [hl, List.length_singleton] at hlen
    omega
  events := by
    intro cmd hd e he
    rw [reply, submit_eq_reply] at he
    rw [deed] at hd
    rw [hd] at he
    exact command_events _ _ e he

/-- **Commands stand alone.**  What is seen of a run are the replies to its groups.  A group is a
command exactly if it is a single line with a colon in front, white space aside.  Such a line never
needs more, so it is not joined with later ones, and several lines never start like that.  A command
is neither remembered nor read as a program. -/
theorem commands_stand_alone (tree remembers : Bool) (script : List Input) :
    (run (start tree remembers) script).seen = said remembers (groups remembers tree [] script) ∧
      (∀ g ∈ groups remembers tree [] script, g.StandsAlone remembers) ∧
      (∀ l, StartsWithColon l → Program.needsMore l = false) ∧
      ∀ e, .history e ∈ (run (start tree remembers) script).events →
        ¬ StartsWithColon e.toList ∧
          ∃ g ∈ groups remembers tree [] script,
            g.deed = .program g.text ∧ e = historyEntry g.text := by
  refine ⟨seen_run .nil script,
    fun g hg => Group.standsAlone (submits_of_mem_groups .nil script g hg) remembers,
    fun l hl => hl.needsMore, fun e he => ?_⟩
  obtain ⟨g, hg, hd, rfl⟩ := history_mem_run he
  refine ⟨fun hc => ?_, g, hg, hd, rfl⟩
  obtain ⟨cmd, hcmd⟩ := Deed.exists_command_iff.2 (startsWithColon_historyEntry.1 hc)
  rw [Group.deed, hcmd] at hd
  cases hd

/-- A command behind a no-break space, and the same behind an open parenthesis. -/
theorem commands_stand_alone_behind_paren :
    StartsWithColon "\u00A0:q".toList ∧ Program.needsMore "\u00A0:q".toList = false ∧
      ∃ g ∈ groups true false [] [.line ['('], .line "\u00A0:q".toList],
        g.lines = [['('], "\u00A0:q".toList] ∧ ¬ StartsWithColon g.text ∧
          ¬ ∃ cmd, g.deed = .command cmd := by
  obtain ⟨d, hd, hdend⟩ : ∃ d, (Parse.runWithin 3 .initial (.ofText {} ['('])).map Parse.result
      = some (.error d) ∧ d.atEnd = true := ⟨_, rfl, rfl⟩
  obtain ⟨e, he, heend⟩ : ∃ e, (Parse.runWithin 3 .initial (.ofText {}
      ['(', '\n', '\u00A0', ':', 'q'])).map Parse.result = some (.error e) ∧ e.atEnd = false :=
    ⟨_, rfl, rfl⟩
  have hopen := Program.needsMore_eq_of_error (Program.result_parse_of_within hd)
  have hclosed := Program.needsMore_eq_of_error (Program.result_parse_of_within he)
  obtain ⟨-, hgroups, hcolon, -⟩ :=
    commands_stand_alone false true [.line ['('], .line "\u00A0:q".toList]
  have hg : ⟨false, [['('], "\u00A0:q".toList], none⟩
      ∈ groups true false [] [.line ['('], .line "\u00A0:q".toList] := by
    have h₁ : submitted? false [] ['('] = none := by
      rw [submitted?, if_neg (by simp), List.nil_append, joined_singleton, hopen, hdend]
      rfl
    have h₂ : submitted? false [['(']] "\u00A0:q".toList
        = some ⟨false, [['('], "\u00A0:q".toList], none⟩ := by
      have hn : Program.needsMore (joined ([['(']] ++ ["\u00A0:q".toList])) = false :=
        hclosed.trans heend
      rw [submitted?, if_neg (by decide), hn]
      rfl
    rw [groups, h₁]
    dsimp only
    rw [List.nil_append, groups, h₂]
    exact List.mem_cons_self
  have hs := hgroups _ hg
  have hlater := hs.notLater (by simp)
  refine ⟨by decide, hcolon _ (by decide), _, hg, rfl, hlater, fun hc => ?_⟩
  obtain ⟨l, hl, -⟩ := hs.isCommand_iff.1 hc
  simp at hl

end Session

end SmallMl
