import SmallMl.Proofs.Text.Lines
import SmallMl.Proofs.Token.Closing
import SmallMl.Proofs.Tree.Traversal
import Mathlib.Data.List.Forall2

/-!
# Outlines as texts

What the lines of an outline show can be told from the text alone.  A line stands in by blanks, and
its first word says what it is: the name of a role has a colon behind it, a parameter starts with
its place, and a node with its kind (`Line.showsNode_body`).  No line has a line break in it
(`Line.oneLine_body`), so splitting the text at its line breaks gives the lines
(`Node.splitOn_outlineText`).

So the lines of the text that are left without roles and parameters are those of the nodes that a
walk comes to (`Node.walk_eq_outline`).
-/

namespace SmallMl

open Lexeme (isLetter not_isDigit_of_isLetter)

/-- What `f` makes of the members of a list is related to them if it is so one by one. -/
theorem forall₂_filterMap {α β : Type} {R : α → β → Prop} {f : α → Option β} {l : List α}
    (h : ∀ a ∈ l, ∃ b, f a = some b ∧ R a b) : List.Forall₂ R l (l.filterMap f) := by
  induction l with
  | nil => exact .nil
  | cons a l ih =>
    obtain ⟨⟨b, hb, hr⟩, hl⟩ := List.forall_mem_cons.1 h
    rw [List.filterMap_cons_some hb]
    exact .cons hr (ih hl)

namespace Line

/-! ### Lines of a text -/

/-- The first word of a written line, behind the blanks in front. -/
def firstWord (cs : List Char) : List Char := (cs.dropWhile (· == ' ')).takeWhile (· != ' ')

/-- The written line names the role of what stands below: its first word ends in a colon. -/
def namesRole (cs : List Char) : Bool := (firstWord cs).getLast? == some ':'

/-- The written line shows a parameter: it starts with a place, so with a digit or a sign. -/
def showsParam (cs : List Char) : Bool :=
  (firstWord cs).head?.any fun c => Digits.isDigit c || c == '-'

def showsNode (cs : List Char) : Bool := !namesRole cs && !showsParam cs

/-- The written line is that of the node `m`, `d` steps in: two blanks for each step, the kind of
the node and its range.  Anything else stands behind a blank. -/
def Shows (d : Nat) (m : Node) (cs : List Char) : Prop :=
  ∃ r, cs = List.replicate (2 * d) ' ' ++ (m.typeName.toList ++ ' ' :: (m.range.render.toList ++ r))
    ∧ ∀ c ∈ r.head?, c = ' '

theorem firstWord_append (k : Nat) {w r : List Char} (hne : w ≠ []) (hw : ' ' ∉ w)
    (hr : ∀ c ∈ r.head?, c = ' ') : firstWord (List.replicate k ' ' ++ (w ++ r)) = w := by
  have hword : ∀ c ∈ w, (c != ' ') = true := fun c hc => bne_iff_ne.2 (ne_of_mem_of_not_mem hc hw)
  obtain ⟨c, w, rfl⟩ := List.exists_cons_of_ne_nil hne
  have hc : (c == ' ') = false := by simpa using hword c List.mem_cons_self
  have hdrop : (List.replicate k ' ' ++ (c :: w ++ r)).dropWhile (· == ' ') = c :: w ++ r := by
    rw [List.dropWhile_append_of_pos fun b hb => by simp [List.eq_of_mem_replicate hb]]
    exact List.dropWhile_cons_of_neg (by simp [hc])
  rw [firstWord, hdrop, List.takeWhile_append_of_pos hword]
  cases r with
  | nil => simp
  | cons b r =>
    rw [hr b rfl, List.takeWhile_cons_of_neg (by decide), List.append_nil]

/-! ### What lines show -/

def body (l : Line) : String := String.ofList (List.replicate (2 * l.depth) ' ') ++ l.entry.text

theorem toList_body (l : Line) :
    l.body.toList = List.replicate (2 * l.depth) ' ' ++ l.entry.text.toList := by
  rw [body, String.toList_append, String.toList_ofList]

end Line

theorem Node.isLetter_typeName {m : Node} (h : m.isMissing = false) :
    m.typeName.toList ≠ [] ∧ m.typeName.toList.all isLetter = true := by
  cases m with
  | program p =>
    rw [typeName]
    decide
  | expr e =>
    rw [typeName]
    cases e with
    | missing => cases h
    | _ =>
      rw [Expr.typeName]
      decide

theorem not_mem_of_isLetter {cs : List Char} {d : Char} (h : cs.all isLetter = true)
    (hd : isLetter d = false) : d ∉ cs := by
  intro hmem
  rw [List.all_eq_true.1 h d hmem] at hd
  cases hd

theorem Expr.head?_details (e : Expr) : ∀ c ∈ e.details.toList.head?, c = ' ' := by
  cases e with
  | bool r b => cases b <;> simp [details]
  | _ => simp [details]

namespace Line

variable {d : Nat} {m : Node} {cs : List Char}

theorem shows_body (d : Nat) (m : Node) : Shows d m (body ⟨d, .node m⟩).toList := by
  rw [toList_body]
  cases m with
  | program p => exact ⟨[], by simp [Entry.text, Node.headline, Node.range], by simp⟩
  | expr e =>
    refine ⟨e.details.toList, ?_, e.head?_details⟩
    simp [Entry.text, Node.headline, Node.range, Node.typeName]

theorem Shows.showsNode (h : Shows d m cs) (hm : m.isMissing = false) : showsNode cs = true := by
  obtain ⟨r, rfl, -⟩ := h
  obtain ⟨hne, hall⟩ := Node.isLetter_typeName hm
  have hf := firstWord_append (2 * d) hne (not_mem_of_isLetter hall (by decide))
    (r := ' ' :: (m.range.render.toList ++ r)) (by simp)
  rw [Line.showsNode, namesRole, showsParam, hf]
  have hl : m.typeName.toList.getLast? ≠ some ':' := fun hl =>
    not_mem_of_isLetter hall (by decide) (List.mem_of_getLast? hl)
  have hh : (m.typeName.toList.head?.any fun c => Digits.isDigit c || c == '-') = false := by
    obtain ⟨c, w, hc⟩ := List.exists_cons_of_ne_nil hne
    have hmem : c ∈ m.typeName.toList := hc ▸ List.mem_cons_self
    rw [hc, List.head?_cons, Option.any_some,
      not_isDigit_of_isLetter (List.all_eq_true.1 hall c hmem), Bool.false_or]
    exact beq_false_of_ne (ne_of_mem_of_not_mem hmem (not_mem_of_isLetter hall (by decide)))
  rw [beq_false_of_ne hl, hh]
  rfl

end Line

/-- What stands in an outline: a node that is not missing, a role that is named by a word of
letters, or a parameter. -/
def Entry.Stands : Entry → Prop
  | node m => m.isMissing = false
  | role name => name.toList.all isLetter = true
  | param _ => True

namespace Expr

theorem stands_outlineList {es : List Expr}
    (h : ∀ e ∈ es, ∀ d, ∀ l ∈ outline d e, l.entry.Stands) (d : Nat) :
    ∀ l ∈ outlineList d es, l.entry.Stands := by
  induction es with
  | nil => exact fun l hl => nomatch hl
  | cons e es ih =>
    obtain ⟨he, hes⟩ := List.forall_mem_cons.1 h
    rw [outlineList, List.forall_mem_append]
    exact ⟨he d, ih hes⟩

theorem stands_outlineOption {o : Option Expr} {role : String}
    (h : ∀ e ∈ o, ∀ d, ∀ l ∈ outline d e, l.entry.Stands)
    (hr : role.toList.all isLetter = true) (d : Nat) :
    ∀ l ∈ outlineOption d role o, l.entry.Stands := by
  cases o with
  | none => exact fun l hl => nomatch hl
  | some e =>
    rw [outlineOption, List.forall_mem_cons]
    exact ⟨hr, h e rfl (d + 1)⟩

/-- **Every line of an outline shows something that is there.** -/
theorem stands_outline (e : Expr) : ∀ d, ∀ l ∈ outline d e, l.entry.Stands := by
  induction e with
  | missing => exact fun _ l hl => nomatch hl
  | bool | int | float | unit | var =>
    intro d
    rw [outline, List.forall_mem_singleton]
    exact rfl
  | unary r op x hx =>
    intro d
    rw [outline, List.forall_mem_cons]
    exact ⟨rfl, hx _⟩
  | binary r op x y hx hy =>
    intro d
    simp only [outline, List.forall_mem_cons, List.forall_mem_append]
    exact ⟨rfl, ⟨rfl, hx _⟩, rfl, hy _⟩
  | cond r c y n i e hc hy hn =>
    intro d
    simp only [outline, List.forall_mem_cons, List.forall_mem_append]
    exact ⟨rfl, ⟨⟨rfl, hc _⟩, rfl, hy _⟩, stands_outlineOption hn rfl _⟩
  | bind r b x n hx hn =>
    intro d
    simp only [outline, List.forall_mem_cons, List.forall_mem_append]
    exact ⟨rfl, ⟨rfl, hx _⟩, stands_outlineOption hn rfl _⟩
  | bindRec r f ps x n hx hn =>
    intro d
    simp only [outline, List.forall_mem_cons, List.forall_mem_append, List.forall_mem_map]
    exact ⟨rfl, ⟨⟨rfl, fun _ _ => trivial⟩, rfl, hx _⟩, stands_outlineOption hn rfl _⟩
  | get r a i ha hi =>
    intro d
    simp only [outline, List.forall_mem_cons, List.forall_mem_append]
    exact ⟨rfl, ⟨rfl, ha _⟩, rfl, hi _⟩
  | put r a i v ha hi hv =>
    intro d
    simp only [outline, List.forall_mem_cons, List.forall_mem_append]
    exact ⟨rfl, ⟨⟨rfl, ha _⟩, rfl, hi _⟩, rfl, hv _⟩
  | call r f as hf has =>
    intro d
    simp only [outline, List.forall_mem_cons, List.forall_mem_append]
    exact ⟨rfl, ⟨rfl, hf _⟩, rfl, stands_outlineList has _⟩

end Expr

namespace Line

/-- **The text of a line tells whether it shows a node.** -/
theorem showsNode_body {l : Line} (h : l.entry.Stands) : showsNode l.body.toList = l.isNode := by
  obtain ⟨d, e⟩ := l
  cases e with
  | node m => exact (shows_body d m).showsNode h
  | role name =>
    -- the word of a role ends in a colon
    have hword : ' ' ∉ name.toList ++ [':'] := by
      rw [List.mem_append, not_or]
      exact ⟨not_mem_of_isLetter h (by decide), by decide⟩
    have hf := firstWord_append (2 * d) (by simp) hword (r := []) (by simp)
    rw [List.append_nil] at hf
    have hb : (body ⟨d, .role name⟩).toList
        = List.replicate (2 * d) ' ' ++ (name.toList ++ [':']) := by
      rw [toList_body, Entry.text, String.toList_append]
      rfl
    have hr : namesRole (body ⟨d, .role name⟩).toList = true := by
      rw [hb, namesRole, hf, List.getLast?_concat]
      rfl
    rw [showsNode, hr]
    rfl
  | param b =>
    -- and that of a parameter is a place
    obtain ⟨c, cs, hcs, hc⟩ := b.range.exists_toList_render
    have hword : ' ' ∉ b.range.render.toList := fun hs =>
      absurd (Range.isMark_of_mem_render hs) (by decide)
    have hf := firstWord_append (2 * d) (hcs ▸ List.cons_ne_nil c cs) hword
      (r := (" " ++ Quoted.text b.name ++ " : " ++ Binder.typeText b.declared).toList) (by simp)
    have hb : (body ⟨d, .param b⟩).toList = List.replicate (2 * d) ' ' ++ (b.range.render.toList
        ++ (" " ++ Quoted.text b.name ++ " : " ++ Binder.typeText b.declared).toList) := by
      rw [toList_body, Entry.text]
      simp
    have hp : showsParam (body ⟨d, .param b⟩).toList = true := by
      rw [hb, showsParam, hf, hcs, List.head?_cons, Option.any_some]
      rcases hc with hc | rfl
      · rw [hc, Bool.true_or]
      · rfl
    rw [showsNode, hp, Bool.not_true, Bool.and_false]
    rfl

end Line

/-! ### Line breaks -/

theorem oneLine_of_isLetter {s : String} (h : s.toList.all isLetter = true) : OneLine s :=
  not_mem_of_isLetter h (by decide)

theorem Binder.oneLine_typeText : ∀ declared : Option Ty, OneLine (typeText declared)
  | none => by
    rw [typeText]
    decide
  | some t => t.oneLine_render

theorem Expr.oneLine_details (e : Expr) : OneLine e.details := by
  have hempty : OneLine "" := by decide
  have hb : OneLine " " := by decide
  have hname : ∀ b : Binder, OneLine
      (" " ++ Quoted.text b.name ++ " : " ++ Binder.typeText b.declared) := fun b =>
    ((hb.append (Quoted.oneLine_text _)).append (by decide)).append (Binder.oneLine_typeText _)
  cases e with
  | bool r b =>
    rw [details]
    cases b <;> decide
  | int r n => exact hb.append (Digits.oneLine_intText n)
  | float r v => exact hb.append v.oneLine_sourceText
  | var r name => exact hb.append (Quoted.oneLine_text name)
  | unary r op x => exact hb.append op.oneLine_name
  | binary r op x y => exact hb.append op.oneLine_name
  | bind r b x n => exact hname b
  | bindRec r f ps x n => exact hname f
  | missing | unit | cond | get | put | call => exact hempty

theorem Node.oneLine_headline {m : Node} (h : m.isMissing = false) : OneLine m.headline := by
  have hkind : OneLine (m.typeName ++ " " ++ m.range.render) :=
    ((oneLine_of_isLetter (isLetter_typeName h).2).append (by decide)).append m.range.oneLine_render
  cases m with
  | program p => exact hkind
  | expr e => exact hkind.append e.oneLine_details

theorem Entry.Stands.oneLine_text {e : Entry} (h : e.Stands) : OneLine e.text := by
  cases e with
  | node m => exact Node.oneLine_headline h
  | role name => exact (oneLine_of_isLetter h).append (by decide)
  | param b =>
    exact (((b.range.oneLine_render.append (by decide)).append (Quoted.oneLine_text _)).append
      (by decide)).append (Binder.oneLine_typeText _)

theorem Line.oneLine_body {l : Line} (h : l.entry.Stands) : OneLine l.body := by
  refine .append (oneLine_ofList ?_) h.oneLine_text
  rw [List.all_replicate]
  split <;> rfl

namespace Node

theorem stands_outline (n : Node) : ∀ l ∈ n.outline, l.entry.Stands := by
  cases n with
  | program p =>
    rw [outline, List.forall_mem_cons]
    exact ⟨rfl, Expr.stands_outlineList (fun e _ => e.stands_outline) 1⟩
  | expr e => exact e.stands_outline 0

/-- **The lines of the text of an outline are the lines of the outline.** -/
theorem splitOn_outlineText (n : Node) :
    n.outlineText.toList.splitOn '\n' = n.outline.map (fun l => l.body.toList) ++ [[]] := by
  have hbodies : ∀ s ∈ n.outline.map Line.body, OneLine s := by
    intro s hs
    obtain ⟨l, hl, rfl⟩ := List.mem_map.1 hs
    exact Line.oneLine_body (n.stands_outline l hl)
  have htext : n.outlineText = String.join ((n.outline.map Line.body).map (· ++ "\n")) ++ "" := by
    rw [String.append_empty, List.map_map]
    rfl
  rw [htext, splitOn_lines_append hbodies, List.map_map]
  rfl

/-- **The walk and the outline show the same nodes.**  A walk comes to the nodes whose ancestors the
visitor accepts, in order and to each once.  With a visitor that accepts every node these are the
nodes in the text of the outline: of its lines those that name roles or show parameters are removed,
and each line that is left shows the kind and the range of one node and stands in by the steps of
the ancestors. -/
theorem walk_eq_outline (n : Node) :
    (∀ v, ∃ ps, n.Visits v ps ∧ n.preorder v = ps.filterMap n.at?) ∧
      ∃ ps lines, n.Visits any ps ∧ n.preorder any = ps.filterMap n.at? ∧
        n.outlineText.toList.splitOn '\n' = lines ++ [[]] ∧
        List.Forall₂ (fun p l => ∃ m, n.at? p = some m ∧ Line.Shows (n.depth p) m l)
          ps (lines.filter Line.showsNode) := by
  obtain ⟨ps, hps, hwalk⟩ := n.preorder_eq any
  refine ⟨n.preorder_eq, ps, _, hps, hwalk, n.splitOn_outlineText, ?_⟩
  have hfilter : (n.outline.map fun l => l.body.toList).filter Line.showsNode
      = (n.outline.filter Line.isNode).map fun l => l.body.toList := by
    rw [List.filter_map]
    exact congrArg _ (List.filter_congr fun l hl => Line.showsNode_body (n.stands_outline l hl))
  rw [hfilter, filter_outline hps, List.map_filterMap]
  refine forall₂_filterMap fun p hp => ?_
  obtain ⟨m, hm⟩ := Option.isSome_iff_exists.1 ((hps.mem_iff p).1 hp).1
  exact ⟨_, by rw [hm]; rfl, m, hm, Line.shows_body _ m⟩

end Node

end SmallMl
