import SmallMl.Proofs.Grammar.WellFormed
import SmallMl.Proofs.Tree.Shape

/-!
# What the written forms of a program determine

Two programs with the same JSON form are the same (`Program.parse_record_injective`), and two
expressions of programs with the same line are the same up to places and declared types
(`Program.sexpText_eq_iff_shape_eq`).

Neither holds of all trees: the text of a type does not always tell a variable from what stands for
it, and a line does not tell a name with a blank in it from two names.  In a program, types are
plain (`Grammar.NodeOf.isPlain`), names are identifiers, numbers have no sign and operators are
known (`Grammar.NodeOf.legible`).
-/

namespace SmallMl

open Grammar

/-! ### Names -/

namespace Lexeme

open SmallMl.Expr (IsName)

theorem not_isDelimiter_of_isWordChar {c : Char} (h : isWordChar c = true) :
    Nested.isDelimiter c = false :=
  Nested.isDelimiter_eq_false rfl rfl rfl h

theorem not_isDelimiter_splitWord (cs : List Char) :
    ∀ c ∈ (splitWord cs).1, Nested.isDelimiter c = false := by
  induction cs with
  | nil => exact List.forall_mem_nil _
  | cons c r ih =>
    unfold splitWord
    split
    · next h =>
      refine List.forall_mem_cons.2 ⟨?_, ih⟩
      rcases Bool.or_eq_true_iff.1 h with hw | hp
      · exact not_isDelimiter_of_isWordChar hw
      · obtain ⟨hp, -⟩ := Bool.and_eq_true_iff.1 hp
        rw [of_decide_eq_true hp]
        rfl
    · exact List.forall_mem_nil _

/-- **An identifier is a name.** -/
theorem isName_of_found {c : Char} {r : List Char} (h : (read c r).found = .ok .ident) :
    IsName (read c r).text := by
  have hc := isLetter_of_ident h
  obtain ⟨w, hw, -⟩ := exists_text_eq c r
  have hr : read c r = word (c :: r) := if_pos hc
  refine ⟨⟨text_ne_nil c r, ?_⟩, ?_, ?_⟩
  · rw [hr]
    exact not_isDelimiter_splitWord (c :: r)
  · rw [hw]
    change Digits.isDigit c = false
    cases hdd : Digits.isDigit c with
    | false => rfl
    | true =>
      rw [not_isLetter_of_isDigit hdd] at hc
      cases hc
  · intro b hb
    rw [hr] at h hb
    have hk := Except.ok.inj h
    rw [show (splitWord (c :: r)).1 = _ from hb] at hk
    cases b <;> cases hk

end Lexeme

theorem Stream.Emits.isName {src src' : Stream} {ts : List Token} (h : src.Emits ts src')
    {name : String} (hn : Named ts name) : Expr.IsName name.toList := by
  obtain ⟨t, ht, hk, hl⟩ := hn
  obtain ⟨c, r, hf, hx⟩ := h.exists_lexeme t ht
  rw [hl, ← hx]
  exact Lexeme.isName_of_found (hf.trans (congrArg _ hk))

namespace Grammar

variable {all : List Token} {e : Expr}

theorem NodeOf.isPlain (h : NodeOf all e) : ∀ b ∈ e.binders, b.IsPlain := by
  cases h with
  | bind r hb => exact List.forall_mem_singleton.2 hb.wellFormed.plain
  | join r hj => exact List.forall_mem_singleton.2 (by simpa [Binder.IsPlain] using .basic .unit)
  | bindRec r x n hs hh => exact fun b hb => ((hh.wellFormed hs).2 b hb).plain
  | _ => simp [Expr.binders]

theorem TreeOf.isPlain (h : TreeOf all e) : e.IsPlain :=
  h.everywhere fun _ hb _ => hb.isPlain

theorem isName_arrayMake : Expr.IsName arrayMake.toList := by decide

theorem isName_discarded : Expr.IsName discarded.toList := by decide

section

variable (hf : ∀ t ∈ all, t.kind.Fits) (hn : ∀ name, Named all name → Expr.IsName name.toList)

include hf hn in
/-- **Every rule of the grammar makes a node that its line tells from others.** -/
theorem NodeOf.legible (h : NodeOf all e) : e.Legible := by
  cases h with
  | bool | unit | get | put | call => trivial
  | int => exact Int.natCast_nonneg _
  | @float t v r ht hk =>
    have hv := hf t ht
    rw [hk] at hv
    exact hv
  | var r ht hk => exact hn _ (named_of_mem ht hk)
  | make => exact isName_arrayMake
  | unary _ _ ho => exact ho
  | binary _ _ _ ho => exact ho
  | cond | condElse => rfl
  | bind r hb => exact hn _ hb.wellFormed.named
  | join => exact isName_discarded
  | bindRec r x n hs hh => exact fun b hb => hn _ ((hh.wellFormed hs).2 b hb).named

include hf hn in
theorem TreeOf.allLegible (h : TreeOf all e) : e.AllLegible := by
  induction h with
  | intro hb _ ih => exact .intro (hb.legible hf hn) ih

end

end Grammar

namespace Program

variable {settings settings' : Settings} {text text' : List Char} {p q : Program}

theorem allLegible_parse (h : (parse settings text).result = .ok p) {e : Expr}
    (he : .expr e ∈ (Node.program p).preorder Node.any) : e.AllLegible := by
  obtain ⟨src, hem, hi⟩ := treeOf_parse h
  exact (treeOf_of_mem hi he).allLegible hem.fits fun _ hn => hem.isName hn

/-- **The JSON form of a program loses nothing.** -/
theorem parse_record_injective (hp : (parse settings text).result = .ok p)
    (hq : (parse settings' text').result = .ok q)
    (h : (Node.program p).record = (Node.program q).record) : p = q := by
  obtain ⟨_, -, hpi⟩ := treeOf_parse hp
  obtain ⟨_, -, hqi⟩ := treeOf_parse hq
  exact eq_of_record_eq (fun e he => (hpi e he).isPlain) (fun e he => (hqi e he).isPlain) h

/-- A blank and a tab in the same place make no difference. -/
theorem parse_record_injective_of_blanks :
    ∃ p q, (parse {} "let (x : int) = 1 in x".toList).result = .ok p ∧
      (parse {} "let (x : int) = 1 in\tx".toList).result = .ok q ∧
      (Node.program p).record = (Node.program q).record ∧ p = q := by
  have hp : (parse {} "let (x : int) = 1 in x".toList).result =
      .ok ⟨⟨⟨1, 1, 0⟩, ⟨1, 23, 22⟩⟩, [.bind ⟨⟨1, 1, 0⟩, ⟨1, 23, 22⟩⟩
        ⟨"x", some (.basic .int), ⟨⟨1, 5, 4⟩, ⟨1, 14, 13⟩⟩⟩ (.int ⟨⟨1, 17, 16⟩, ⟨1, 18, 17⟩⟩ 1)
        (some (.var ⟨⟨1, 22, 21⟩, ⟨1, 23, 22⟩⟩ "x"))]⟩ :=
    result_parse_of_within (n := 20) rfl
  have hq : (parse {} "let (x : int) = 1 in\tx".toList).result =
      .ok ⟨⟨⟨1, 1, 0⟩, ⟨1, 23, 22⟩⟩, [.bind ⟨⟨1, 1, 0⟩, ⟨1, 23, 22⟩⟩
        ⟨"x", some (.basic .int), ⟨⟨1, 5, 4⟩, ⟨1, 14, 13⟩⟩⟩ (.int ⟨⟨1, 17, 16⟩, ⟨1, 18, 17⟩⟩ 1)
        (some (.var ⟨⟨1, 22, 21⟩, ⟨1, 23, 22⟩⟩ "x"))]⟩ :=
    result_parse_of_within (n := 20) rfl
  exact ⟨_, _, hp, hq, rfl, parse_record_injective hp hq rfl⟩

/-- **The one line of an expression identifies it**, up to places and declared types. -/
theorem sexpText_eq_iff_shape_eq (hp : (parse settings text).result = .ok p)
    (hq : (parse settings' text').result = .ok q) {e f : Expr}
    (he : .expr e ∈ (Node.program p).preorder Node.any)
    (hf : .expr f ∈ (Node.program q).preorder Node.any) :
    e.sexpText = f.sexpText ↔ e.shape = f.shape :=
  Expr.sexpText_eq_iff (allLegible_parse hp he) (allLegible_parse hq hf)

theorem mem_preorder_of_items {e : Expr} (h : p.items = [e]) (hm : e.isMissing = false) :
    .expr e ∈ (Node.program p).preorder Node.any := by
  rw [Node.preorder_program, h, List.flatMap_singleton, Expr.preorder_eq hm]
  simp

/-- An annotation, parentheses and a zero in front of a number make no difference. -/
theorem sexpText_eq_iff_shape_eq_of_annotation :
    ∃ p q e f, (parse {} "let (x : int) = 1 in x < 2".toList).result = .ok p ∧
      (parse {} "let x = 01 in (x < 2)".toList).result = .ok q ∧
      .expr e ∈ (Node.program p).preorder Node.any ∧
      .expr f ∈ (Node.program q).preorder Node.any ∧
      e.sexpText = f.sexpText ∧ e.shape = f.shape := by
  obtain ⟨p, hp, e, he, hem, hes⟩ : ∃ p, (Parse.runWithin 20 .initial
      (.ofText {} "let (x : int) = 1 in x < 2".toList)).map Parse.result = some (.ok p) ∧
      ∃ e, p.items = [e] ∧ e.isMissing = false ∧ e.sexp = "(let x 1 (not (<= 2 x)))".toList := by
    refine ⟨_, rfl, _, rfl, rfl, ?_⟩
    decide +kernel
  obtain ⟨q, hq, f, hf, hfm, hfs⟩ : ∃ q, (Parse.runWithin 20 .initial
      (.ofText {} "let x = 01 in (x < 2)".toList)).map Parse.result = some (.ok q) ∧
      ∃ f, q.items = [f] ∧ f.isMissing = false ∧ f.sexp = "(let x 1 (not (<= 2 x)))".toList := by
    refine ⟨_, rfl, _, rfl, rfl, ?_⟩
    decide +kernel
  have hp := result_parse_of_within hp
  have hq := result_parse_of_within hq
  have he := mem_preorder_of_items he hem
  have hf := mem_preorder_of_items hf hfm
  have h : e.sexpText = f.sexpText := by rw [Expr.sexpText_eq, Expr.sexpText_eq, hes, hfs]
  exact ⟨p, q, e, f, hp, hq, he, hf, h, (sexpText_eq_iff_shape_eq hp hq he hf).1 h⟩

end Program

end SmallMl
