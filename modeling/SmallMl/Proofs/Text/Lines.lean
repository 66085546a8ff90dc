import SmallMl.Number.Layout
import SmallMl.Operator
import SmallMl.Proofs.Number.Digits
import SmallMl.Proofs.Typing.Currying
import SmallMl.Source.Location
import SmallMl.Text.Quoted

/-!
# Texts on one line

Tables and outlines are written line by line.  Nothing that stands on a line has a line break in it:
numbers and places consist of digits and a few marks (`Layout.all_write`,
`Range.isMark_of_mem_render`), types of names and what stands between them (`Ty.all_chars`), and a
quoted text shows line breaks by their letter (`Quoted.oneLine_text`).

So the lines of what is written are those that were written one by one (`splitOn_lines_append`).
-/

namespace SmallMl

/-- The text has no line break. -/
def OneLine (s : String) : Prop := '\n' ∉ s.toList

instance : DecidablePred OneLine := fun _ => inferInstanceAs (Decidable (¬ _))

theorem OneLine.append {s t : String} (hs : OneLine s) (ht : OneLine t) : OneLine (s ++ t) := by
  unfold OneLine
  rw [String.toList_append, List.mem_append, not_or]
  exact ⟨hs, ht⟩

theorem oneLine_ofList {cs : List Char} (h : cs.all (· != '\n') = true) :
    OneLine (String.ofList cs) := by
  unfold OneLine
  rw [String.toList_ofList]
  intro hc
  exact absurd (List.all_eq_true.1 h _ hc) (by decide)

/-- **Lines that are written one by one are the lines of the text**, with those of what is written
behind them. -/
theorem splitOn_lines_append {ls : List String} (h : ∀ l ∈ ls, OneLine l) (s : String) :
    (String.join (ls.map (· ++ "\n")) ++ s).toList.splitOn '\n'
      = ls.map String.toList ++ s.toList.splitOn '\n' := by
  induction ls with
  | nil => simp
  | cons l ls ih =>
    obtain ⟨hl, hls⟩ := List.forall_mem_cons.1 h
    have hcons : (String.join ((l :: ls).map (· ++ "\n")) ++ s).toList
        = l.toList ++ '\n' :: (String.join (ls.map (· ++ "\n")) ++ s).toList := by
      simp [String.join_cons]
    rw [hcons, List.splitOn_append_cons_self_of_not_mem hl, ih hls, List.map_cons, List.cons_append]

/-! ### Numbers -/

theorem Digits.all_ofNat {p : Char → Bool} (hp : ∀ c, isDigit c = true → p c = true) (n : Nat) :
    (ofNat n).all p = true :=
  List.all_eq_true.2 fun c hc => hp c (isDigit_ofNat n c hc)

theorem Digits.ne_newline {c : Char} (h : isDigit c = true) : (c != '\n') = true := by
  rw [bne_iff_ne]
  rintro rfl
  exact absurd h (by decide)

theorem Digits.oneLine_text (n : Nat) : OneLine (text n) :=
  oneLine_ofList (all_ofNat (fun _ => ne_newline) n)

theorem Digits.isDigit_of_mem_intText {n : Int} {c : Char} (h : c ∈ (intText n).toList) :
    isDigit c = true ∨ c = '-' := by
  have hd : ∀ c ∈ (text n.natAbs).toList, isDigit c = true := by
    rw [text, String.toList_ofList]
    exact isDigit_ofNat _
  unfold intText at h
  split at h
  · rw [String.toList_append] at h
    rcases List.mem_append.1 h with h | h
    · exact .inr (List.mem_singleton.1 h)
    · exact .inl (hd c h)
  · exact .inl (hd c h)

theorem Digits.intText_ne_nil (n : Int) : (intText n).toList ≠ [] := by
  have hne : (text n.natAbs).toList ≠ [] := by
    rw [text, String.toList_ofList]
    exact ofNat_ne_nil _
  unfold intText
  split
  · rw [String.toList_append]
    exact List.append_ne_nil_of_right_ne_nil _ hne
  · exact hne

theorem Digits.oneLine_intText (n : Int) : OneLine (intText n) := by
  intro h
  rcases isDigit_of_mem_intText h with h | h
  · exact absurd h (by decide)
  · exact absurd h (by decide)

theorem Decimal.isDigit_scientific (d : Decimal) :
    ∀ c ∈ d.scientific.1, Digits.isDigit c = true := by
  unfold scientific
  dsimp only
  split
  · intro c hc
    rw [List.mem_singleton.1 hc]
    rfl
  · intro c hc
    have hc := (List.dropWhile_sublist _).subset (List.mem_reverse.1 hc)
    exact Digits.isDigit_ofNat _ c (List.mem_reverse.1 hc)

namespace Layout

/-- The characters of a layout other than digits. -/
def marks : List Char := ['.', 'e', '+', '-']

variable {p : Char → Bool} (hd : ∀ c, Digits.isDigit c = true → p c = true)
  (hm : ∀ c ∈ marks, p c = true) {cs : List Char}

include hd

theorem all_zeros (n : Nat) : (List.replicate n '0').all p = true := by
  rw [List.all_replicate, hd '0' rfl, ite_self]

include hm

theorem all_positional (hcs : cs.all p = true) (x : Int) : (positional cs x).all p = true := by
  have hpoint : p '.' = true := hm _ (by simp [marks])
  have hzeros := all_zeros hd
  unfold positional
  dsimp only
  split
  · rw [List.all_cons, List.all_cons, List.all_append, hd '0' rfl, hpoint, hzeros, hcs]
    rfl
  · split
    · rw [List.all_append, hzeros, hcs]
      rfl
    · rw [List.all_append, List.all_cons, hpoint]
      rw [← List.take_append_drop (x.toNat + 1) cs, List.all_append] at hcs
      exact hcs

theorem all_exponent (width : Nat) (x : Int) : (exponent width x).all p = true := by
  have hsign : p (if x < 0 then '-' else '+') = true := by
    split
    · exact hm '-' (by simp [marks])
    · exact hm '+' (by simp [marks])
  rw [exponent, List.all_cons, List.all_cons, List.all_append, hm 'e' (by simp [marks]), hsign,
    all_zeros hd, Digits.all_ofNat hd]
  rfl

theorem all_withExponent (hcs : cs.all p = true) (width : Nat) (x : Int) :
    (withExponent width cs x).all p = true := by
  have he := all_exponent hd hm width x
  match cs, hcs with
  | [], _ => rfl
  | [a], hcs =>
    rw [List.all_cons, Bool.and_eq_true] at hcs
    rw [withExponent, List.all_cons, hcs.1, he]
    rfl
  | a :: b :: r, hcs =>
    have heq : withExponent width (a :: b :: r) x = a :: '.' :: (b :: r ++ exponent width x) := rfl
    rw [List.all_cons, Bool.and_eq_true] at hcs
    rw [heq, List.all_cons, List.all_cons, List.all_append, hcs.1, hcs.2, he,
      hm '.' (by simp [marks])]
    rfl

/-- **A number is written with digits and the marks of a layout.** -/
theorem all_write (l : Layout) (v : Binary64) : (l.write v).all p = true := by
  have hcs : (Decimal.shortest v).scientific.1.all p = true :=
    List.all_eq_true.2 fun c hc => hd c (Decimal.isDigit_scientific _ c hc)
  have hmagnitude : (l.magnitude v).all p = true := by
    unfold magnitude
    dsimp only
    split
    · rw [List.all_cons, hd '0' rfl]
      rfl
    · split
      · exact all_positional hd hm hcs _
      · exact all_withExponent hd hm hcs _ _
  unfold write
  split
  · rw [List.all_cons, hm '-' (by simp [marks]), hmagnitude]
    rfl
  · exact hmagnitude

end Layout

theorem Binary64.oneLine_sourceText (v : Binary64) : OneLine v.sourceText := by
  have hcs : (if v.isFinite then Layout.source.write v else v.specialName.toList).all
      (· != '\n') = true := by
    split
    · exact Layout.all_write (fun _ => Digits.ne_newline) (by simp [Layout.marks]) _ v
    · unfold specialName
      repeat' split
      all_goals rfl
  refine oneLine_ofList ?_
  generalize (if v.isFinite then Layout.source.write v else v.specialName.toList) = cs at hcs
  split
  · exact hcs
  · rw [List.all_append, hcs]
    rfl

/-! ### Places -/

def Range.isMark (c : Char) : Bool := Digits.isDigit c || c == '-' || c == ':'

theorem Digits.isMark_of_mem_intText {n : Int} {c : Char} (h : c ∈ (intText n).toList) :
    Range.isMark c = true := by
  rcases isDigit_of_mem_intText h with h | rfl
  · rw [Range.isMark, h, Bool.true_or, Bool.true_or]
  · decide

/-- **A place is written with digits, hyphens and colons.** -/
theorem Range.isMark_of_mem_render {r : Range} {c : Char} (h : c ∈ r.render.toList) :
    isMark c = true := by
  have hl : ∀ l : Location, c ∈ l.render.toList → isMark c = true := by
    intro l hc
    simp only [Location.render, String.toList_append, List.mem_append] at hc
    rcases hc with (hc | hc) | hc
    · exact Digits.isMark_of_mem_intText hc
    · rw [List.mem_singleton.1 hc]
      decide
    · exact Digits.isMark_of_mem_intText hc
  simp only [render, String.toList_append, List.mem_append] at h
  rcases h with (h | h) | h
  · exact hl _ h
  · rw [List.mem_singleton.1 h]
    decide
  · exact hl _ h

theorem Range.oneLine_render (r : Range) : OneLine r.render :=
  fun h => absurd (isMark_of_mem_render h) (by decide)

theorem Range.exists_toList_render (r : Range) :
    ∃ c cs, r.render.toList = c :: cs ∧ (Digits.isDigit c = true ∨ c = '-') := by
  obtain ⟨c, cs, hcs⟩ := List.exists_cons_of_ne_nil (Digits.intText_ne_nil r.start.line)
  refine ⟨c, cs ++ (":" ++ Digits.intText r.start.column ++ "-" ++ r.stop.render).toList, ?_,
    Digits.isDigit_of_mem_intText (hcs ▸ List.mem_cons_self)⟩
  simp only [render, Location.render, String.toList_append, hcs, List.cons_append,
    List.append_assoc]

/-! ### Names -/

theorem Hex.all_digits : ∀ w n, (digits w n).all (· != '\n') = true := by
  have hdigit : ∀ d, d < 16 → (digit d != '\n') = true := by decide
  intro w
  induction w with
  | zero => exact fun _ => rfl
  | succ w ih =>
    intro n
    rw [digits, List.all_append, ih, List.all_cons, hdigit _ (Nat.mod_lt _ (by decide))]
    rfl

theorem Quoted.all_codePoint (c : Char) : (codePoint c).all (· != '\n') = true := by
  unfold codePoint
  split
  · exact Hex.all_digits 2 c.toNat
  split
  · exact Hex.all_digits 4 c.toNat
  · exact Hex.all_digits 8 c.toNat

/-- A line break is not printable, so it is shown by its letter. -/
theorem Quoted.all_escape (c : Char) : (escape '"' c).all (· != '\n') = true := by
  by_cases hc : c = '\n'
  · subst hc
    decide +kernel
  have hne : (c != '\n') = true := bne_iff_ne.2 hc
  have hletter : ∀ l, controlLetter? c = some l → (l != '\n') = true := by
    intro l hl
    unfold controlLetter? at hl
    split at hl <;> cases hl <;> rfl
  unfold escape
  split
  · rw [List.all_cons, List.all_cons, hne]
    rfl
  split
  · rw [List.all_cons, hne]
    rfl
  split
  · next l hl =>
    rw [List.all_cons, List.all_cons, hletter l hl]
    rfl
  · exact all_codePoint c

/-- **A quoted text stands on one line.** -/
theorem Quoted.oneLine_text (s : String) : OneLine (text s) := by
  refine oneLine_ofList ?_
  have hs : (s.toList.flatMap (escape '"')).all (· != '\n') = true := by
    rw [List.all_flatMap, List.all_eq_true]
    exact fun c _ => all_escape c
  rw [List.cons_append, List.all_cons, List.all_append, hs]
  rfl

theorem UnaryOp.oneLine_name (op : UnaryOp) : OneLine op.name := by
  cases op with
  | unknown n =>
    exact .append (.append (s := "UnaryOp(") (by decide) (Digits.oneLine_text n)) (by decide)
  | _ => decide

theorem BinaryOp.oneLine_name (op : BinaryOp) : OneLine op.name := by
  cases op with
  | unknown n =>
    exact .append (.append (s := "BinaryOp(") (by decide) (Digits.oneLine_text n)) (by decide)
  | _ => decide

theorem Ty.oneLine_render (t : Ty) : OneLine t.render := by
  refine oneLine_ofList (all_chars ?_ rfl fun _ => rfl)
  intro b
  cases b <;> rfl

end SmallMl
