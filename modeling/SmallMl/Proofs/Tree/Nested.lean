/-!
# Nested lists in one line

A `Nested` is a word or a list of such.  It is written in one line, a list in parentheses and with
blanks between its items.  If the words are not empty and contain no blanks and parentheses, the
line determines what it was written from (`Nested.text_injective`), also in front of a text that
does not go on with the last word (`Nested.determined`).
-/

namespace SmallMl

inductive Nested
  | word (cs : List Char)
  | list (items : List Nested)

namespace Nested

mutual

def text : Nested → List Char
  | word cs => cs
  | list [] => ['(', ')']
  | list (x :: xs) => '(' :: x.text ++ itemsText xs ++ [')']

/-- The items behind the first one, each behind a blank. -/
def itemsText : List Nested → List Char
  | [] => []
  | x :: xs => ' ' :: x.text ++ itemsText xs

end

def isDelimiter (c : Char) : Bool := c = ' ' || c = '(' || c = ')'

structure IsWord (cs : List Char) : Prop where
  ne_nil : cs ≠ []
  not_delimiter : ∀ c ∈ cs, isDelimiter c = false

instance (cs : List Char) : Decidable (IsWord cs) :=
  decidable_of_iff (cs ≠ [] ∧ cs.any isDelimiter = false)
    ⟨fun h => ⟨h.1, by simpa using h.2⟩, fun h => ⟨h.1, by simpa using h.2⟩⟩

/-- All words are words. -/
inductive Proper : Nested → Prop
  | word {cs : List Char} : IsWord cs → Proper (word cs)
  | list {xs : List Nested} : (∀ x ∈ xs, Proper x) → Proper (list xs)

/-- The text does not go on with a word. -/
def Ends (k : List Char) : Prop := ∀ c ∈ k.head?, c = ' ' ∨ c = ')'

/-- **Induction over nested lists**, with a hypothesis for each item. -/
@[elab_as_elim, induction_eliminator]
theorem induct {motive : Nested → Prop} (word : ∀ cs, motive (word cs))
    (list : ∀ xs, (∀ x ∈ xs, motive x) → motive (list xs)) (x : Nested) : motive x := by
  refine @Nested.rec motive (fun xs => ∀ x ∈ xs, motive x) word list nofun ?_ x
  exact fun _ _ hx hxs => List.forall_mem_cons.2 ⟨hx, hxs⟩

/-! ### Words -/

variable {cs ds k l : List Char}

theorem isDelimiter_eq_false {p : Char → Bool} {c : Char} (hb : p ' ' = false) (hl : p '(' = false)
    (hr : p ')' = false) (h : p c = true) : isDelimiter c = false := by
  cases hd : isDelimiter c with
  | false => rfl
  | true =>
    simp only [isDelimiter, Bool.or_eq_true, decide_eq_true_eq] at hd
    rcases hd with (rfl | rfl) | rfl
    · cases hb.symm.trans h
    · cases hl.symm.trans h
    · cases hr.symm.trans h

theorem Ends.isDelimiter (h : Ends k) : ∀ c ∈ k.head?, isDelimiter c = true := by
  intro c hc
  rcases h c hc with rfl | rfl <;> rfl

theorem append_inj_of_ends (hk : Ends k) (hl : Ends l) : ∀ {cs ds : List Char},
    (∀ c ∈ cs, isDelimiter c = false) → (∀ d ∈ ds, isDelimiter d = false) → cs ++ k = ds ++ l →
      cs = ds ∧ k = l
  | [], [], _, _, h => ⟨rfl, h⟩
  | [], d :: ds, _, hd, h => by
    have hb := hk.isDelimiter d (by rw [List.nil_append] at h; rw [h]; rfl)
    rw [hd d (by simp)] at hb
    cases hb
  | c :: cs, [], hc, _, h => by
    have hb := hl.isDelimiter c (by rw [List.nil_append] at h; rw [← h]; rfl)
    rw [hc c (by simp)] at hb
    cases hb
  | c :: cs, d :: ds, hc, hd, h => by
    obtain ⟨rfl, ht⟩ := List.cons.inj h
    obtain ⟨rfl, hkl⟩ := append_inj_of_ends hk hl (fun x hx => hc x (by simp [hx]))
      (fun x hx => hd x (by simp [hx])) ht
    exact ⟨rfl, hkl⟩

theorem IsWord.exists_cons (h : IsWord cs) : ∃ c r, cs = c :: r ∧ isDelimiter c = false := by
  obtain ⟨c, r, rfl⟩ := List.exists_cons_of_ne_nil h.ne_nil
  exact ⟨c, r, rfl, h.not_delimiter c (by simp)⟩

/-! ### Lists -/

variable {x y : Nested}

theorem text_list (xs : List Nested) : ∃ r, (list xs).text = '(' :: r := by
  cases xs with
  | nil => exact ⟨_, rfl⟩
  | cons x xs => exact ⟨_, rfl⟩

theorem Proper.text_ne (h : x.Proper) (k l : List Char) : x.text ++ k ≠ ')' :: l := by
  cases h with
  | word hw =>
    obtain ⟨c, r, rfl, hc⟩ := hw.exists_cons
    intro he
    obtain ⟨rfl, -⟩ := List.cons.inj he
    cases hc
  | @list xs _ =>
    obtain ⟨r, hr⟩ := text_list xs
    rw [hr]
    simp

theorem Proper.items {xs : List Nested} (h : (Nested.list xs).Proper) : ∀ x ∈ xs, x.Proper := by
  cases h with
  | list h => exact h

theorem ends_cons {c : Char} (h : c = ' ' ∨ c = ')') (k : List Char) : Ends (c :: k) := by
  intro d hd
  obtain rfl := Option.some.inj hd
  exact h

theorem ends_itemsText (xs : List Nested) (k : List Char) : Ends (itemsText xs ++ ')' :: k) := by
  cases xs with
  | nil => exact ends_cons (.inr rfl) k
  | cons x xs => exact ends_cons (.inl rfl) _

/-- The line of `x` determines `x`, whatever follows. -/
def Determined (x : Nested) : Prop :=
  ∀ {y : Nested} {k l : List Char}, x.Proper → y.Proper → Ends k → Ends l →
    x.text ++ k = y.text ++ l → x = y ∧ k = l

theorem itemsText_append_inj : ∀ {xs ys : List Nested}, (∀ x ∈ xs, x.Determined) →
    (∀ x ∈ xs, x.Proper) → (∀ y ∈ ys, y.Proper) →
      itemsText xs ++ ')' :: k = itemsText ys ++ ')' :: l → xs = ys ∧ k = l
  | [], [], _, _, _, h => ⟨rfl, (List.cons.inj h).2⟩
  | [], y :: ys, _, _, _, h => by simp [itemsText] at h
  | x :: xs, [], _, _, _, h => by simp [itemsText] at h
  | x :: xs, y :: ys, ih, hx, hy, h => by
    obtain ⟨hxd, hxsd⟩ := List.forall_mem_cons.1 ih
    obtain ⟨hxp, hxsp⟩ := List.forall_mem_cons.1 hx
    obtain ⟨hyp, hysp⟩ := List.forall_mem_cons.1 hy
    simp only [itemsText, List.cons_append, List.append_assoc, List.cons.injEq, true_and] at h
    obtain ⟨hxy, ht⟩ := hxd hxp hyp (ends_itemsText xs k) (ends_itemsText ys l) h
    obtain ⟨hxys, hkl⟩ := itemsText_append_inj hxsd hxsp hysp ht
    exact ⟨by rw [hxy, hxys], hkl⟩

/-- Lists are determined by what stands between their parentheses. -/
theorem list_text_append_inj {xs ys : List Nested} (ih : ∀ x ∈ xs, x.Determined)
    (hx : ∀ x ∈ xs, x.Proper) (hy : ∀ y ∈ ys, y.Proper)
    (h : (list xs).text ++ k = (list ys).text ++ l) : xs = ys ∧ k = l := by
  cases xs with
  | nil =>
    cases ys with
    | nil => exact ⟨rfl, List.append_cancel_left h⟩
    | cons y ys =>
      simp only [text, List.cons_append, List.append_assoc, List.cons.injEq, true_and] at h
      exact absurd h.symm ((hy y (by simp)).text_ne _ _)
  | cons x xs =>
    obtain ⟨hxd, hxsd⟩ := List.forall_mem_cons.1 ih
    obtain ⟨hxp, hxsp⟩ := List.forall_mem_cons.1 hx
    cases ys with
    | nil =>
      simp only [text, List.cons_append, List.append_assoc, List.cons.injEq, true_and] at h
      exact absurd h (hxp.text_ne _ _)
    | cons y ys =>
      obtain ⟨hyp, hysp⟩ := List.forall_mem_cons.1 hy
      simp only [text, List.cons_append, List.append_assoc, List.cons.injEq, true_and,
        List.nil_append] at h
      obtain ⟨hxy, ht⟩ := hxd hxp hyp (ends_itemsText xs k) (ends_itemsText ys l) h
      obtain ⟨hxys, hkl⟩ := itemsText_append_inj hxsd hxsp hysp ht
      exact ⟨by rw [hxy, hxys], hkl⟩

theorem IsWord.append_ne (h : IsWord cs) (ys : List Nested) (k l : List Char) :
    cs ++ k ≠ (list ys).text ++ l := by
  obtain ⟨c, s, rfl, hc⟩ := h.exists_cons
  obtain ⟨r, hr⟩ := text_list ys
  rw [hr]
  intro he
  obtain ⟨rfl, -⟩ := List.cons.inj he
  cases hc

/-- **The line determines what it was written from**, and where it ends. -/
theorem determined (x : Nested) : x.Determined := by
  induction x with
  | word cs =>
    intro y k l hx hy hk hl h
    cases hx with
    | word hc =>
    cases hy with
    | word hd =>
      obtain ⟨rfl, hkl⟩ := append_inj_of_ends hk hl hc.not_delimiter hd.not_delimiter h
      exact ⟨rfl, hkl⟩
    | list _ => exact absurd h (hc.append_ne _ k l)
  | list xs ih =>
    intro y k l hx hy hk hl h
    cases hy with
    | word hd => exact absurd h.symm (hd.append_ne xs l k)
    | list hys =>
      obtain ⟨rfl, hkl⟩ := list_text_append_inj ih hx.items hys h
      exact ⟨rfl, hkl⟩

/-- **Different lists are written differently.** -/
theorem text_injective (hx : x.Proper) (hy : y.Proper) (h : x.text = y.text) : x = y :=
  (x.determined hx hy (k := []) (l := []) nofun nofun (by simpa using h)).1

end Nested

end SmallMl
