import SmallMl.Proofs.Tree.Written
import SmallMl.Tree.Record

/-!
# What the JSON form of a tree determines

The record of a tree keeps all of it.  The records of two nodes differ if they are of different
kinds or if one of them has a field that the other does not have, and an optional field is told from
the fields behind it by its key (`Expr.optionalField_append_inj`); otherwise the nodes are the same
up to their parts (`Expr.record_spec`).  By induction over the parts the record determines the tree
(`Expr.record_injective`, `Program.eq_of_record_eq`).

A declared type is recorded by its text, which determines the types that a source text can declare
(`Ty.Plain.chars_injective`), and none of them is written like the mark of a variable.
-/

namespace SmallMl

open Json (Value)

/-! ### Places -/

theorem Location.record_injective {l m : Location} (h : l.record = m.record) : l = m := by
  obtain ⟨_, _, _⟩ := l
  obtain ⟨_, _, _⟩ := m
  simp_all [record]

theorem Range.record_injective {r s : Range} (h : r.record = s.record) : r = s := by
  simp only [record, Value.record.injEq, List.cons.injEq, Prod.mk.injEq] at h
  obtain ⟨⟨-, he⟩, ⟨-, hs⟩, -⟩ := h
  obtain ⟨_, _⟩ := r
  obtain ⟨_, _⟩ := s
  rw [mk.injEq]
  exact ⟨Location.record_injective hs, Location.record_injective he⟩

@[simp] theorem Range.record_inj {r s : Range} : r.record = s.record ↔ r = s :=
  ⟨record_injective, congrArg _⟩

/-! ### Operators -/

theorem Digits.text_injective {m n : Nat} (h : text m = text n) : m = n := by
  rw [← toNat_ofNat m, ← toNat_ofNat n, String.ofList_injective h]

theorem UnaryOp.name_injective {a b : UnaryOp} (h : a.name = b.name) : a = b := by
  have hs := congrArg String.toList h
  cases a <;> cases b <;> simp [name] at hs ⊢
  exact Digits.text_injective (String.toList_inj.1 hs)

/-- The operation is one of those with a code, or has no name of its own. -/
theorem BinaryOp.mem_all_or (o : BinaryOp) : o ∈ all ∨ ∃ n, o = unknown n := by
  cases o <;> simp [all]

theorem BinaryOp.name_injective {a b : BinaryOp} (h : a.name = b.name) : a = b := by
  have hk : ∀ a ∈ all, ∀ b ∈ all, a.name = b.name → a = b := by decide
  have hu : ∀ a ∈ all, ∀ n, a.name ≠ (unknown n).name := by
    intro a ha n hn
    have hh : ∀ a ∈ all, a.name.toList.head? ≠ some 'B' := by decide
    exact hh a ha (by rw [hn]; simp [name])
  rcases a.mem_all_or with ha | ⟨m, rfl⟩ <;> rcases b.mem_all_or with hb | ⟨n, rfl⟩
  · exact hk a ha b hb h
  · exact absurd h (hu a ha n)
  · exact absurd h.symm (hu b hb m)
  · have hs := congrArg String.toList h
    simp only [name, String.toList_append, List.append_cancel_left_eq,
      List.append_cancel_right_eq] at hs
    rw [Digits.text_injective (String.toList_inj.1 hs)]

@[simp] theorem UnaryOp.name_inj {a b : UnaryOp} : a.name = b.name ↔ a = b :=
  ⟨name_injective, congrArg _⟩

@[simp] theorem BinaryOp.name_inj {a b : BinaryOp} : a.name = b.name ↔ a = b :=
  ⟨name_injective, congrArg _⟩

/-! ### Types -/

namespace Ty

theorem Plain.chars_array {ty : Ty} (h : ty.Plain) :
    (Ty.array ty).chars = ty.chars ++ arraySuffix := by
  cases h <;> rfl

/-- **The written form of a plain type determines it.** -/
theorem Plain.chars_injective {t s : Ty} (ht : t.Plain) (hs : s.Plain) (h : t.chars = s.chars) :
    t = s := by
  have hb : ∀ b c : Basic, b.name = c.name → b = c := by
    intro b c
    cases b <;> cases c <;> decide
  -- the name of a basic type has no blank in it
  have hba : ∀ (b : Basic) {u : Ty}, u.Plain → b.name ≠ (Ty.array u).chars := by
    intro b u hu hn
    have hblank : ' ' ∈ b.name := by
      rw [hn, hu.chars_array]
      simp [arraySuffix]
    cases b <;> revert hblank <;> decide
  induction ht generalizing s with
  | basic b =>
    cases hs with
    | basic c => rw [hb b c h]
    | array hu => exact absurd h (hba b hu)
  | @array t ht ih =>
    cases hs with
    | basic c => exact absurd h.symm (hba c ht)
    | array hu =>
      rw [ht.chars_array, hu.chars_array] at h
      rw [ih hu (List.append_cancel_right h)]

/-- The written form of a plain type is not the mark of a variable. -/
theorem Plain.chars_ne_placeholder {t : Ty} (h : t.Plain) : t.chars ≠ placeholder := by
  have hq : '\'' ∉ t.chars := by
    induction h with
    | basic b => cases b <;> decide
    | array ht ih =>
      rw [ht.chars_array]
      simp [ih, arraySuffix]
  intro he
  exact hq (he ▸ by decide)

end Ty

namespace Binder

def IsPlain (b : Binder) : Prop := ∀ ty ∈ b.declared, ty.Plain

theorem typeText_injective {b c : Binder} (hb : b.IsPlain) (hc : c.IsPlain)
    (h : typeText b.declared = typeText c.declared) : b.declared = c.declared := by
  cases hbd : b.declared with
  | none =>
    cases hcd : c.declared with
    | none => rfl
    | some u =>
      rw [hbd, hcd] at h
      exact absurd (String.ofList_injective h).symm (hc u hcd).chars_ne_placeholder
  | some t =>
    cases hcd : c.declared with
    | none =>
      rw [hbd, hcd] at h
      exact absurd (String.ofList_injective h) (hb t hbd).chars_ne_placeholder
    | some u =>
      rw [hbd, hcd] at h
      rw [(hb t hbd).chars_injective (hc u hcd) (String.ofList_injective h)]

theorem eq_of_texts {b c : Binder} (hb : b.IsPlain) (hc : c.IsPlain) (hn : b.name = c.name)
    (hr : b.range = c.range) (ht : typeText b.declared = typeText c.declared) : b = c := by
  have hd := typeText_injective hb hc ht
  obtain ⟨_, _, _⟩ := b
  obtain ⟨_, _, _⟩ := c
  rw [mk.injEq]
  exact ⟨hn, hd, hr⟩

theorem record_injective {b c : Binder} (hb : b.IsPlain) (hc : c.IsPlain)
    (h : b.record = c.record) : b = c := by
  simp only [record, Value.record.injEq, List.cons.injEq, Prod.mk.injEq, Value.text.injEq,
    Range.record_inj] at h
  obtain ⟨⟨-, hn⟩, ⟨-, hr⟩, ⟨-, ht⟩, -⟩ := h
  exact eq_of_texts hb hc hn hr ht

end Binder

namespace Expr

/-! ### Expressions -/

def optionalField (key : String) (o : Option Value) : List (String × Value) :=
  o.toList.map fun v => (key, v)

theorem rangeField_eq (key : String) (o : Option Range) :
    rangeField key o = optionalField key (o.map Range.record) := by
  cases o <;> rfl

theorem recordOption_eq (key : String) (o : Option Expr) :
    recordOption key o = optionalField key (o.map record) := by
  cases o <;> rfl

/-- An optional field is told from the fields behind it by its key. -/
theorem optionalField_append_inj {key : String} {o p : Option Value} {fs gs : List (String × Value)}
    (hf : ∀ f ∈ fs.head?, f.1 ≠ key) (hg : ∀ g ∈ gs.head?, g.1 ≠ key)
    (h : optionalField key o ++ fs = optionalField key p ++ gs) : o = p ∧ fs = gs := by
  cases o with
  | none =>
    cases p with
    | none => exact ⟨rfl, h⟩
    | some v =>
      obtain rfl : fs = (key, v) :: gs := h
      exact absurd rfl (hf _ rfl)
  | some u =>
    cases p with
    | none =>
      obtain rfl : (key, u) :: fs = gs := h
      exact absurd rfl (hg _ rfl)
    | some v => simpa [optionalField] using h

def binders : Expr → List Binder
  | bind _ b _ _ => [b]
  | bindRec _ f ps _ _ => f :: ps
  | _ => []

theorem recordList_eq (es : List Expr) : recordList es = es.map record := by
  induction es with
  | nil => rfl
  | cons e es ih => rw [recordList, ih, List.map_cons]

/-- Optional parts with the same record are, as lists, told apart by their records only. -/
theorem map_record_toList {n m : Option Expr} (h : n.map record = m.map record) :
    n.toList.map record = m.toList.map record ∧ (n.toList = m.toList → n = m) := by
  cases n <;> cases m <;> simp_all

/-- The expression is the same up to its parts, and its parts have the same records. -/
theorem record_spec {e f : Expr} (he : ∀ b ∈ e.binders, b.IsPlain) (hf : ∀ b ∈ f.binders, b.IsPlain)
    (h : e.record = f.record) :
    e.children.map record = f.children.map record ∧ (e.children = f.children → e = f) := by
  cases e with
  | missing | bool r b | int r n | float r v | unit r | var r x | unary r op x | binary r op x y
    | get r a i | put r a i v | call r g as =>
    cases f <;> simp_all [record, recordList_eq, children]
  | cond r c y n i e =>
    cases f with
    | cond r' c' y' n' i' e' =>
      simp only [record, recordOption_eq, rangeField_eq, Value.record.injEq, List.cons_append,
        List.cons.injEq, Prod.mk.injEq, List.append_assoc] at h
      obtain ⟨⟨-, hc⟩, h⟩ := h
      obtain ⟨hn, h⟩ := optionalField_append_inj (by cases e <;> simp [optionalField])
        (by cases e' <;> simp [optionalField]) h
      obtain ⟨he, h⟩ := optionalField_append_inj (by simp) (by simp) h
      have heq : e = e' := Option.map_injective (fun _ _ => Range.record_injective) he
      simp_all [children, map_record_toList hn]
    | _ => simp [record] at h
  | bind r b x n =>
    have hb := he b (by simp [binders])
    cases f with
    | bind r' c x' n' =>
      simp only [record, recordOption_eq, Value.record.injEq, List.cons_append, List.cons.injEq,
        Prod.mk.injEq] at h
      obtain ⟨⟨-, hx⟩, ⟨-, hbn⟩, ⟨-, hbr⟩, h⟩ := h
      obtain ⟨hn, h⟩ := optionalField_append_inj (by simp) (by simp) h
      simp only [List.cons.injEq, Prod.mk.injEq, Value.text.injEq, Range.record_inj] at hbn hbr h
      obtain ⟨⟨-, hr⟩, -, ⟨-, ht⟩, -⟩ := h
      have hbc := Binder.eq_of_texts hb (hf c (by simp [binders])) hbn hbr ht
      simp_all [children, map_record_toList hn]
    | bindRec r' g ps x' n' => cases n <;> cases n' <;> simp [record, recordOption] at h
    | _ => simp [record] at h
  | bindRec r g ps x n =>
    cases f with
    | bindRec r' g' ps' x' n' =>
      simp only [record, recordOption_eq, Value.record.injEq, List.cons_append, List.cons.injEq,
        Prod.mk.injEq] at h
      obtain ⟨⟨-, hx⟩, ⟨-, hgn⟩, ⟨-, hgr⟩, h⟩ := h
      obtain ⟨hn, h⟩ := optionalField_append_inj (by simp) (by simp) h
      simp only [List.cons.injEq, Prod.mk.injEq, Value.text.injEq, Value.list.injEq,
        Range.record_inj] at hgn hgr h
      obtain ⟨⟨-, hps⟩, ⟨-, hr⟩, ⟨-, ht⟩, -⟩ := h
      have hgg := Binder.eq_of_texts (he g (by simp [binders])) (hf g' (by simp [binders]))
        hgn hgr ht
      have hpp := eq_of_map_eq (fun a ha b hb =>
        Binder.record_injective (he a (by simp [binders, ha])) (hf b (by simp [binders, hb]))) hps
      simp_all [children, map_record_toList hn]
    | bind r' c x' n' => cases n <;> cases n' <;> simp [record, recordOption] at h
    | _ => simp [record] at h

def IsPlain (e : Expr) : Prop := e.Everywhere fun
  | .program _ => True
  | .expr e => ∀ b ∈ e.binders, b.IsPlain

theorem record_eq_null_iff {e : Expr} : e.record = .null ↔ e = missing := by
  cases e <;> simp [record]

theorem isMissing_eq_false_iff {e : Expr} : e.isMissing = false ↔ e ≠ missing := by
  cases e <;> simp [isMissing]

/-- **The record of an expression determines it.** -/
theorem record_injective (e : Expr) :
    ∀ f : Expr, e.IsPlain → f.IsPlain → e.record = f.record → e = f := by
  induction e using induct_children with
  | _ e ih =>
    intro f he hf h
    by_cases hm : e = missing
    · rw [hm, eq_comm] at h
      rw [hm, record_eq_null_iff.1 h]
    · have hn : f ≠ missing :=
        fun hn => hm (record_eq_null_iff.1 (h.trans (record_eq_null_iff.2 hn)))
      obtain ⟨hb, hc⟩ := (everywhere_iff (isMissing_eq_false_iff.2 hm)).1 he
      obtain ⟨hb', hc'⟩ := (everywhere_iff (isMissing_eq_false_iff.2 hn)).1 hf
      obtain ⟨hmap, heq⟩ := record_spec hb hb' h
      exact heq (eq_of_map_eq (fun a ha b hbm => ih a ha b (hc a ha) (hc' b hbm)) hmap)

end Expr

/-- **The record of a program determines it.** -/
theorem Program.eq_of_record_eq {p q : Program} (hp : ∀ e ∈ p.items, e.IsPlain)
    (hq : ∀ e ∈ q.items, e.IsPlain) (h : (Node.program p).record = (Node.program q).record) :
    p = q := by
  simp only [Node.record, Value.record.injEq, List.cons.injEq, Prod.mk.injEq, Value.list.injEq,
    Expr.recordList_eq, Range.record_inj] at h
  obtain ⟨⟨-, hi⟩, ⟨-, hr⟩, -⟩ := h
  have hi := eq_of_map_eq (fun a ha b hb => a.record_injective b (hp a ha) (hq b hb)) hi
  obtain ⟨_, _⟩ := p
  obtain ⟨_, _⟩ := q
  rw [mk.injEq]
  exact ⟨hr, hi⟩

end SmallMl
