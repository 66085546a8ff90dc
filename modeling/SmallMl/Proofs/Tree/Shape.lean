import SmallMl.Proofs.Number.ReadBack
import SmallMl.Proofs.Tree.Nested
import SmallMl.Proofs.Tree.Recording
import SmallMl.Tree.Sexp

/-!
# What the one line of an expression determines

The one line of an expression shows neither places nor declared types; `Expr.shape` is what is left
without them.  The line is that of a nested list (`Expr.text_nested`), so it determines the nested
list if names, literals and operators are words (`Expr.nested_proper`).  The nested list determines
the shape: an operator that is the head of two kinds of nodes has one operand in one of them and two
in the other, and the words of names, booleans, integers and floats are told apart by their first
character, by their spelling or by a point or exponent in them (`Expr.nested_spec`).

`Expr.AllLegible` says what names, literals and operators have to be.  For legible expressions the
line shows just the shape (`Expr.sexpText_eq_iff`).
-/

namespace SmallMl

def Binder.shape (b : Binder) : Binder := ⟨b.name, none, default⟩

namespace Expr

mutual

/-- The expression without places and declared types. -/
def shape : Expr → Expr
  | missing => missing
  | bool _ b => bool default b
  | int _ n => int default n
  | float _ v => float default v
  | unit _ => unit default
  | var _ name => var default name
  | unary _ op x => unary default op x.shape
  | binary _ op x y => binary default op x.shape y.shape
  | cond _ c y n _ e =>
    cond default c.shape y.shape (shapeOption n) default (e.map fun _ => default)
  | bind _ b x n => bind default b.shape x.shape (shapeOption n)
  | bindRec _ f ps x n => bindRec default f.shape (ps.map Binder.shape) x.shape (shapeOption n)
  | get _ a i => get default a.shape i.shape
  | put _ a i v => put default a.shape i.shape v.shape
  | call _ f as => call default f.shape (shapeList as)

def shapeOption : Option Expr → Option Expr
  | none => none
  | some e => some e.shape

def shapeList : List Expr → List Expr
  | [] => []
  | e :: es => e.shape :: shapeList es

end

@[simp] theorem shapeOption_eq (o : Option Expr) : shapeOption o = o.map shape := by
  cases o <;> rfl

@[simp] theorem shapeList_eq (es : List Expr) : shapeList es = es.map shape := by
  induction es with
  | nil => rfl
  | cons e es ih => rw [shapeList, ih, List.map_cons]

/-! ### The line as a nested list -/

def nameWord (b : Binder) : Nested := .word b.name.toList

mutual

/-- The expression as a nested list with its head in front. -/
def nested : Expr → Nested
  | missing => .word ['<', 'n', 'i', 'l', '>']
  | bool _ b => .word (if b then ['t', 'r', 'u', 'e'] else ['f', 'a', 'l', 's', 'e'])
  | int _ n => .word (Digits.intText n).toList
  | float _ v => .word v.sourceText.toList
  | unit _ => .list []
  | var _ name => .word name.toList
  | unary _ op x => .list [.word op.name.toList, x.nested]
  | binary _ op x y => .list [.word op.name.toList, x.nested, y.nested]
  | cond _ c y n _ _ => .list (.word ['i', 'f'] :: c.nested :: y.nested :: nestedOption n)
  | bind _ b x n =>
    .list (.word ['l', 'e', 't'] :: nameWord b :: x.nested :: nestedOption n)
  | bindRec _ f ps x n =>
    .list (.word ['l', 'e', 't', 'r', 'e', 'c'] :: nameWord f :: .list (ps.map nameWord) ::
      x.nested :: nestedOption n)
  | get _ a i => .list [.word ['g', 'e', 't'], a.nested, i.nested]
  | put _ a i v => .list [.word ['p', 'u', 't'], a.nested, i.nested, v.nested]
  | call _ f as => .list (.word ['c', 'a', 'l', 'l'] :: f.nested :: nestedList as)

def nestedOption : Option Expr → List Nested
  | none => []
  | some e => [e.nested]

def nestedList : List Expr → List Nested
  | [] => []
  | e :: es => e.nested :: nestedList es

end

theorem nestedOption_eq (o : Option Expr) : nestedOption o = o.toList.map nested := by
  cases o <;> rfl

theorem nestedList_eq (es : List Expr) : nestedList es = es.map nested := by
  induction es with
  | nil => rfl
  | cons e es ih => rw [nestedList, ih, List.map_cons]

open Nested (itemsText)

theorem itemsText_nestedOption {n : Option Expr} (h : ∀ m ∈ n, m.nested.text = m.sexp) :
    itemsText (nestedOption n) = sexpOption n := by
  cases n with
  | none => rfl
  | some e => simp [nestedOption, itemsText, sexpOption, h e rfl]

theorem itemsText_nestedList : ∀ {as : List Expr}, (∀ a ∈ as, a.nested.text = a.sexp) →
    itemsText (nestedList as) = sexpList as := by
  intro as
  induction as with
  | nil =>
    intro _
    rfl
  | cons a as ih =>
    intro h
    obtain ⟨ha, has⟩ := List.forall_mem_cons.1 h
    rw [nestedList, itemsText, sexpList, ha, ih has]

theorem text_params (ps : List Binder) :
    (Nested.list (ps.map nameWord)).text = '(' :: paramNames ps ++ [')'] := by
  cases ps with
  | nil => rfl
  | cons p ps =>
    have h : ∀ (p : Binder) (ps : List Binder),
        p.name.toList ++ itemsText (ps.map nameWord) = paramNames (p :: ps) := by
      intro p ps
      induction ps generalizing p with
      | nil => simp [itemsText, paramNames]
      | cons q qs ih => simp [itemsText, paramNames, ← ih q, nameWord, Nested.text]
    simp [Nested.text, nameWord, ← h]

/-- **The line of an expression is the line of its nested list.** -/
theorem text_nested (e : Expr) : e.nested.text = e.sexp := by
  induction e with
  | missing | bool | int | float | unit | var => rfl
  | unary r op x hx => simp [nested, Nested.text, itemsText, sexp, listHead, hx]
  | binary r op x y hx hy => simp [nested, Nested.text, itemsText, sexp, listHead, hx, hy]
  | cond r c y n i e hc hy hn =>
    simp [nested, Nested.text, itemsText, sexp, listHead, hc, hy, itemsText_nestedOption hn]
  | bind r b x n hx hn =>
    simp [nested, Nested.text, itemsText, sexp, listHead, hx, itemsText_nestedOption hn, nameWord]
  | bindRec r f ps x n hx hn =>
    simp [nested, Nested.text, itemsText, sexp, listHead, hx, itemsText_nestedOption hn, nameWord,
      text_params]
  | get r a i ha hi => simp [nested, Nested.text, itemsText, sexp, listHead, ha, hi]
  | put r a i v ha hi hv => simp [nested, Nested.text, itemsText, sexp, listHead, ha, hi, hv]
  | call r f as hf has =>
    simp [nested, Nested.text, itemsText, sexp, listHead, hf, itemsText_nestedList has]

/-! ### Words -/

/-- The word is a name: it does not start with a digit and is not a boolean. -/
structure IsName (cs : List Char) : Prop extends Nested.IsWord cs where
  not_isDigit : cs.head?.any Digits.isDigit = false
  ne_bool : ∀ b : Bool, cs ≠ if b then ['t', 'r', 'u', 'e'] else ['f', 'a', 'l', 's', 'e']

instance (cs : List Char) : Decidable (IsName cs) :=
  decidable_of_iff (Nested.IsWord cs ∧ cs.head?.any Digits.isDigit = false ∧
      ∀ b : Bool, cs ≠ if b then ['t', 'r', 'u', 'e'] else ['f', 'a', 'l', 's', 'e'])
    ⟨fun h => ⟨h.1, h.2.1, h.2.2⟩, fun h => ⟨h.1, h.2, h.3⟩⟩

theorem not_isDelimiter_of_isDigit {c : Char} (h : Digits.isDigit c = true) :
    Nested.isDelimiter c = false :=
  Nested.isDelimiter_eq_false rfl rfl rfl h

theorem intText_eq {n : Int} (h : 0 ≤ n) : (Digits.intText n).toList = Digits.ofNat n.toNat := by
  have hn : n.natAbs = n.toNat := by omega
  rw [Digits.intText, if_neg (by omega), Digits.text, String.toList_ofList, hn]

theorem isWord_digits (n : Nat) : Nested.IsWord (Digits.ofNat n) where
  ne_nil := Digits.ofNat_ne_nil n
  not_delimiter c hc := not_isDelimiter_of_isDigit (Digits.isDigit_ofNat n c hc)

theorem not_isDelimiter_numeral {n : Numeral} (h : n.Proper) :
    ∀ c ∈ n.text, Nested.isDelimiter c = false := by
  intro c hc
  simp only [Numeral.text, List.mem_append] at hc
  rcases hc with hc | hc | hc
  · exact not_isDelimiter_of_isDigit (h.whole c hc)
  · cases hf : n.fraction with
    | none => simp [Numeral.fractionText, hf] at hc
    | some ds =>
      rw [hf, Numeral.fractionText] at hc
      rcases List.mem_cons.1 hc with rfl | hc
      · rfl
      · exact not_isDelimiter_of_isDigit (h.fraction ds hf c hc)
  · cases he : n.exponent with
    | none => simp [Numeral.exponentText, he] at hc
    | some e =>
      rw [he, Numeral.exponentText, Exponent.text] at hc
      rcases List.mem_cons.1 hc with rfl | hc
      · rcases h.mark e he with hm | hm <;> rw [hm] <;> rfl
      · rcases List.mem_append.1 hc with hc | hc
        · rcases h.sign e he c (Option.mem_toList.1 hc) with rfl | rfl <;> rfl
        · exact not_isDelimiter_of_isDigit (h.power e he c hc)

theorem head?_numeral {n : Numeral} (h : n.Proper) (hw : n.whole ≠ []) :
    ∃ c ∈ n.text.head?, Digits.isDigit c = true := by
  obtain ⟨c, r, hc⟩ := List.exists_cons_of_ne_nil hw
  refine ⟨c, by rw [Numeral.text, hc]; rfl, h.whole c (by rw [hc]; simp)⟩

/-! ### Expressions whose line can be read -/

/-- The expression, its parts aside, is told from others by its line. -/
def Legible : Expr → Prop
  | missing => False
  | bool _ _ | unit _ | get _ _ _ | put _ _ _ _ | call _ _ _ => True
  | int _ n => 0 ≤ n
  | float _ v => v.isFinite = true ∧ v.isNegative = false
  | var _ name => IsName name.toList
  | unary _ op _ => op ∈ UnaryOp.all
  | binary _ op _ _ => op ∈ BinaryOp.all
  | cond _ _ _ n _ e => n.isSome = e.isSome
  | bind _ b _ _ => IsName b.name.toList
  | bindRec _ f ps _ _ => ∀ b ∈ f :: ps, IsName b.name.toList

inductive AllLegible : Expr → Prop
  | intro {e : Expr} : e.Legible → (∀ c ∈ e.children, AllLegible c) → AllLegible e

theorem isWord_float {v : Binary64} (hf : v.isFinite = true) (hn : v.isNegative = false) :
    Nested.IsWord v.sourceText.toList := by
  obtain ⟨n, hp, -, hw, ht, -⟩ := Binary64.exists_numeral hf hn
  obtain ⟨c, hc, -⟩ := head?_numeral hp hw
  rw [← ht]
  refine ⟨?_, not_isDelimiter_numeral hp⟩
  rintro h0
  rw [h0] at hc
  cases hc

def heads : List (List Char) :=
  [['i', 'f'], ['l', 'e', 't'], ['l', 'e', 't', 'r', 'e', 'c'], ['g', 'e', 't'], ['p', 'u', 't'],
    ['c', 'a', 'l', 'l']]

theorem isWord_of_mem_heads : ∀ cs ∈ heads, Nested.IsWord cs := by decide

theorem unaryOp_name : ∀ op ∈ UnaryOp.all,
    Nested.IsWord op.name.toList ∧ op.name.toList ∉ heads := by decide

theorem binaryOp_name : ∀ op ∈ BinaryOp.all,
    Nested.IsWord op.name.toList ∧ op.name.toList ∉ heads := by decide

theorem proper_list {cs : List Char} {xs : List Nested} (hc : Nested.IsWord cs)
    (hx : ∀ x ∈ xs, x.Proper) : (Nested.list (.word cs :: xs)).Proper :=
  .list (List.forall_mem_cons.2 ⟨.word hc, hx⟩)

/-- **The line of a legible expression is made of words.** -/
theorem nested_proper {e : Expr} (h : e.AllLegible) : e.nested.Proper := by
  induction h with
  | @intro e he _ ih =>
    have hh := fun cs => isWord_of_mem_heads cs
    cases e with
    | missing => cases he
    | bool r b => cases b <;> exact .word (by decide)
    | int r n => exact .word (intText_eq he ▸ isWord_digits _)
    | float r v => exact .word (isWord_float he.1 he.2)
    | unit r => exact .list nofun
    | var r x => exact .word he.toIsWord
    | unary r op x => exact proper_list (unaryOp_name _ he).1 (by simpa [children] using ih)
    | binary r op x y => exact proper_list (binaryOp_name _ he).1 (by simpa [children] using ih)
    | cond r c y n i o =>
      exact proper_list (hh _ (by decide)) (by simpa [children, nestedOption_eq] using ih)
    | bind r b x n =>
      have hb : (nameWord b).Proper := .word he.toIsWord
      exact proper_list (hh _ (by decide)) (by simpa [children, nestedOption_eq, hb] using ih)
    | bindRec r f ps x n =>
      have hb : ∀ b ∈ f :: ps, (nameWord b).Proper := fun b hb => .word (he b hb).toIsWord
      obtain ⟨hf, hps⟩ := List.forall_mem_cons.1 hb
      have hp : (Nested.list (ps.map nameWord)).Proper := .list (by simpa using hps)
      exact proper_list (hh _ (by decide)) (by simpa [children, nestedOption_eq, hf, hp] using ih)
    | get r a i => exact proper_list (hh _ (by decide)) (by simpa [children] using ih)
    | put r a i v => exact proper_list (hh _ (by decide)) (by simpa [children] using ih)
    | call r f as =>
      exact proper_list (hh _ (by decide)) (by simpa [children, nestedList_eq] using ih)

/-! ### Telling expressions apart -/

def isNumber : Expr → Bool
  | int _ _ | float _ _ => true
  | _ => false

theorem any_head?_digits (n : Nat) : (Digits.ofNat n).head?.any Digits.isDigit = true := by
  obtain ⟨c, r, hc⟩ := List.exists_cons_of_ne_nil (Digits.ofNat_ne_nil n)
  rw [hc]
  exact Digits.isDigit_ofNat n c (by rw [hc]; simp)

/-- The words of numbers are those that start with a digit. -/
theorem any_head?_word {e : Expr} (he : e.Legible) {cs : List Char} (h : e.nested = .word cs) :
    cs.head?.any Digits.isDigit = e.isNumber := by
  cases e with
  | missing => cases he
  | bool r b =>
    cases h
    cases b <;> rfl
  | int r n =>
    cases h
    rw [intText_eq he]
    exact any_head?_digits _
  | float r v =>
    cases h
    obtain ⟨n, hp, -, hw, ht, -⟩ := Binary64.exists_numeral he.1 he.2
    obtain ⟨c, hc, hd⟩ := head?_numeral hp hw
    rw [← ht, hc]
    exact hd
  | var r x =>
    cases h
    exact he.not_isDigit
  | _ => cases h

theorem isNumber_eq {e f : Expr} (he : e.Legible) (hf : f.Legible) {cs : List Char}
    (h : e.nested = .word cs) (h' : f.nested = .word cs) : e.isNumber = f.isNumber :=
  (any_head?_word he h).symm.trans (any_head?_word hf h')

theorem sourceText_ne_intText {v : Binary64} (hf : v.isFinite = true) (hn : v.isNegative = false)
    {k : Int} (hk : 0 ≤ k) : v.sourceText.toList ≠ (Digits.intText k).toList := by
  obtain ⟨n, hp, hfl, -, ht, -⟩ := Binary64.exists_numeral hf hn
  intro he
  rw [← ht, intText_eq hk] at he
  rcases hp.isFloat_iff.1 hfl with hm | hm | hm <;> rw [he] at hm <;>
    exact absurd (Digits.isDigit_ofNat _ _ hm) (by decide)

theorem eq_of_intText_eq {m n : Int} (hm : 0 ≤ m) (hn : 0 ≤ n)
    (h : (Digits.intText m).toList = (Digits.intText n).toList) : m = n := by
  rw [intText_eq hm, intText_eq hn] at h
  have hmn := congrArg Digits.toNat h
  rw [Digits.toNat_ofNat, Digits.toNat_ofNat] at hmn
  omega

/-- Expressions written as one word are told apart by the word. -/
theorem nested_word_spec {e f : Expr} (he : e.Legible) (hf : f.Legible) {cs : List Char}
    (h : e.nested = .word cs) (h' : f.nested = .word cs) : e.shape = f.shape := by
  have hnum := isNumber_eq he hf h h'
  rw [← h'] at h
  cases e with
  | missing => cases he
  | bool r b =>
    cases f with
    | bool r' b' => cases b <;> cases b' <;> first | rfl | cases h
    | var r' x => exact absurd (Nested.word.inj h).symm (hf.ne_bool b)
    | missing => cases hf
    | int | float => cases hnum
    | _ => cases h
  | int r n =>
    cases f with
    | int r' m => rw [shape, shape, eq_of_intText_eq he hf (Nested.word.inj h)]
    | float r' v => exact absurd (Nested.word.inj h).symm (sourceText_ne_intText hf.1 hf.2 he)
    | missing => cases hf
    | bool | var => cases hnum
    | _ => cases h
  | float r v =>
    cases f with
    | float r' w =>
      have hw := String.toList_inj.1 (Nested.word.inj h)
      rw [shape, shape, Binary64.sourceText_injective he.1 he.2 hf.1 hf.2 hw]
    | int r' n => exact absurd (Nested.word.inj h) (sourceText_ne_intText he.1 he.2 hf)
    | missing => cases hf
    | bool | var => cases hnum
    | _ => cases h
  | var r x =>
    cases f with
    | var r' y => rw [shape, shape, String.toList_inj.1 (Nested.word.inj h)]
    | bool r' b => exact absurd (Nested.word.inj h) (he.ne_bool b)
    | missing => cases hf
    | int | float => cases hnum
    | _ => cases h
  | _ => cases h.trans h'

theorem children_of_word {e : Expr} {cs : List Char} (h : e.nested = .word cs) :
    e.children = [] := by
  cases e <;> first | rfl | cases h

theorem map_toList_inj {α β : Type} {g : α → β} {o p : Option α} :
    o.toList.map g = p.toList.map g ↔ o.map g = p.map g := by
  cases o <;> cases p <;> simp

theorem nameWord_inj {b c : Binder} : nameWord b = nameWord c ↔ b.shape = c.shape := by
  simp [nameWord, Binder.shape, String.toList_inj]

theorem map_nameWord_inj {ps qs : List Binder} :
    ps.map nameWord = qs.map nameWord ↔ ps.map Binder.shape = qs.map Binder.shape :=
  ⟨map_eq_of_map_eq fun _ _ _ _ => nameWord_inj.1, map_eq_of_map_eq fun _ _ _ _ => nameWord_inj.2⟩

/-- Conditionals with and without `else` at the same time have it in the same place. -/
theorem map_default_eq {n m : Option Expr} {o p : Option Range} (hn : n.isSome = o.isSome)
    (hm : m.isSome = p.isSome) (h : n.map shape = m.map shape) :
    (o.map fun _ => (default : Range)) = p.map fun _ => default := by
  have hs := congrArg Option.isSome h
  rw [Option.isSome_map, Option.isSome_map, hn, hm] at hs
  cases o <;> cases p <;> first | rfl | cases hs

/-- The expression is the same up to its parts, and its parts have the same lines. -/
theorem nested_spec {e f : Expr} (he : e.Legible) (hf : f.Legible) (h : e.nested = f.nested) :
    e.children.map nested = f.children.map nested ∧
      (e.children.map shape = f.children.map shape → e.shape = f.shape) := by
  cases e with
  | missing => cases he
  | bool | int | float | var =>
    have hs := nested_word_spec he hf rfl h.symm
    exact ⟨by rw [children_of_word rfl, children_of_word h.symm], fun _ => hs⟩
  | unit r => cases f <;> simp_all [nested, children, shape]
  | unary r op x =>
    have hk := (unaryOp_name _ he).2
    cases f <;> simp_all [nested, children, shape, heads, String.toList_inj]
  | binary r op x y =>
    have hk := (binaryOp_name _ he).2
    cases f <;> simp_all [nested, children, shape, heads, String.toList_inj]
  | cond r c y n i o =>
    cases f with
    | cond r' c' y' n' i' o' =>
      simp only [nested, Nested.list.injEq, List.cons.injEq, nestedOption_eq, true_and] at h
      obtain ⟨hc, hy, hn⟩ := h
      refine ⟨by simp [children, hc, hy, hn], fun hs => ?_⟩
      simp only [children, List.map_cons, List.cons.injEq, map_toList_inj] at hs
      obtain ⟨hc, hy, hn⟩ := hs
      simp only [shape, shapeOption_eq, hc, hy, hn, map_default_eq he hf hn]
    | binary r' op x' y' =>
      have hk := (binaryOp_name _ hf).2
      simp_all [nested, heads]
    | missing => cases hf
    | _ => simp [nested] at h
  | get | put | bind | bindRec | call =>
    cases f with
    | unary r' op x' =>
      have hk := (unaryOp_name _ hf).2
      simp_all [nested, heads]
    | binary r' op x' y' =>
      have hk := (binaryOp_name _ hf).2
      simp_all [nested, heads]
    | _ =>
      simp_all [nested, nestedOption_eq, nestedList_eq, children, shape, map_toList_inj,
        nameWord_inj, map_nameWord_inj]

theorem shape_eq_of_nested_eq (e : Expr) :
    ∀ f : Expr, e.AllLegible → f.AllLegible → e.nested = f.nested → e.shape = f.shape := by
  induction e using induct_children with
  | _ e ih =>
    intro f he hf h
    cases he with
    | intro hel hec =>
    cases hf with
    | intro hfl hfc =>
    obtain ⟨hmap, heq⟩ := nested_spec hel hfl h
    exact heq (map_eq_of_map_eq (fun a ha b hb => ih a ha b (hec a ha) (hfc b hb)) hmap)

/-- A nested list shows no places and no declared types. -/
theorem nested_shape (e : Expr) : e.shape.nested = e.nested := by
  have hopt : ∀ {n : Option Expr}, (∀ m ∈ n, m.shape.nested = m.nested) →
      (n.map shape).toList.map nested = n.toList.map nested := by
    intro n hn
    cases n with
    | none => rfl
    | some m => exact congrArg (fun x => [x]) (hn m rfl)
  have hname : nameWord ∘ Binder.shape = nameWord := rfl
  induction e with
  | missing | bool | int | float | unit | var => rfl
  | unary r op x hx => simp [shape, nested, hx]
  | binary r op x y hx hy => simp [shape, nested, hx, hy]
  | cond r c y n i o hc hy hn =>
    simp only [shape, nested, nestedOption_eq, shapeOption_eq, hc, hy, hopt hn]
  | bind r b x n hx hn =>
    simp only [shape, nested, nestedOption_eq, shapeOption_eq, hx, hopt hn]
    rfl
  | bindRec r f ps x n hx hn =>
    simp only [shape, nested, nestedOption_eq, shapeOption_eq, hx, hopt hn, List.map_map, hname]
    rfl
  | get r a i ha hi => simp [shape, nested, ha, hi]
  | put r a i v ha hi hv => simp [shape, nested, ha, hi, hv]
  | call r f as hf has =>
    simpa [shape, nested, nestedList_eq, hf] using has

/-- **The line of a legible expression determines it, up to places and declared types.** -/
theorem sexpText_eq_iff {e f : Expr} (he : e.AllLegible) (hf : f.AllLegible) :
    e.sexpText = f.sexpText ↔ e.shape = f.shape := by
  rw [sexpText_eq, sexpText_eq, String.ofList_inj, ← text_nested, ← text_nested]
  constructor
  · intro h
    exact e.shape_eq_of_nested_eq f he hf
      (Nested.text_injective (nested_proper he) (nested_proper hf) h)
  · intro h
    rw [← nested_shape e, h, nested_shape f]

end Expr

end SmallMl
