import SmallMl.Proofs.Tree.Parts
import SmallMl.Token.Lexeme

/-!
# Trees as source text

`Expr.Written e cs` says that `cs` is a source text of `e` in which each part of each expression
stands in parentheses.  A tree may have more than one such text: a float has many numerals, and an
index stands in parentheses anyway.

Not every tree has a source text that can be read: a name has to be an identifier, an integer must
not be negative, an annotation has to be a type the grammar knows.  `Expr.Writable` collects what a
tree needs; `Expr.exists_written` says that then it has a text.
-/

namespace SmallMl

/-- The text is a token of this kind when it stands on its own. -/
def Kind.SpelledAs (k : Kind) (cs : List Char) : Prop :=
  ∃ c r, cs = c :: r ∧ Lexeme.isBlank c = false ∧ Lexeme.read c r = ⟨c :: r, [], .ok k, false⟩

/-- A basic type, or arrays of it. -/
inductive Ty.Plain : Ty → Prop
  | basic (b : Basic) : Plain (.basic b)
  | array {ty : Ty} : Plain ty → Plain (.array ty)

namespace Binder

def text (b : Binder) : List Char :=
  match b.declared with
  | none => b.name.toList
  | some ty => Ty.inParens (b.name.toList ++ ' ' :: ':' :: ' ' :: ty.chars)

/-- The name is an identifier and the type, if there is one, is plain. -/
def Writable (b : Binder) : Prop :=
  Kind.ident.SpelledAs b.name.toList ∧ ∀ ty ∈ b.declared, ty.Plain

/-- `let x =` -/
def letText (b : Binder) : List Char := ['l', 'e', 't'] ++ ' ' :: (b.text ++ [' ', '='])

def resultText : Option Ty → List Char
  | none => []
  | some ty => ' ' :: ':' :: ' ' :: ty.chars

def recText (f : Binder) (ps : List Binder) : List Char :=
  ['l', 'e', 't'] ++ ' ' :: (['r', 'e', 'c'] ++ ' ' :: (f.name.toList ++
    (ps.flatMap (fun p => ' ' :: p.text) ++ (resultText f.declared ++ [' ', '=']))))

end Binder

namespace Expr

open Ty (inParens)

/-- An index stands in the parentheses that mark it; it may have parentheses of its own. -/
def IndexText (cs is : List Char) : Prop := is = inParens cs ∨ is = inParens (inParens cs)

/-- The text of the expression with parentheses around each part. -/
inductive Written : Expr → List Char → Prop
  | bool {r : Range} {b : Bool} :
      Written (.bool r b) (if b then ['t', 'r', 'u', 'e'] else ['f', 'a', 'l', 's', 'e'])
  | int {r : Range} {n : Int} : Written (.int r n) (Digits.intText n).toList
  | float {r : Range} {v : Binary64} {cs : List Char} : (Kind.float v).SpelledAs cs →
      Written (.float r v) cs
  | unit {r : Range} : Written (.unit r) ['(', ')']
  | var {r : Range} {x : String} : Written (.var r x) x.toList
  | unary {r : Range} {op : UnaryOp} {x : Expr} {cs : List Char} : Written x cs →
      Written (.unary r op x) (' ' :: (op.name.toList ++ ' ' :: inParens cs))
  | binary {r : Range} {op : BinaryOp} {x y : Expr} {cs ds : List Char} : Written x cs →
      Written y ds →
      Written (.binary r op x y) (inParens cs ++ ' ' :: (op.name.toList ++ ' ' :: inParens ds))
  | cond {r i : Range} {e : Option Range} {c y : Expr} {cs ds : List Char} : Written c cs →
      Written y ds →
      Written (.cond r c y none i e)
        (['i', 'f'] ++ ' ' :: (inParens cs ++ ' ' :: (['t', 'h', 'e', 'n'] ++ ' ' :: inParens ds)))
  | condElse {r i : Range} {e : Option Range} {c y n : Expr} {cs ds ns : List Char} :
      Written c cs → Written y ds → Written n ns →
      Written (.cond r c y (some n) i e)
        (['i', 'f'] ++ ' ' :: (inParens cs ++ ' ' :: (['t', 'h', 'e', 'n'] ++ ' ' :: (inParens ds ++
          ' ' :: (['e', 'l', 's', 'e'] ++ ' ' :: inParens ns)))))
  | bind {r : Range} {b : Binder} {x : Expr} {cs : List Char} : Written x cs →
      Written (.bind r b x none) (b.letText ++ ' ' :: inParens cs)
  | bindIn {r : Range} {b : Binder} {x y : Expr} {cs ds : List Char} : Written x cs →
      Written y ds →
      Written (.bind r b x (some y))
        (b.letText ++ ' ' :: (inParens cs ++ ' ' :: (['i', 'n'] ++ ' ' :: inParens ds)))
  | bindRec {r : Range} {f : Binder} {ps : List Binder} {x : Expr} {cs : List Char} :
      Written x cs → Written (.bindRec r f ps x none) (f.recText ps ++ ' ' :: inParens cs)
  | bindRecIn {r : Range} {f : Binder} {ps : List Binder} {x y : Expr} {cs ds : List Char} :
      Written x cs → Written y ds →
      Written (.bindRec r f ps x (some y))
        (f.recText ps ++ ' ' :: (inParens cs ++ ' ' :: (['i', 'n'] ++ ' ' :: inParens ds)))
  | get {r : Range} {a i : Expr} {cs ds is : List Char} : Written a cs → Written i ds →
      IndexText ds is → Written (.get r a i) (inParens cs ++ '.' :: is)
  | put {r : Range} {a i v : Expr} {cs ds is vs : List Char} : Written a cs → Written i ds →
      IndexText ds is → Written v vs →
      Written (.put r a i v)
        (inParens cs ++ '.' :: (is ++ ' ' :: (['<', '-'] ++ ' ' :: inParens vs)))
  | call {r : Range} {f : Expr} {cs : List Char} {as : List (Expr × List Char)} : Written f cs →
      (∀ a ∈ as, Written a.1 a.2) →
      Written (.call r f (as.map Prod.fst))
        (inParens cs ++ as.flatMap fun a => ' ' :: inParens a.2)

/-- The expression, its parts aside, has a source text that can be read. -/
def Spellable : Expr → Prop
  | missing => False
  | bool _ _ | unit _ | cond _ _ _ _ _ _ | get _ _ _ | put _ _ _ _ => True
  | int _ n => 0 ≤ n ∧ n.toNat < Nat.pow 2 63
  | float _ v => ∃ cs, (Kind.float v).SpelledAs cs
  | var _ x => Kind.ident.SpelledAs x.toList
  | unary _ op _ => op ∈ UnaryOp.all
  | binary _ op _ _ => op ∈ BinaryOp.all
  | bind _ b _ _ => b.Writable
  | bindRec _ f ps _ _ => f.Writable ∧ ps ≠ [] ∧ ∀ p ∈ ps, p.Writable
  | call _ _ as => as ≠ []

/-- The expression and all that is in it has a source text that can be read. -/
inductive Writable : Expr → Prop
  | intro {e : Expr} : e.Spellable → (∀ c ∈ e.children, Writable c) → Writable e

theorem Writable.spellable {e : Expr} (h : e.Writable) : e.Spellable := by
  cases h with
  | intro h _ => exact h

theorem Writable.child {e c : Expr} (h : e.Writable)
    (hc : c ∈ e.children := by simp [Expr.children]) : c.Writable := by
  cases h with
  | intro _ h => exact h c hc

theorem exists_written_list : ∀ {as : List Expr}, (∀ a ∈ as, ∃ cs, Written a cs) →
    ∃ ps : List (Expr × List Char), ps.map Prod.fst = as ∧ ∀ p ∈ ps, Written p.1 p.2 := by
  intro as
  induction as with
  | nil =>
    intro _
    exact ⟨[], rfl, by simp⟩
  | cons a as ih =>
    intro h
    obtain ⟨cs, hcs⟩ := h a (by simp)
    obtain ⟨ps, rfl, hps⟩ := ih fun b hb => h b (by simp [hb])
    exact ⟨(a, cs) :: ps, rfl, List.forall_mem_cons.2 ⟨hcs, hps⟩⟩

/-- **A writable tree has a text.** -/
theorem exists_written {e : Expr} (h : e.Writable) : ∃ cs, Written e cs := by
  induction h with
  | @intro e he _ ih =>
    cases e with
    | missing => cases he
    | bool r b => exact ⟨_, .bool⟩
    | int r n => exact ⟨_, .int⟩
    | float r v =>
      obtain ⟨cs, hcs⟩ := he
      exact ⟨cs, .float hcs⟩
    | unit r => exact ⟨_, .unit⟩
    | var r x => exact ⟨_, .var⟩
    | unary r op x =>
      obtain ⟨cs, hx⟩ := ih x (by simp [children])
      exact ⟨_, .unary hx⟩
    | binary r op x y =>
      obtain ⟨cs, hx⟩ := ih x (by simp [children])
      obtain ⟨ds, hy⟩ := ih y (by simp [children])
      exact ⟨_, .binary hx hy⟩
    | cond r c y n i o =>
      obtain ⟨cs, hc⟩ := ih c (by simp [children])
      obtain ⟨ds, hy⟩ := ih y (by simp [children])
      cases n with
      | none => exact ⟨_, .cond hc hy⟩
      | some n =>
        obtain ⟨ns, hn⟩ := ih n (by simp [children])
        exact ⟨_, .condElse hc hy hn⟩
    | bind r b x n =>
      obtain ⟨cs, hx⟩ := ih x (by simp [children])
      cases n with
      | none => exact ⟨_, .bind hx⟩
      | some n =>
        obtain ⟨ns, hn⟩ := ih n (by simp [children])
        exact ⟨_, .bindIn hx hn⟩
    | bindRec r f ps x n =>
      obtain ⟨cs, hx⟩ := ih x (by simp [children])
      cases n with
      | none => exact ⟨_, .bindRec hx⟩
      | some n =>
        obtain ⟨ns, hn⟩ := ih n (by simp [children])
        exact ⟨_, .bindRecIn hx hn⟩
    | get r a i =>
      obtain ⟨cs, ha⟩ := ih a (by simp [children])
      obtain ⟨ds, hi⟩ := ih i (by simp [children])
      exact ⟨_, .get ha hi (.inl rfl)⟩
    | put r a i v =>
      obtain ⟨cs, ha⟩ := ih a (by simp [children])
      obtain ⟨ds, hi⟩ := ih i (by simp [children])
      obtain ⟨vs, hv⟩ := ih v (by simp [children])
      exact ⟨_, .put ha hi (.inl rfl) hv⟩
    | call r f as =>
      obtain ⟨cs, hf⟩ := ih f (by simp [children])
      have has : ∀ a ∈ as, ∃ cs, Written a cs := fun a ha => ih a (by simp [children, ha])
      obtain ⟨ps, rfl, hps⟩ := exists_written_list has
      exact ⟨_, .call hf hps⟩

end Expr

end SmallMl
