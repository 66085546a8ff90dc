import SmallMl.Number.Layout
import SmallMl.Tree.Expr

/-!
# Expressions in one line

`Expr.sexp` writes an expression as a list in parentheses with its head in front, without ranges and
declared types: `1 + 2 * 3` is `(+ 1 (* 2 3))`.

Putting the parts together copies each of them once for every level it is nested in.
`Expr.sexpBefore` writes an expression in front of a text and copies nothing; both give the same
text (`Expr.sexpBefore_eq`).
-/

namespace SmallMl

namespace Expr

def paramNames : List Binder → List Char
  | [] => []
  | [b] => b.name.toList
  | b :: bs => b.name.toList ++ ' ' :: paramNames bs

def listHead (name : List Char) : List Char := '(' :: (name ++ [' '])

mutual

/-- The expression in one line. -/
def sexp : Expr → List Char
  | missing => ['<', 'n', 'i', 'l', '>']
  | bool _ b => if b then ['t', 'r', 'u', 'e'] else ['f', 'a', 'l', 's', 'e']
  | int _ n => (Digits.intText n).toList
  | float _ v => v.sourceText.toList
  | unit _ => ['(', ')']
  | var _ name => name.toList
  | unary _ op x => listHead op.name.toList ++ x.sexp ++ [')']
  | binary _ op x y => listHead op.name.toList ++ x.sexp ++ ' ' :: y.sexp ++ [')']
  | cond _ c y n _ _ => listHead ['i', 'f'] ++ c.sexp ++ ' ' :: y.sexp ++ sexpOption n ++ [')']
  | bind _ b x n =>
    listHead ['l', 'e', 't'] ++ b.name.toList ++ ' ' :: x.sexp ++ sexpOption n ++ [')']
  | bindRec _ f ps x n =>
    listHead ['l', 'e', 't', 'r', 'e', 'c'] ++ f.name.toList ++ ' ' :: '(' :: paramNames ps ++
      ')' :: ' ' :: x.sexp ++ sexpOption n ++ [')']
  | get _ a i => listHead ['g', 'e', 't'] ++ a.sexp ++ ' ' :: i.sexp ++ [')']
  | put _ a i v => listHead ['p', 'u', 't'] ++ a.sexp ++ ' ' :: i.sexp ++ ' ' :: v.sexp ++ [')']
  | call _ f as => listHead ['c', 'a', 'l', 'l'] ++ f.sexp ++ sexpList as ++ [')']

def sexpOption : Option Expr → List Char
  | none => []
  | some e => ' ' :: e.sexp

/-- Arguments, each behind a blank. -/
def sexpList : List Expr → List Char
  | [] => []
  | e :: es => ' ' :: e.sexp ++ sexpList es

end

/-! ### Writing in front of a text -/

mutual

/-- The expression in one line, in front of the text `k`. -/
def sexpBefore : Expr → List Char → List Char
  | unary _ op x, k => listHead op.name.toList ++ x.sexpBefore (')' :: k)
  | binary _ op x y, k =>
    listHead op.name.toList ++ x.sexpBefore (' ' :: y.sexpBefore (')' :: k))
  | cond _ c y n _ _, k =>
    listHead ['i', 'f'] ++ c.sexpBefore (' ' :: y.sexpBefore (sexpOptionBefore n (')' :: k)))
  | bind _ b x n, k =>
    listHead ['l', 'e', 't'] ++ (b.name.toList ++ ' ' ::
      x.sexpBefore (sexpOptionBefore n (')' :: k)))
  | bindRec _ f ps x n, k =>
    listHead ['l', 'e', 't', 'r', 'e', 'c'] ++ (f.name.toList ++ ' ' :: '(' :: (paramNames ps ++
      ')' :: ' ' :: x.sexpBefore (sexpOptionBefore n (')' :: k))))
  | get _ a i, k => listHead ['g', 'e', 't'] ++ a.sexpBefore (' ' :: i.sexpBefore (')' :: k))
  | put _ a i v, k =>
    listHead ['p', 'u', 't'] ++ a.sexpBefore (' ' :: i.sexpBefore (' ' :: v.sexpBefore (')' :: k)))
  | call _ f as, k => listHead ['c', 'a', 'l', 'l'] ++ f.sexpBefore (sexpListBefore as (')' :: k))
  | missing, k => sexp missing ++ k
  | bool r b, k => sexp (bool r b) ++ k
  | int r n, k => sexp (int r n) ++ k
  | float r v, k => sexp (float r v) ++ k
  | unit r, k => sexp (unit r) ++ k
  | var r name, k => sexp (var r name) ++ k

def sexpOptionBefore : Option Expr → List Char → List Char
  | none, k => k
  | some e, k => ' ' :: e.sexpBefore k

def sexpListBefore : List Expr → List Char → List Char
  | [], k => k
  | e :: es, k => ' ' :: e.sexpBefore (sexpListBefore es k)

end

theorem sexpOptionBefore_eq {n : Option Expr} (h : ∀ m ∈ n, ∀ k, m.sexpBefore k = m.sexp ++ k)
    (k : List Char) : sexpOptionBefore n k = sexpOption n ++ k := by
  cases n with
  | none => rfl
  | some e => simp [sexpOptionBefore, sexpOption, h e rfl]

theorem sexpListBefore_eq : ∀ {as : List Expr}, (∀ a ∈ as, ∀ k, a.sexpBefore k = a.sexp ++ k) →
    ∀ k, sexpListBefore as k = sexpList as ++ k := by
  intro as
  induction as with
  | nil =>
    intro _ k
    rfl
  | cons a as ih =>
    intro h k
    have ha := h a (List.mem_cons_self ..)
    have has := ih fun b hb => h b (List.mem_cons_of_mem _ hb)
    simp [sexpListBefore, sexpList, ha, has]

/-- **Nothing is added**: an expression in front of a text is its one line, then the text. -/
theorem sexpBefore_eq (e : Expr) : ∀ k, e.sexpBefore k = e.sexp ++ k := by
  induction e with
  | missing | bool | int | float | unit | var => intro k; rw [sexpBefore]
  | unary r op x hx => intro k; simp [sexpBefore, sexp, hx]
  | binary r op x y hx hy => intro k; simp [sexpBefore, sexp, hx, hy]
  | cond r c y n i e hc hy hn =>
    intro k
    simp [sexpBefore, sexp, hc, hy, sexpOptionBefore_eq hn]
  | bind r b x n hx hn => intro k; simp [sexpBefore, sexp, hx, sexpOptionBefore_eq hn]
  | bindRec r f ps x n hx hn => intro k; simp [sexpBefore, sexp, hx, sexpOptionBefore_eq hn]
  | get r a i ha hi => intro k; simp [sexpBefore, sexp, ha, hi]
  | put r a i v ha hi hv => intro k; simp [sexpBefore, sexp, ha, hi, hv]
  | call r f as hf has => intro k; simp [sexpBefore, sexp, hf, sexpListBefore_eq has]

def sexpText (e : Expr) : String := String.ofList (e.sexpBefore [])

theorem sexpText_eq (e : Expr) : e.sexpText = String.ofList e.sexp := by
  rw [sexpText, sexpBefore_eq, List.append_nil]

end Expr

end SmallMl
