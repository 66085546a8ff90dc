import SmallMl.Tree.Sexp

/-!
# Trees without places

`Expr.bare` forgets where an expression was read: every range in it becomes the default one.  Two
expressions are equal up to their ranges if their bare trees are equal.  The text in one line shows
no ranges, so it is the same for both (`Expr.sexp_bare`).
-/

namespace SmallMl

def Binder.bare (b : Binder) : Binder := { b with range := default }

namespace Expr

mutual

def bare : Expr → Expr
  | missing => missing
  | bool _ b => bool default b
  | int _ n => int default n
  | float _ v => float default v
  | unit _ => unit default
  | var _ name => var default name
  | unary _ op x => unary default op x.bare
  | binary _ op x y => binary default op x.bare y.bare
  | cond _ c y n _ _ =>
    cond default c.bare y.bare (bareOption n) default (n.map fun _ => default)
  | bind _ b x n => bind default b.bare x.bare (bareOption n)
  | bindRec _ f ps x n => bindRec default f.bare (ps.map Binder.bare) x.bare (bareOption n)
  | get _ a i => get default a.bare i.bare
  | put _ a i v => put default a.bare i.bare v.bare
  | call _ f as => call default f.bare (bareList as)

def bareOption : Option Expr → Option Expr
  | none => none
  | some e => some e.bare

def bareList : List Expr → List Expr
  | [] => []
  | e :: es => e.bare :: bareList es

end

@[simp] theorem bareOption_eq (o : Option Expr) : bareOption o = o.map bare := by
  cases o <;> rfl

@[simp] theorem bareList_eq (es : List Expr) : bareList es = es.map bare := by
  induction es with
  | nil => rfl
  | cons e es ih => rw [bareList, ih, List.map_cons]

@[simp] theorem range_bare (e : Expr) : e.bare.range = default := by
  cases e <;> rfl

@[simp] theorem bare_withRange (r : Range) (e : Expr) : (e.withRange r).bare = e.bare := by
  cases e <;> rfl

@[simp] theorem withRange_bare (e : Expr) : e.bare.withRange default = e.bare := by
  cases e <;> rfl

@[simp] theorem endsSequence_bare (e : Expr) : e.bare.endsSequence = e.endsSequence := by
  cases e with
  | bind r b x n => cases n <;> rfl
  | bindRec r f ps x n => cases n <;> rfl
  | _ => rfl

theorem paramNames_bare (ps : List Binder) : paramNames (ps.map Binder.bare) = paramNames ps := by
  induction ps with
  | nil => rfl
  | cons p ps ih =>
    cases ps with
    | nil => rfl
    | cons q qs => exact congrArg (p.name.toList ++ ' ' :: ·) ih

theorem sexpOption_bare {n : Option Expr} (h : ∀ m ∈ n, m.bare.sexp = m.sexp) :
    sexpOption (n.map bare) = sexpOption n := by
  cases n with
  | none => rfl
  | some e => rw [Option.map_some, sexpOption, sexpOption, h e rfl]

theorem sexpList_bare : ∀ {as : List Expr}, (∀ a ∈ as, a.bare.sexp = a.sexp) →
    sexpList (as.map bare) = sexpList as := by
  intro as
  induction as with
  | nil =>
    intro _
    rfl
  | cons a as ih =>
    intro h
    rw [List.map_cons, sexpList, sexpList, h a (by simp), ih fun b hb => h b (by simp [hb])]

/-- **The text in one line shows no places.** -/
theorem sexp_bare (e : Expr) : e.bare.sexp = e.sexp := by
  induction e with
  | missing | bool | int | float | unit | var => rfl
  | unary r op x hx => simp [bare, sexp, hx]
  | binary r op x y hx hy => simp [bare, sexp, hx, hy]
  | cond r c y n i e hc hy hn => simp [bare, sexp, hc, hy, sexpOption_bare hn]
  | bind r b x n hx hn => simp [bare, sexp, hx, sexpOption_bare hn, Binder.bare]
  | bindRec r f ps x n hx hn =>
    simp [bare, sexp, hx, sexpOption_bare hn, paramNames_bare]
    rfl
  | get r a i ha hi => simp [bare, sexp, ha, hi]
  | put r a i v ha hi hv => simp [bare, sexp, ha, hi, hv]
  | call r f as hf has => simp [bare, sexp, hf, sexpList_bare has]

end Expr

end SmallMl
