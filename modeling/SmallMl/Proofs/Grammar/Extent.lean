import SmallMl.Proofs.Grammar.Reading
import SmallMl.Proofs.Token.Listing
import SmallMl.Proofs.Tree.Parts

/-!
# Ranges in a tree

Every node of a program that was read covers a stretch of the tokens of the text, from the start of
one token to the end of one, and the stretches nest as the nodes do: parts and marks lie inside
their node, the parts of one node do not overlap, and they stand in the text in the order in which
a walk meets them.  The only exception is `>=` and `<`, which exchange their operands.

`Program.ranges_exact` is the statement.  It is an induction over the grammar: the parts of a phrase
are phrases over disjoint stretches of its tokens (`laidOut_of_parts`), and the tokens of a
text stand one behind the other.
-/

namespace SmallMl

namespace Range

def Before (r s : Range) : Prop := r.stop.offset ≤ s.start.offset

def Disjoint (r s : Range) : Prop := r.Before s ∨ s.Before r

theorem contains_iff {r s : Range} :
    r.contains s = true ↔ r.start.offset ≤ s.start.offset ∧ s.stop.offset ≤ r.stop.offset := by
  simp [contains]

theorem contains_trans {r s u : Range} (h : r.contains s = true) (h' : s.contains u = true) :
    r.contains u = true := by
  rw [contains_iff] at h h' ⊢
  omega

end Range

namespace Grammar

/-! ### Stretches of ordered tokens -/

theorem exists_startOf {ts : List Token} (h : ts ≠ []) : ∃ t ∈ ts, startOf ts = t.range.start := by
  cases ts with
  | nil => exact absurd rfl h
  | cons t ts => exact ⟨t, by simp, rfl⟩

theorem exists_endOf {ts : List Token} (h : ts ≠ []) : ∃ t ∈ ts, endOf ts = t.range.stop := by
  refine ⟨ts.getLast h, List.getLast_mem h, ?_⟩
  rw [endOf, List.getLast?_eq_some_getLast h]

theorem mem_bounds {ts : List Token} (ho : Token.Ordered ts) {t : Token} (ht : t ∈ ts) :
    (startOf ts).offset ≤ t.range.start.offset ∧ t.range.stop.offset ≤ (endOf ts).offset := by
  constructor
  · cases ts with
    | nil => cases ht
    | cons u ts =>
      rcases List.mem_cons.1 ht with rfl | ht
      · exact Int.le_refl _
      · have hu := (List.pairwise_cons.1 ho.sorted).1 t ht
        have hn := ho.nonempty u (by simp)
        rw [startOf_cons]
        omega
  · obtain ⟨us, u, rfl⟩ := List.eq_nil_or_concat ts |>.resolve_left (List.ne_nil_of_mem ht)
    rw [List.concat_eq_append] at ho ht ⊢
    rw [endOf_append (by simp), endOf_singleton]
    rcases List.mem_append.1 ht with ht | ht
    · have hu := (List.pairwise_append.1 ho.sorted).2.2 t ht u (by simp)
      have hn := ho.nonempty u (by simp)
      omega
    · obtain rfl := List.mem_singleton.1 ht
      exact Int.le_refl _

theorem spanOf_nonempty {ts : List Token} (ho : Token.Ordered ts) (hn : ts ≠ []) :
    (startOf ts).offset < (endOf ts).offset := by
  obtain ⟨t, ht, hs⟩ := exists_startOf hn
  have hb := (mem_bounds ho ht).2
  have hl := ho.nonempty t ht
  rw [hs]
  omega

theorem spanOf_contains {ts us : List Token} (ho : Token.Ordered ts) (hs : us.Sublist ts)
    (hn : us ≠ []) : (spanOf ts).contains (spanOf us) = true := by
  obtain ⟨t, ht, hst⟩ := exists_startOf hn
  obtain ⟨u, hu, hen⟩ := exists_endOf hn
  have ht' := (mem_bounds ho (hs.subset ht)).1
  have hu' := (mem_bounds ho (hs.subset hu)).2
  rw [Range.contains_iff]
  simp only [spanOf, hst, hen]
  exact ⟨ht', hu'⟩

theorem spanOf_before {ts us : List Token} (ho : Token.Ordered (ts ++ us)) (hn : ts ≠ [])
    (hn' : us ≠ []) : (spanOf ts).Before (spanOf us) := by
  obtain ⟨t, ht, hen⟩ := exists_endOf hn
  obtain ⟨u, hu, hst⟩ := exists_startOf hn'
  have := (List.pairwise_append.1 ho.sorted).2.2 t ht u hu
  simp only [Range.Before, spanOf, hst, hen]
  exact this

theorem spans_pairwise : ∀ {ss : List (List Token)}, Token.Ordered ss.flatten →
    (∀ s ∈ ss, s ≠ []) → (ss.map spanOf).Pairwise Range.Before := by
  intro ss
  induction ss with
  | nil => intro _ _; exact .nil
  | cons s ss ih =>
    intro ho hn
    rw [List.flatten_cons] at ho
    refine List.pairwise_cons.2 ⟨?_, ih (ho.sublist (List.sublist_append_right _ _)) ?_⟩
    · intro r hr
      obtain ⟨u, hu, rfl⟩ := List.mem_map.1 hr
      have hs : (s ++ u).Sublist (s ++ ss.flatten) :=
        (List.Sublist.refl s).append (List.sublist_flatten_of_mem hu)
      exact spanOf_before (ho.sublist hs) (hn s (by simp)) (hn u (by simp [hu]))
    · intro u hu
      exact hn u (by simp [hu])

end Grammar

/-! ### Nodes over tokens -/

open Grammar

/-- The token is one of the two comparisons that exchange their operands. -/
def Token.exchanges (t : Token) : Bool := t.lit = ['>', '='] || t.lit = ['<']

namespace Node

/-- The parts of the node stand in the text in the order of a walk.  The operands of a binary
operation have the operator between them, and they are exchanged if it is spelled `>=` or `<`. -/
def InOrder (ts : List Token) : Node → Prop
  | expr (.binary _ _ x y) => ∃ u t v op, [u, t, v] <:+: ts ∧ t.kind = .operator op ∧
      if t.exchanges then
        y.range.Before x.range ∧ y.range.stop = u.range.stop ∧ x.range.start = v.range.start
      else x.range.Before y.range ∧ x.range.stop = u.range.stop ∧ y.range.start = v.range.start
  | n => n.children.Pairwise fun c d => c.range.Before d.range

/-- The node reaches from the first to the last of some tokens, and its parts lie in between. -/
structure LaidOut (ts : List Token) (n : Node) : Prop where
  stretch : ∃ us, us ≠ [] ∧ us.Sublist ts ∧ n.range = spanOf us
  children : ∀ c ∈ n.children, n.range.contains c.range = true
  marks : ∀ r ∈ n.marks, n.range.contains r = true
  disjoint : n.children.Pairwise fun c d => c.range.Disjoint d.range
  order : n.InOrder ts

end Node

/-! ### Parts of phrases -/

namespace Grammar

def isBinary : Node → Bool
  | .expr (.binary _ _ _ _) => true
  | _ => false

theorem inOrder_of_not_binary {ts : List Token} {n : Node} (h : isBinary n = false) :
    n.InOrder ts ↔ n.children.Pairwise fun c d => c.range.Before d.range := by
  cases n with
  | program p => exact Iff.rfl
  | expr e =>
    cases e with
    | binary => cases h
    | _ => exact Iff.rfl

theorem inOrder_withRange {ts : List Token} {r : Range} {e : Expr} :
    (Node.expr (e.withRange r)).InOrder ts ↔ (Node.expr e).InOrder ts := by
  cases e <;> exact Iff.rfl

section

variable {all ts : List Token} {e : Expr}

/-- The part `c` of a node covers the stretch `us`. -/
structure Part (all us : List Token) (c : Expr) : Prop where
  ne_nil : us ≠ []
  range_eq : c.range = spanOf us
  everywhere : c.Everywhere (Node.LaidOut all)

def Covers (ts : List Token) (r : Range) : Prop := ∃ us, us ≠ [] ∧ us.Sublist ts ∧ r = spanOf us

theorem parts_spec {ss : List (List Token)} {cs : List Expr} (h : List.Forall₂ (Part all) ss cs) :
    cs.map Expr.range = ss.map spanOf ∧ (∀ us ∈ ss, us ≠ []) ∧
      ∀ c ∈ cs, c.Everywhere (Node.LaidOut all) := by
  induction h with
  | nil => simp
  | cons hp _ ih =>
    obtain ⟨hr, hn, he⟩ := ih
    simp only [List.map_cons, List.forall_mem_cons]
    exact ⟨by rw [hp.range_eq, hr], ⟨hp.ne_nil, hn⟩, hp.everywhere, he⟩

/-- **A node whose parts cover stretches of its tokens**, one behind the other. -/
theorem laidOut_of_parts {n : Node} (ho : Token.Ordered all) (hi : ts.Sublist all) (hn : ts ≠ [])
    (hr : n.range = spanOf ts) (hb : isBinary n = false) {ss : List (List Token)}
    (hp : List.Forall₂ (Part all) ss n.children) (hs : ss.flatten.Sublist ts)
    (hk : ∀ r ∈ n.marks, Covers ts r) : n.LaidOut all := by
  obtain ⟨hc, hss, _⟩ := parts_spec hp
  have hots := ho.sublist hi
  have hbef : n.children.Pairwise fun c d => c.range.Before d.range := by
    rw [← List.pairwise_map, hc]
    exact spans_pairwise (hots.sublist hs) hss
  refine ⟨⟨ts, hn, hi, hr⟩, ?_, ?_, hbef.imp Or.inl, (inOrder_of_not_binary hb).2 hbef⟩
  · intro c hcm
    have hcr : c.range ∈ ss.map spanOf := by
      rw [← hc]
      exact List.mem_map_of_mem hcm
    obtain ⟨us, hus, hur⟩ := List.mem_map.1 hcr
    rw [hr, ← hur]
    exact spanOf_contains hots ((List.sublist_flatten_of_mem hus).trans hs) (hss us hus)
  · intro r hrm
    obtain ⟨us, hun, hus, rfl⟩ := hk r hrm
    rw [hr]
    exact spanOf_contains hots hus hun

theorem everywhere_of_parts (ho : Token.Ordered all) (hi : ts <:+: all) (hn : ts ≠ [])
    (hm : e.isMissing = false) (hr : e.range = spanOf ts) (hb : isBinary (.expr e) = false)
    {ss : List (List Token)} (hp : List.Forall₂ (Part all) ss e.children)
    (hs : ss.flatten.Sublist ts) (hk : ∀ r ∈ e.marks, Covers ts r) :
    e.Everywhere (Node.LaidOut all) :=
  (Expr.everywhere_iff hm).2
    ⟨laidOut_of_parts ho hi.sublist hn hr hb hp hs hk, (parts_spec hp).2.2⟩

theorem laidOut_withRange (h : (Node.expr e).LaidOut all) (hm : e.isMissing = false)
    (hi : ts <:+: all) (hn : ts ≠ []) (hs : (spanOf ts).contains e.range = true) :
    (Node.expr (e.withRange (spanOf ts))).LaidOut all := by
  have hr : (e.withRange (spanOf ts)).range = spanOf ts := Expr.range_withRange _ hm
  refine ⟨⟨ts, hn, hi.sublist, hr⟩, ?_, ?_, ?_, inOrder_withRange.2 h.order⟩
  · intro c hc
    show (e.withRange (spanOf ts)).range.contains c.range = true
    rw [hr]
    exact Range.contains_trans hs (h.children c (by simpa [Node.children] using hc))
  · intro r hrm
    show (e.withRange (spanOf ts)).range.contains r = true
    rw [hr]
    exact Range.contains_trans hs (h.marks r (by simpa [Node.marks] using hrm))
  · simpa [Node.children] using h.disjoint

theorem exchanges_eq {t : Token} {op : Operator} (h : t.lit = op.spelling) :
    t.exchanges = op.form.swap := by
  rw [Token.exchanges, h]
  cases op <;> rfl

theorem operator_between {us : List Token} {t : Token} {x y : Expr} (ho : Token.Ordered all)
    (hi : ts ++ (t :: us) <:+: all) (hx : Derives .expr ts x) (hy : Derives .expr us y) :
    x.range.Before y.range ∧ ∃ u v, [u, t, v] <:+: all ∧ x.range.stop = u.range.stop ∧
      y.range.start = v.range.start := by
  have hrx := hx.range_eq_spanOf (by simp)
  have hry := hy.range_eq_spanOf (by simp)
  refine ⟨?_, ?_⟩
  · have hs : (ts ++ us).Sublist (ts ++ (t :: us)) :=
      (List.Sublist.refl ts).append (List.sublist_cons_self t us)
    rw [hrx, hry]
    exact spanOf_before (ho.sublist (hs.trans hi.sublist)) hx.ne_nil hy.ne_nil
  · exact hx.between hy hi

theorem everywhere_binary {o : BinaryOp} {x y : Expr} (hi : ts <:+: all) (hn : ts ≠ [])
    (hcx : (spanOf ts).contains x.range = true) (hcy : (spanOf ts).contains y.range = true)
    (hd : x.range.Disjoint y.range) (hord : (Node.expr (.binary (spanOf ts) o x y)).InOrder all)
    (hpx : x.Everywhere (Node.LaidOut all)) (hpy : y.Everywhere (Node.LaidOut all)) :
    (Expr.binary (spanOf ts) o x y).Everywhere (Node.LaidOut all) := by
  refine (Expr.everywhere_iff rfl).2 ⟨⟨⟨ts, hn, hi.sublist, rfl⟩, ?_, ?_, ?_, hord⟩, ?_⟩
  · intro c hc
    rcases List.mem_pair.1 hc with rfl | rfl
    · exact hcx
    · exact hcy
  · intro r hr
    cases hr
  · exact List.pairwise_pair.2 hd
  · intro c hc
    rcases List.mem_pair.1 hc with rfl | rfl
    · exact hpx
    · exact hpy

theorem everywhere_combine {us : List Token} {t : Token} {op : Operator} {x y : Expr}
    (ho : Token.Ordered all) (hi : ts ++ (t :: us) <:+: all) (hl : t.lit = op.spelling)
    (ht : t.kind = .operator op) (hx : Derives .expr ts x) (hy : Derives .expr us y)
    (hpx : x.Everywhere (Node.LaidOut all)) (hpy : y.Everywhere (Node.LaidOut all)) :
    (op.combine x y).Everywhere (Node.LaidOut all) := by
  have hrx := hx.range_eq_spanOf (by simp)
  have hry := hy.range_eq_spanOf (by simp)
  have hr : Range.span x.range y.range = spanOf (ts ++ (t :: us)) := by
    rw [hrx, hry]
    exact span_spanOf hx.ne_nil hy.ne_nil [t]
  have hots := ho.sublist hi.sublist
  have hcx : (spanOf (ts ++ (t :: us))).contains x.range = true := by
    rw [hrx]
    exact spanOf_contains hots (List.sublist_append_left _ _) hx.ne_nil
  have hcy : (spanOf (ts ++ (t :: us))).contains y.range = true := by
    rw [hry]
    exact spanOf_contains hots ((List.sublist_cons_self _ _).trans (List.sublist_append_right _ _))
      hy.ne_nil
  obtain ⟨hb, u, v, huv, hu, hv⟩ := operator_between ho hi hx hy
  -- the operation itself, with its operands in one of the two orders
  have hop : (if op.form.swap then Expr.binary (spanOf (ts ++ (t :: us))) op.form.op y x
      else Expr.binary (spanOf (ts ++ (t :: us))) op.form.op x y).Everywhere
        (Node.LaidOut all) := by
    cases hsw : op.form.swap with
    | false =>
      refine everywhere_binary hi (by simp) hcx hcy (.inl hb) ⟨u, t, v, op, huv, ht, ?_⟩ hpx hpy
      rw [exchanges_eq hl, hsw]
      exact ⟨hb, hu, hv⟩
    | true =>
      refine everywhere_binary hi (by simp) hcy hcx (.inr hb) ⟨u, t, v, op, huv, ht, ?_⟩ hpy hpx
      rw [exchanges_eq hl, hsw]
      exact ⟨hb, hu, hv⟩
  rw [Operator.combine, hr]
  split
  · have hpart : Part all (ts ++ (t :: us)) (if op.form.swap then
        Expr.binary (spanOf (ts ++ (t :: us))) op.form.op y x
        else Expr.binary (spanOf (ts ++ (t :: us))) op.form.op x y) :=
      ⟨by simp, by split <;> rfl, hop⟩
    exact everywhere_of_parts ho hi (by simp) rfl rfl rfl (.cons hpart .nil) (by simp)
      (by simp [Expr.marks])
  · exact hop

theorem leaf?_parts {t : Token} {x : Expr} (h : t.leaf? = some x) :
    x.children = [] ∧ x.marks = [] ∧ isBinary (.expr x) = false := by
  unfold Token.leaf? at h
  split at h <;> cases h <;> exact ⟨rfl, rfl, rfl⟩

theorem everywhere_leaf (ho : Token.Ordered all) (hi : ts <:+: all) (hn : ts ≠ [])
    (hm : e.isMissing = false) (hr : e.range = spanOf ts)
    (hp : e.children = [] ∧ e.marks = [] ∧ isBinary (.expr e) = false) :
    e.Everywhere (Node.LaidOut all) := by
  obtain ⟨hc, hk, hb⟩ := hp
  have hp : List.Forall₂ (Part all) [] e.children := by
    rw [hc]
    exact .nil
  exact everywhere_of_parts ho hi hn hm hr hb hp (by simp) (by simp [hk])

theorem Covers.sublist {us : List Token} {r : Range} (h : Covers us r) (hs : us.Sublist ts) :
    Covers ts r := by
  obtain ⟨vs, hn, hv, hr⟩ := h
  exact ⟨vs, hn, hv.trans hs, hr⟩

theorem covers_token {t : Token} (h : t ∈ ts) : Covers ts t.range :=
  ⟨[t], by simp, List.singleton_sublist.2 h, rfl⟩

theorem BinderOf.covers {b : Binder} (h : BinderOf ts b) : Covers ts b.range :=
  ⟨ts, h.ne_nil, List.Sublist.refl ts, h.range_eq⟩

theorem LetHead.covers {b : Binder} (h : LetHead ts b) : Covers ts b.range := by
  cases h with
  | intro hl hb he =>
    exact hb.covers.sublist ((List.sublist_append_left _ _).trans (List.sublist_cons_self _ _))

theorem ParamsOf.covers {ps : List Binder} (h : ParamsOf ts ps) :
    ∀ r ∈ ps.map Binder.range, Covers ts r := by
  induction h with
  | nil => simp
  | snoc _ hb ih =>
    intro r hr
    rw [List.map_append] at hr
    rcases List.mem_append.1 hr with hr | hr
    · exact (ih r hr).sublist (List.sublist_append_left _ _)
    · rw [List.mem_singleton.1 hr]
      exact hb.covers.sublist (List.sublist_append_right _ _)

theorem RecHead.covers {f : Binder} {ps : List Binder} (h : RecHead ts f ps) :
    ∀ r ∈ f.range :: ps.map Binder.range, Covers ts r := by
  cases h with
  | @intro l w n q ts us ps ty hl hr hn hp hps hu hq =>
    intro r hrm
    rcases List.mem_cons.1 hrm with rfl | hrm
    · exact covers_token (by simp)
    · refine (hp.covers r hrm).sublist ?_
      exact (List.sublist_append_left _ _).trans
        (((List.sublist_cons_self _ _).trans (List.sublist_cons_self _ _)).trans
          (List.sublist_cons_self _ _))

theorem everywhere_snoc_argument {us : List Token} {r : Range} {f a : Expr} {as : List Expr}
    (ho : Token.Ordered all) (hi : ts ++ us <:+: all) (hc : Derives .call ts (.call r f as))
    (ha : Derives .atom us a) (hpc : (Expr.call r f as).Everywhere (Node.LaidOut all))
    (hpa : a.Everywhere (Node.LaidOut all)) :
    (Expr.call (spanOf (ts ++ us)) f (as ++ [a])).Everywhere (Node.LaidOut all) := by
  obtain ⟨hl, hcs⟩ := (Expr.everywhere_iff rfl).1 hpc
  have hr : r = spanOf ts := hc.range_eq_spanOf (by simp)
  have hra : a.range = spanOf us := ha.range_eq_spanOf (by simp)
  have hots := ho.sublist hi.sublist
  have hin : ∀ c ∈ f :: as, (spanOf ts).contains c.range = true := by
    intro c hcm
    rw [← hr]
    exact hl.children c hcm
  have hst := spanOf_contains hots (List.sublist_append_left ts us) hc.ne_nil
  have hbef : (f :: (as ++ [a])).Pairwise fun c d => c.range.Before d.range := by
    rw [← List.cons_append]
    refine List.pairwise_append.2 ⟨hl.order, List.pairwise_singleton _ _, ?_⟩
    intro c hcm d hd
    rw [List.mem_singleton.1 hd, hra]
    have h₁ := (Range.contains_iff.1 (hin c hcm)).2
    have h₂ := spanOf_before hots hc.ne_nil ha.ne_nil
    simp only [Range.Before] at h₂ ⊢
    omega
  have hmem : ∀ c ∈ f :: (as ++ [a]), c ∈ f :: as ∨ c = a := by
    intro c hcm
    simp only [List.mem_cons, List.mem_append, List.not_mem_nil, or_false] at hcm ⊢
    tauto
  refine (Expr.everywhere_iff rfl).2 ⟨⟨⟨_, by simp [hc.ne_nil], hi.sublist, rfl⟩, ?_, ?_,
    hbef.imp Or.inl, hbef⟩, ?_⟩
  · intro c hcm
    show (spanOf (ts ++ us)).contains c.range = true
    rcases hmem c hcm with hcm | rfl
    · exact Range.contains_trans hst (hin c hcm)
    · rw [hra]
      exact spanOf_contains hots (List.sublist_append_right _ _) ha.ne_nil
  · intro r hrm
    cases hrm
  · intro c hcm
    rcases hmem c hcm with hcm | rfl
    · exact hcs c hcm
    · exact hpa

/-- The body of a binding and the front of what follows `in`. -/
theorem sublist_of_body {hs us vs : List Token} {n : Token} (h : vs.Sublist us) :
    [ts, vs].flatten.Sublist (hs ++ (ts ++ (n :: us))) := by
  have hv : (vs ++ []).Sublist (n :: us) := by
    rw [List.append_nil]
    exact h.cons n
  exact ((List.Sublist.refl ts).append hv).trans (List.sublist_append_right _ _)

/-- **Every node of a phrase is laid out over the tokens.** -/
theorem Derives.laidOut {c : Category} (ho : Token.Ordered all)
    (hl : ∀ t ∈ all, ∀ o, t.kind = .operator o → t.lit = o.spelling) (h : Derives c ts e) :
    ts <:+: all → e.Everywhere (Node.LaidOut all) := by
  -- a phrase that is no sequence covers all its tokens
  have part : ∀ {c us x}, Derives c us x → c ≠ .seq → x.Everywhere (Node.LaidOut all) →
      Part all us x := fun hx hc hp => ⟨hx.ne_nil, hx.range_eq_spanOf hc, hp⟩
  -- a sequence may leave out the semicolon at its end
  have front : ∀ {us x}, Derives .seq us x → x.Everywhere (Node.LaidOut all) →
      ∃ vs, vs <+: us ∧ Part all vs x := by
    intro us x hx hp
    obtain ⟨vs, ws, he, hn, hr, _⟩ := hx.range_eq
    exact ⟨vs, ⟨ws, he.symm⟩, hn, hr, hp⟩
  induction h with
  | leaf ht =>
    intro hi
    exact everywhere_leaf ho hi (by simp) (leaf?_range ht).2 (leaf?_range ht).1 (leaf?_parts ht)
  | unit _ _ =>
    intro hi
    exact everywhere_leaf ho hi (by simp) rfl rfl ⟨rfl, rfl, rfl⟩
  | @paren a b ts x ha hx hb ih =>
    intro hi
    have hpx := ih (List.IsInfix.trans ⟨[a], [b], rfl⟩ hi)
    have hr : (⟨a.range.start, b.range.stop⟩ : Range) = spanOf (a :: (ts ++ [b])) := by
      rw [spanOf, startOf_cons, ← List.cons_append, endOf_append (by simp), endOf_singleton]
    obtain ⟨hlx, hcs⟩ := (Expr.everywhere_iff hx.isMissing_eq).1 hpx
    have hin : (spanOf (a :: (ts ++ [b]))).contains x.range = true := by
      obtain ⟨us, vs, rfl, hn, hr', _⟩ := hx.range_eq
      rw [hr']
      refine spanOf_contains (ho.sublist hi.sublist) (List.Sublist.cons _ ?_) hn
      exact (List.sublist_append_left _ _).trans (List.sublist_append_left _ _)
    rw [hr]
    refine (Expr.everywhere_iff (by rw [isMissing_withRange, hx.isMissing_eq])).2 ⟨?_, ?_⟩
    · exact laidOut_withRange hlx hx.isMissing_eq hi (by simp) hin
    · rw [Expr.children_withRange]
      exact hcs
  | calleeAtom _ ih | arrayAtom _ ih | operandCallee _ ih | operandCall _ ih | operandArray _ ih
    | exprOperand _ ih | seqExpr _ ih => exact ih
  | calleeMake _ =>
    intro hi
    exact everywhere_leaf ho hi (by simp) rfl rfl ⟨rfl, rfl, rfl⟩
  | @firstArgument ts us f a hf ha ihf iha =>
    intro hi
    have hpf := part hf (by simp) (ihf (List.IsInfix.trans ⟨[], us, rfl⟩ hi))
    have hpa := part ha (by simp) (iha (List.IsInfix.trans ⟨ts, [], by simp⟩ hi))
    exact everywhere_of_parts ho hi (by simp [hf.ne_nil]) rfl rfl rfl (.cons hpf (.cons hpa .nil))
      (by simp) (by simp [Expr.marks])
  | @nextArgument ts us r f a as hc ha ihc iha =>
    intro hi
    exact everywhere_snoc_argument ho hi hc ha (ihc (List.IsInfix.trans ⟨[], us, rfl⟩ hi))
      (iha (List.IsInfix.trans ⟨ts, [], by simp⟩ hi))
  | @get ts us d o c a i ha hd ho' hx hc iha ihx =>
    intro hi
    have hpa := part ha (by simp) (iha (List.IsInfix.trans ⟨[], d :: o :: (us ++ [c]), rfl⟩ hi))
    have hpx := part hx (by simp) (ihx (List.IsInfix.trans ⟨ts ++ [d, o], [c], by simp⟩ hi))
    refine everywhere_of_parts ho hi (by simp) rfl rfl rfl (.cons hpa (.cons hpx .nil)) ?_
      (by simp [Expr.marks])
    exact (List.Sublist.refl ts).append
      (((List.Sublist.refl us).append (List.nil_sublist _)).cons _ |>.cons _)
  | @put ts us vs d o c w a i v ha hd ho' hx hc hw hv iha ihx ihv =>
    intro hi
    have hpa := part ha (by simp) (iha (List.IsInfix.trans ⟨[], _, rfl⟩ hi))
    have hpx := part hx (by simp)
      (ihx (List.IsInfix.trans ⟨ts ++ [d, o], c :: w :: vs, by simp⟩ hi))
    have hpv := part hv (by simp)
      (ihv (List.IsInfix.trans ⟨ts ++ (d :: o :: (us ++ [c, w])), [], by simp⟩ hi))
    refine everywhere_of_parts ho hi (by simp) rfl rfl rfl (.cons hpa (.cons hpx (.cons hpv .nil)))
      ?_ (by simp [Expr.marks])
    have hsv : (vs ++ []).Sublist (c :: w :: vs) := by simp
    exact (List.Sublist.refl ts).append (((List.Sublist.refl us).append hsv).cons _ |>.cons _)
  | @prefixed t ts op x ht hx ih =>
    intro hi
    have hpx := part hx (by simp) (ih (List.IsInfix.trans ⟨[t], [], by simp⟩ hi))
    exact everywhere_of_parts ho hi (by simp) rfl rfl rfl (.cons hpx .nil) (by simp)
      (by simp [Expr.marks])
  | @cond i h cs ys c y hi' hc ht hy ihc ihy =>
    intro hi
    have hpc := part hc (by simp) (ihc (List.IsInfix.trans ⟨[i], h :: ys, rfl⟩ hi))
    have hpy := part hy (by simp) (ihy (List.IsInfix.trans ⟨i :: (cs ++ [h]), [], by simp⟩ hi))
    refine everywhere_of_parts ho hi (by simp) rfl rfl rfl (.cons hpc (.cons hpy .nil)) ?_ ?_
    · have hsy : (ys ++ []).Sublist (h :: ys) := by simp
      exact ((List.Sublist.refl cs).append hsy).cons _
    · intro r hr
      rw [List.mem_singleton.1 hr]
      exact covers_token (by simp)
  | @condElse i h e cs ys ns c y n hi' hc ht hy he hn ihc ihy ihn =>
    intro hi
    have hpc := part hc (by simp) (ihc (List.IsInfix.trans ⟨[i], _, rfl⟩ hi))
    have hpy := part hy (by simp)
      (ihy (List.IsInfix.trans ⟨i :: (cs ++ [h]), e :: ns, by simp⟩ hi))
    have hpn := part hn (by simp)
      (ihn (List.IsInfix.trans ⟨i :: (cs ++ (h :: (ys ++ [e]))), [], by simp⟩ hi))
    refine everywhere_of_parts ho hi (by simp) rfl rfl rfl (.cons hpc (.cons hpy (.cons hpn .nil)))
      ?_ ?_
    · have hsn : (ns ++ []).Sublist (e :: ns) := by simp
      exact ((List.Sublist.refl cs).append (((List.Sublist.refl ys).append hsn).cons _)).cons _
    · intro r hr
      rcases List.mem_pair.1 hr with rfl | rfl
      · exact covers_token (by simp)
      · exact covers_token (by simp)
  | @bind hs ts b x hh hx ih =>
    intro hi
    have hpx := part hx (by simp) (ih (List.IsInfix.trans ⟨hs, [], by simp⟩ hi))
    refine everywhere_of_parts ho hi (by simp [hx.ne_nil]) rfl rfl rfl (.cons hpx .nil) (by simp) ?_
    intro r hr
    rw [List.mem_singleton.1 hr]
    exact hh.covers.sublist (List.sublist_append_left _ _)
  | @bindIn hs ts us n b x y hh hx hn hy ihx ihy =>
    intro hi
    have hpx := part hx (by simp) (ihx (List.IsInfix.trans ⟨hs, n :: us, by simp⟩ hi))
    obtain ⟨vs, hv, hpy⟩ := front hy (ihy (List.IsInfix.trans ⟨hs ++ (ts ++ [n]), [], by simp⟩ hi))
    refine everywhere_of_parts ho hi (by simp) rfl rfl rfl (.cons hpx (.cons hpy .nil)) ?_ ?_
    · exact sublist_of_body hv.sublist
    · intro r hr
      rw [List.mem_singleton.1 hr]
      exact hh.covers.sublist (List.sublist_append_left _ _)
  | @bindRec hs ts f ps x hh hx ih =>
    intro hi
    have hpx := part hx (by simp) (ih (List.IsInfix.trans ⟨hs, [], by simp⟩ hi))
    refine everywhere_of_parts ho hi (by simp [hx.ne_nil]) rfl rfl rfl (.cons hpx .nil) (by simp) ?_
    intro r hr
    exact (hh.covers r hr).sublist (List.sublist_append_left _ _)
  | @bindRecIn hs ts us n f ps x y hh hx hn hy ihx ihy =>
    intro hi
    have hpx := part hx (by simp) (ihx (List.IsInfix.trans ⟨hs, n :: us, by simp⟩ hi))
    obtain ⟨vs, hv, hpy⟩ := front hy (ihy (List.IsInfix.trans ⟨hs ++ (ts ++ [n]), [], by simp⟩ hi))
    refine everywhere_of_parts ho hi (by simp) rfl rfl rfl (.cons hpx (.cons hpy .nil)) ?_ ?_
    · exact sublist_of_body hv.sublist
    · intro r hr
      exact (hh.covers r hr).sublist (List.sublist_append_left _ _)
  | @binary ts us t op x y hx ht hy ihx ihy =>
    intro hi
    have hta : t ∈ all := hi.subset (by simp)
    exact everywhere_combine ho hi (hl t hta op ht) ht hx hy
      (ihx (List.IsInfix.trans ⟨[], t :: us, rfl⟩ hi))
      (ihy (List.IsInfix.trans ⟨ts ++ [t], [], by simp⟩ hi))
  | @seqTrailing ts t x _ _ ih =>
    intro hi
    exact ih (List.IsInfix.trans ⟨[], [t], rfl⟩ hi)
  | @seqCons ts us t x y hx ht hy ihx ihy =>
    intro hi
    have hpx := part hx (by simp) (ihx (List.IsInfix.trans ⟨[], t :: us, rfl⟩ hi))
    obtain ⟨vs, ⟨ws, rfl⟩, hpy⟩ := front hy (ihy (List.IsInfix.trans ⟨ts ++ [t], [], by simp⟩ hi))
    have hr : Range.span x.range y.range = spanOf (ts ++ (t :: vs)) := by
      rw [hpx.range_eq, hpy.range_eq]
      exact span_spanOf hpx.ne_nil hpy.ne_nil [t]
    have hi' : ts ++ (t :: vs) <:+: all := List.IsInfix.trans ⟨[], ws, by simp⟩ hi
    refine everywhere_of_parts ho hi' (by simp) rfl hr rfl (.cons hpx (.cons hpy .nil)) ?_ ?_
    · have hsv : (vs ++ []).Sublist (t :: vs) := by simp
      exact (List.Sublist.refl ts).append hsv
    · intro r hr
      rw [List.mem_singleton.1 hr]
      exact covers_token (by simp)

/-! ### Programs -/

theorem ItemsOf.parts {items : List Expr} (ho : Token.Ordered all)
    (hl : ∀ t ∈ all, ∀ o, t.kind = .operator o → t.lit = o.spelling) (h : ItemsOf ts items) :
    ts <:+: all → ∃ ss, List.Forall₂ (Part all) ss items.reverse ∧ ss.flatten.Sublist ts := by
  induction h with
  | nil =>
    intro _
    exact ⟨[], .nil, by simp⟩
  | @semi ts t xs _ _ ih =>
    intro hi
    obtain ⟨ss, hp, hs⟩ := ih (List.IsInfix.trans ⟨[], [t], rfl⟩ hi)
    exact ⟨ss, hp, hs.trans (List.sublist_append_left _ _)⟩
  | @item ts us x xs _ hx ih =>
    intro hi
    obtain ⟨ss, hp, hs⟩ := ih (List.IsInfix.trans ⟨[], us, rfl⟩ hi)
    have hpx : Part all us x := ⟨hx.ne_nil, hx.range_eq_spanOf (by simp),
      hx.laidOut ho hl (List.IsInfix.trans ⟨ts, [], by simp⟩ hi)⟩
    refine ⟨ss ++ [us], ?_, ?_⟩
    · rw [List.reverse_cons]
      exact List.rel_append hp (.cons hpx .nil)
    · rw [List.flatten_append, List.flatten_singleton]
      exact hs.append (List.Sublist.refl us)

/-- A program reaches from its first item to its last. -/
theorem range_program {s : State} {ss : List (List Token)} (t : Token) (hn : s.items ≠ [])
    (hp : List.Forall₂ (Part all) ss s.items.reverse) :
    (s.program t).range = spanOf ss.flatten := by
  rw [State.program]
  split
  · next first rest last rest' hf hlast =>
    -- the first stretch and the last one
    rw [hf] at hp
    have hp' : List.Forall₂ (Part all) ss.reverse (last :: rest') := by
      rw [← hlast, ← List.forall₂_reverse_iff, List.reverse_reverse, hf]
      exact hp
    obtain ⟨us, ss₁, hu, _, rfl⟩ := List.forall₂_cons_right_iff.1 hp
    obtain ⟨vs, ss₂, hv, _, he⟩ := List.forall₂_cons_right_iff.1 hp'
    have he : us :: ss₁ = ss₂.reverse ++ [vs] := by
      rw [← List.reverse_reverse (us :: ss₁), he, List.reverse_cons]
    have hstart : startOf (us :: ss₁).flatten = startOf us := by
      rw [List.flatten_cons, startOf_append hu.ne_nil]
    have hstop : endOf (us :: ss₁).flatten = endOf vs := by
      rw [he, List.flatten_append, List.flatten_singleton, endOf_append hv.ne_nil]
    rw [spanOf, hstart, hstop]
    show Range.span first.range last.range = _
    rw [hu.range_eq, hv.range_eq]
    rfl
  · next h =>
    obtain ⟨last, rest, hlast⟩ := List.exists_cons_of_ne_nil hn
    obtain ⟨first, rest', hfirst⟩ := List.exists_cons_of_ne_nil (List.reverse_ne_nil_iff.2 hn)
    exact (h first rest' last rest hfirst hlast).elim

end

end Grammar

/-- The range of the node is exact, and the ranges of its parts lie in it as they should; `ts` are
the tokens of the text without comments. -/
structure Node.Exact (text : List Char) (ts : List Token) (n : Node) : Prop where
  nonempty : n.isEmptyProgram = false → n.range.start.offset < n.range.stop.offset
  start_token : n.isEmptyProgram = false → ∃ t ∈ ts, n.range.start = t.range.start
  stop_token : n.isEmptyProgram = false → ∃ t ∈ ts, n.range.stop = t.range.stop
  start_place : n.range.start.AgreesWith text
  stop_place : n.range.stop.AgreesWith text
  children : ∀ c ∈ n.children, n.range.contains c.range = true
  marks : ∀ r ∈ n.marks, n.range.contains r = true
  disjoint : n.children.Pairwise fun c d => c.range.Disjoint d.range
  order : n.InOrder ts

namespace Node

/-- A node that is laid out over the tokens of a text is exact. -/
theorem LaidOut.exact {text : List Char} {ts : List Token} {n : Node} (h : n.LaidOut ts)
    (ho : Token.Ordered ts) (hp : ∀ t ∈ ts, t.Placed text) : n.Exact text ts := by
  obtain ⟨us, hne, hs, hr⟩ := h.stretch
  obtain ⟨t, ht, hst⟩ := exists_startOf hne
  obtain ⟨u, hu, hen⟩ := exists_endOf hne
  have hstart : n.range.start = t.range.start := by
    rw [hr, ← hst]
    rfl
  have hstop : n.range.stop = u.range.stop := by
    rw [hr, ← hen]
    rfl
  refine ⟨fun _ => ?_, fun _ => ⟨t, hs.subset ht, hstart⟩, fun _ => ⟨u, hs.subset hu, hstop⟩, ?_,
    ?_, h.children, h.marks, h.disjoint, h.order⟩
  · rw [hr]
    exact spanOf_nonempty (ho.sublist hs) hne
  · rw [hstart]
    exact (hp t (hs.subset ht)).start
  · rw [hstop]
    exact (hp u (hs.subset hu)).stop

end Node

namespace Program

/-- **Ranges are exact and nested.**  Every node that a walk meets in a program that was read starts
where a token starts and ends where a token ends, at a place whose line and column are those of its
offset; its parts and marks lie inside it, its parts do not overlap, and a walk meets them in the
order of the text, the operands of `>=` and `<` excepted. -/
theorem ranges_exact {settings : Settings} {text : List Char} {p : Program}
    (h : (parse settings text).result = .ok p) :
    ∀ n ∈ (Node.program p).preorder Node.any,
      n.Exact text (Stream.ofText settings text).tokens := by
  obtain ⟨ts, src, e, items, hem, hn, he, hi, rfl⟩ := itemsOf_parse h
  obtain ⟨hat, hp, ho, _⟩ := hem.placed (Stream.at_ofText settings text)
  rw [Stream.tokens_eq hem hn he]
  obtain ⟨ss, hparts, hs⟩ := hi.parts ho hem.lit_of_operator (List.infix_refl ts)
  intro n hnm
  rw [Node.preorder_program, items_program] at hnm
  rcases List.mem_cons.1 hnm with rfl | hnm
  · by_cases hne : items = []
    · -- the program without items stands at the end token
      subst hne
      obtain ⟨hes, hee⟩ := hat.next_eof hn he
      refine ⟨?_, ?_, ?_, hes, hee, ?_, ?_, ?_, ?_⟩
      · intro hemp
        cases hemp
      · intro hemp
        cases hemp
      · intro hemp
        cases hemp
      · intro c hc
        cases hc
      · intro r hr
        cases hr
      · exact .nil
      · exact .nil
    · have hne' : ss.flatten ≠ [] := by
        obtain ⟨x, xs, hx⟩ := List.exists_cons_of_ne_nil (List.reverse_ne_nil_iff.2 hne)
        rw [hx] at hparts
        obtain ⟨us, ss', hu, _, rfl⟩ := List.forall₂_cons_right_iff.1 hparts
        rw [List.flatten_cons]
        simp [hu.ne_nil]
      have hr := range_program (s := ⟨items, [], .top, endOf ts⟩) e hne hparts
      have hc : List.Forall₂ (Part ts) ss
          (Node.program (State.program ⟨items, [], .top, endOf ts⟩ e)).children := by
        rw [Node.children, items_program]
        exact hparts
      have hl : (Node.program (State.program ⟨items, [], .top, endOf ts⟩ e)).LaidOut ts :=
        laidOut_of_parts ho hs hne' hr rfl hc (List.Sublist.refl _) (fun r hr => by cases hr)
      exact hl.exact ho hp
  · obtain ⟨x, hx, hxn⟩ := List.mem_flatMap.1 hnm
    have hl := (parts_spec hparts).2.2 x hx n hxn
    exact hl.exact ho hp

/-- In `(a < 1; b)` the comparison stands under a negation with its operands exchanged, and the
semicolon is the mark of the binding that discards it. -/
theorem ranges_exact_comparison :
    ∃ p, (parse {} "(a < 1; b)".toList).result = .ok p ∧
      ∀ n ∈ (Node.program p).preorder Node.any,
        n.Exact "(a < 1; b)".toList (Stream.ofText {} "(a < 1; b)".toList).tokens := by
  have h : ∃ p, (Parse.runWithin 10 .initial (.ofText {} "(a < 1; b)".toList)).map Parse.result
      = some (.ok p) := ⟨_, rfl⟩
  obtain ⟨p, hp⟩ := h
  exact ⟨p, result_parse_of_within hp, ranges_exact (result_parse_of_within hp)⟩

end Program

end SmallMl
