import SmallMl.Proofs.Grammar.Literals
import SmallMl.Proofs.Tree.Written

/-!
# Programs are well formed

`Node.WellFormed ts n` collects what a node of a program has to satisfy: no part is missing, numbers
are in range, names are identifiers among the tokens `ts`, annotations are types of the grammar, and
a `let` that discards a value is what a semicolon stands for.  Each rule of the grammar makes a node
of this kind (`Grammar.NodeOf.wellFormed`), from three facts about the tokens of a text: they stand
one behind the other, their numbers fit, and no identifier is spelled `_`.

`Program.parse_wellFormed` is the statement.
-/

namespace SmallMl

open Grammar

/-! ### What is well formed -/

/-- The name is the text of an identifier. -/
def Named (ts : List Token) (name : String) : Prop :=
  ∃ t ∈ ts, t.kind = .ident ∧ name.toList = t.lit

/-- The name is an identifier and the type, if one is declared, a basic type or arrays of it. -/
structure Binder.WellFormed (ts : List Token) (b : Binder) : Prop where
  named : Named ts b.name
  plain : ∀ ty ∈ b.declared, ty.Plain

/-- A `let` of `b` to `x`, with the option for what it is bound in: the name is `_` just when `x; y`
was written, and an identifier otherwise. -/
structure LetWellFormed (ts : List Token) (b : Binder) (x : Expr) (next : Option Expr) :
    Prop where
  plain : ∀ ty ∈ b.declared, ty.Plain
  named : b.name ≠ discarded → Named ts b.name
  discarded_iff : b.name = discarded ↔ ∃ t, JoinedBy ts t x next
  unit : b.name = discarded → b.declared = some (.basic .unit) ∧ next.isSome = true
  covers : ∀ t, JoinedBy ts t x next → t ∈ ts ∧ t.kind = .semi ∧ b.range = t.range

/-- The expression, its parts aside, is well formed. -/
def Expr.WellFormed (ts : List Token) : Expr → Prop
  | missing => False
  | bool _ _ | unit _ | unary _ _ _ | binary _ _ _ _ | get _ _ _ | put _ _ _ _ => True
  | int _ n => 0 ≤ n ∧ n.toNat < Nat.pow 2 63
  | float _ v => v.isFinite = true ∧ v.isNegative = false
  | var _ name => Named ts name ∨ (name = arrayMake ∧ ∃ t ∈ ts, t.kind = .arrayMake)
  | cond _ _ _ n _ e => n.isSome = e.isSome
  | bind _ b x n => LetWellFormed ts b x n
  | bindRec _ f ps _ _ => ps ≠ [] ∧ ∀ b ∈ f :: ps, b.WellFormed ts
  | call _ _ as => as ≠ []

/-- No part of the node is missing, and it is well formed itself. -/
def Node.WellFormed (ts : List Token) (n : Node) : Prop :=
  (∀ c ∈ n.children, c.isMissing = false) ∧
    match n with
    | program _ => True
    | expr e => e.WellFormed ts

/-! ### Names -/

namespace Lexeme

theorem text_ne_discarded {c : Char} {r : List Char} {k : Kind} (h : (read c r).found = .ok k) :
    (read c r).text ≠ discarded.toList := by
  intro ht
  obtain ⟨w, hw, -⟩ := exists_text_eq c r
  rw [hw] at ht
  obtain ⟨rfl, -⟩ := List.cons.inj ht
  cases h

end Lexeme

theorem Stream.Emits.name_ne_discarded {src src' : Stream} {ts : List Token}
    (h : src.Emits ts src') {name : String} (hn : Named ts name) : name ≠ discarded := by
  rintro rfl
  obtain ⟨t, ht, -, hl⟩ := hn
  obtain ⟨c, r, hf, hx⟩ := h.exists_lexeme t ht
  exact Lexeme.text_ne_discarded hf (hx.trans hl.symm)

namespace Grammar

variable {all ts us : List Token} {e x y : Expr} {b : Binder}

theorem named_of_mem {t : Token} (ht : t ∈ all) (hk : t.kind = .ident) : Named all t.name :=
  ⟨t, ht, hk, String.toList_ofList⟩

theorem TypeOf.plain {ty : Ty} (h : TypeOf ts ty) : ty.Plain := by
  induction h with
  | basic _ _ => exact .basic _
  | array _ _ _ ih => exact .array ih

theorem BinderOf.wellFormed (h : BinderOf ts b) (hs : ts ⊆ all) : b.WellFormed all := by
  cases h with
  | bare ht => exact ⟨named_of_mem (hs (by simp)) ht, by simp⟩
  | annotated _ hn _ hty _ => exact ⟨named_of_mem (hs (by simp)) hn, by simpa using hty.plain⟩

theorem ParamsOf.wellFormed {ps : List Binder} (h : ParamsOf ts ps) :
    ts ⊆ all → ∀ p ∈ ps, p.WellFormed all := by
  induction h with
  | nil => simp
  | snoc _ hp ih =>
    intro hs
    obtain ⟨ht, hu⟩ := List.append_subset.1 hs
    exact List.forall_mem_append.2 ⟨ih ht, by simpa using hp.wellFormed hu⟩

theorem LetHead.wellFormed (h : LetHead ts b) (hs : ts ⊆ all) : b.WellFormed all := by
  cases h with
  | intro _ hb _ =>
    simp only [List.cons_subset, List.append_subset] at hs
    exact hb.wellFormed hs.2.1

theorem RecHead.wellFormed {f : Binder} {ps : List Binder} (h : RecHead ts f ps) (hs : ts ⊆ all) :
    ps ≠ [] ∧ ∀ p ∈ f :: ps, p.WellFormed all := by
  cases h with
  | intro _ _ hn hps hne hr _ =>
    simp only [List.cons_subset, List.append_subset] at hs
    obtain ⟨-, -, hna, hpa, -⟩ := hs
    refine ⟨hne, List.forall_mem_cons.2 ⟨⟨named_of_mem hna hn, ?_⟩, hps.wellFormed hpa⟩⟩
    cases hr with
    | none => simp
    | some _ hty => simpa using hty.plain

/-! ### Semicolons -/

/-- The token in front of a sequence is determined by its tree. -/
theorem token_before_unique (ho : Token.Ordered all) {t u : Token} (ht : t :: ts <:+: all)
    (hu : u :: us <:+: all) (hx : Derives .seq ts y) (hy : Derives .seq us y) : t = u := by
  obtain ⟨as, bs, ha⟩ := ht
  obtain ⟨cs, ds, hc⟩ := hu
  obtain ⟨v, vs, rfl⟩ := List.exists_cons_of_ne_nil hx.ne_nil
  obtain ⟨w, ws, rfl⟩ := List.exists_cons_of_ne_nil hy.ne_nil
  have hv : (as ++ [t]) ++ v :: (vs ++ bs) = all := by simpa using ha
  have hw : (cs ++ [u]) ++ w :: (ws ++ ds) = all := by simpa using hc
  -- the sequences start at the same place, so the same tokens stand in front of them
  have hs : v.range.start = w.range.start := hx.start_eq.symm.trans hy.start_eq
  rw [← hv] at ho
  have hf := ho.front_eq (hv.trans hw.symm) hs
  exact List.singleton_inj.1 (List.append_inj' hf rfl).2

theorem JoinedBy.spec {t : Token} {n : Option Expr} (h : JoinedBy all t x n) :
    t ∈ all ∧ t.kind = .semi ∧ ∃ us y, t :: us <:+: all ∧ Derives .seq us y ∧ n = some y := by
  cases h with
  | @intro ts us y hi _ ht hy =>
    have hu : t :: us <:+: all := List.IsInfix.trans ⟨ts, [], by simp⟩ hi
    exact ⟨hu.subset (by simp), ht, us, y, hu, hy, rfl⟩

theorem JoinedBy.token_eq (ho : Token.Ordered all) {t u : Token} {n : Option Expr}
    (h : JoinedBy all t x n) (h' : JoinedBy all u x n) : t = u := by
  obtain ⟨-, -, ts, y, ht, hy, rfl⟩ := h.spec
  obtain ⟨-, -, us, z, hu, hz, he⟩ := h'.spec
  cases he
  exact token_before_unique ho ht hu hy hz

/-- What was written with `let` was not written with a semicolon. -/
theorem BoundBy.not_joinedBy (ho : Token.Ordered all) {n : Option Expr} (h : BoundBy all b x n)
    (t : Token) : ¬ JoinedBy all t x n := by
  intro hj
  obtain ⟨-, hk, ts, y, ht, hy, rfl⟩ := hj.spec
  cases h with
  | @next hs xs us m _ hi _ _ hm hz =>
    have hu : m :: us <:+: all := List.IsInfix.trans ⟨hs ++ xs, [], by simp⟩ hi
    rw [token_before_unique ho ht hu hy hz, hm] at hk
    cases hk

theorem BoundBy.wellFormed {n : Option Expr} (h : BoundBy all b x n) : b.WellFormed all := by
  cases h with
  | last hi hh _ | next hi hh _ _ _ =>
    exact hh.wellFormed (List.Subset.trans (List.subset_append_left _ _) hi.subset)

/-! ### Nodes -/

section

variable (ho : Token.Ordered all) (hf : ∀ t ∈ all, t.kind.Fits)
  (hd : ∀ name, Named all name → name ≠ discarded)

include ho hd in
theorem BoundBy.letWellFormed {n : Option Expr} (h : BoundBy all b x n) :
    LetWellFormed all b x n where
  plain := h.wellFormed.plain
  named _ := h.wellFormed.named
  discarded_iff := by
    refine ⟨fun hb => absurd hb (hd _ h.wellFormed.named), ?_⟩
    rintro ⟨t, ht⟩
    exact absurd ht (h.not_joinedBy ho t)
  unit hb := absurd hb (hd _ h.wellFormed.named)
  covers t ht := absurd ht (h.not_joinedBy ho t)

include ho in
theorem JoinedBy.letWellFormed {t : Token} {n : Option Expr} (h : JoinedBy all t x n) :
    LetWellFormed all ⟨discarded, some (.basic .unit), t.range⟩ x n where
  plain := by simpa using Ty.Plain.basic .unit
  named hb := absurd rfl hb
  discarded_iff := ⟨fun _ => ⟨t, h⟩, fun _ => rfl⟩
  unit _ := by
    obtain ⟨-, -, us, y, -, -, rfl⟩ := h.spec
    exact ⟨rfl, rfl⟩
  covers u hu := by
    obtain ⟨hm, hk, -⟩ := hu.spec
    exact ⟨hm, hk, by rw [h.token_eq ho hu]⟩

include ho hf hd in
/-- **Every rule of the grammar makes a well-formed node.** -/
theorem NodeOf.wellFormed (h : NodeOf all e) : e.WellFormed all := by
  cases h with
  | bool | unit | unary | binary | get | put => trivial
  | @int t n r ht hk =>
    have hn := hf t ht
    rw [hk] at hn
    exact ⟨Int.natCast_nonneg n, hn⟩
  | @float t v r ht hk =>
    have hv := hf t ht
    rw [hk] at hv
    exact hv
  | var r ht hk => exact .inl (named_of_mem ht hk)
  | make r ht hk => exact .inr ⟨rfl, _, ht, hk⟩
  | cond | condElse => rfl
  | bind r hb => exact hb.letWellFormed ho hd
  | join r hj => exact hj.letWellFormed ho
  | bindRec r x n hs hh => exact hh.wellFormed hs
  | call r f ha => exact ha

end

end Grammar

namespace Program

/-- **Every program is well formed, and its numbers never keep it from being written as JSON.** -/
theorem parse_wellFormed {settings : Settings} {text : List Char} {p : Program}
    (h : (parse settings text).result = .ok p) :
    (∀ n ∈ (Node.program p).preorder Node.any,
        n.WellFormed (Stream.ofText settings text).tokens) ∧
      ((∀ u, Json.encode (Node.program p).record = .error u → ∃ v, u = .notFinite v) →
        ∃ s, Json.encode (Node.program p).record = .ok s) := by
  constructor
  · obtain ⟨src, hem, hi⟩ := treeOf_parse h
    obtain ⟨-, -, ho, -⟩ := hem.placed (Stream.at_ofText settings text)
    refine forall_preorder hi ⟨fun x hx => (hi x hx).isMissing_eq, trivial⟩ fun e he hc => ⟨hc, ?_⟩
    exact he.wellFormed ho hem.fits fun _ hn => hem.name_ne_discarded hn
  · intro hj
    cases he : Json.encode (Node.program p).record with
    | ok s => exact ⟨s, rfl⟩
    | error u =>
      obtain ⟨v, rfl⟩ := hj u he
      cases encode_error h he

/-- A function whose body is a sequence with an array constructor and a float in it. -/
theorem function_wellFormed :
    ∃ p, (parse {} "let rec f (n : int array) = (g n; Array.make 2 1.5)".toList).result = .ok p ∧
      (∀ n ∈ (Node.program p).preorder Node.any, n.WellFormed
        (Stream.ofText {} "let rec f (n : int array) = (g n; Array.make 2 1.5)".toList).tokens) ∧
      ∃ s, Json.encode (Node.program p).record = .ok s := by
  obtain ⟨p, hp, hr⟩ : ∃ p, (Parse.runWithin 30 .initial
      (.ofText {} "let rec f (n : int array) = (g n; Array.make 2 1.5)".toList)).map Parse.result
        = some (.ok p) ∧ Json.refusal? 0 (Node.program p).record = none := by
    refine ⟨_, rfl, ?_⟩
    decide +kernel
  have h := result_parse_of_within hp
  obtain ⟨hw, hj⟩ := parse_wellFormed h
  refine ⟨p, h, hw, hj fun u he => ?_⟩
  rw [Json.encode, hr] at he
  cases he

end Program

end SmallMl
