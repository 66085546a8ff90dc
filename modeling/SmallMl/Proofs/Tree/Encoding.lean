import SmallMl.Proofs.Tree.Parts
import SmallMl.Tree.Record

/-!
# What stands in the way of writing a tree as JSON

A JSON value is refused for a number that is not finite or because it is nested too deep.  The
numbers of a tree are its literals and the places of its ranges, and places are integers.  So a tree
whose floats are finite is only ever refused for its depth (`Node.expressible_record`).
-/

namespace SmallMl

namespace Json

/-- JSON can express the value, however deep it is nested. -/
def Expressible (v : Value) : Prop := ∀ d, ∀ u ∈ refusal? d v, u = .tooDeep

theorem expressible_null : Expressible .null := nofun

theorem expressible_bool (b : Bool) : Expressible (.bool b) := nofun

theorem expressible_int (n : Int) : Expressible (.int n) := nofun

theorem expressible_text (s : String) : Expressible (.text s) := nofun

theorem expressible_float {v : Binary64} (h : v.isFinite = true) : Expressible (.float v) := by
  intro d u hu
  rw [refusal?, if_pos h] at hu
  cases hu

theorem itemRefusal?_eq (d : Nat) (vs : List Value) :
    itemRefusal? d vs = vs.findSome? (refusal? d) := by
  induction vs with
  | nil => rfl
  | cons v vs ih => rw [itemRefusal?, List.findSome?_cons, ih]; cases refusal? d v <;> rfl

theorem fieldRefusal?_eq (d : Nat) (fs : List (String × Value)) :
    fieldRefusal? d fs = fs.findSome? fun f => refusal? d f.2 := by
  induction fs with
  | nil => rfl
  | cons f fs ih => rw [fieldRefusal?, List.findSome?_cons, ih]; cases refusal? d f.2 <;> rfl

theorem expressible_list {vs : List Value} (h : ∀ v ∈ vs, Expressible v) :
    Expressible (.list vs) := by
  intro d u hu
  rw [refusal?] at hu
  split at hu
  · rw [itemRefusal?_eq] at hu
    obtain ⟨v, hv, hr⟩ := List.exists_of_findSome?_eq_some hu
    exact h v hv _ u hr
  · cases hu
    rfl

theorem expressible_record {fs : List (String × Value)} (h : ∀ f ∈ fs, Expressible f.2) :
    Expressible (.record fs) := by
  intro d u hu
  rw [refusal?] at hu
  split at hu
  · rw [fieldRefusal?_eq] at hu
    obtain ⟨f, hf, hr⟩ := List.exists_of_findSome?_eq_some hu
    exact h f hf _ u hr
  · cases hu
    rfl

/-- A value that JSON can express is written unless it is nested too deep. -/
theorem Expressible.encode {v : Value} (h : Expressible v) {u : Refusal}
    (he : encode v = .error u) : u = .tooDeep := by
  rw [Json.encode] at he
  split at he
  · next r hr =>
    cases he
    exact h 0 _ hr
  · cases he

end Json

open Json

theorem Range.expressible_record (r : Range) : Expressible r.record := by
  have hl : ∀ l : Location, Expressible l.record := by
    intro l
    apply Json.expressible_record
    simp [expressible_int]
  apply Json.expressible_record
  simp [hl]

theorem Binder.expressible_record (b : Binder) : Expressible b.record := by
  apply Json.expressible_record
  simp [expressible_text, Range.expressible_record]

def Node.Finite : Node → Prop
  | expr (.float _ v) => v.isFinite = true
  | _ => True

namespace Expr

theorem expressible_rangeField (key : String) (o : Option Range) :
    ∀ f ∈ rangeField key o, Expressible f.2 := by
  cases o <;> simp [rangeField, Range.expressible_record]

theorem expressible_recordOption (key : String) {o : Option Expr}
    (h : ∀ e ∈ o, Expressible e.record) : ∀ f ∈ recordOption key o, Expressible f.2 := by
  cases o with
  | none => simp [recordOption]
  | some e => simpa [recordOption] using h e rfl

theorem expressible_recordList {es : List Expr} (h : ∀ e ∈ es, Expressible e.record) :
    ∀ v ∈ recordList es, Expressible v := by
  induction es with
  | nil => simp [recordList]
  | cons e es ih =>
    rw [recordList, List.forall_mem_cons]
    exact ⟨h e (by simp), ih fun e he => h e (by simp [he])⟩

/-- A node can be expressed if its parts can and it is no float that is not finite. -/
theorem expressible_record_of_parts {e : Expr} (hf : (Node.expr e).Finite)
    (hp : ∀ c ∈ e.children, Expressible c.record) : Expressible e.record := by
  have hr := Range.expressible_record
  have ht := expressible_text
  cases e with
  | missing => exact expressible_null
  | bool r b =>
    apply Json.expressible_record
    simp [hr, ht, expressible_bool]
  | int r n =>
    apply Json.expressible_record
    simp [hr, ht, expressible_int]
  | float r v =>
    apply Json.expressible_record
    simp [hr, ht, expressible_float hf]
  | unit r | var r name =>
    apply Json.expressible_record
    simp [hr, ht]
  | unary r op x | binary r op x y | get r a i | put r a i v =>
    simp only [children, List.forall_mem_cons] at hp
    apply Json.expressible_record
    simp [hr, ht, hp]
  | cond r c y n i e =>
    simp only [children, List.forall_mem_cons, Option.mem_toList] at hp
    obtain ⟨hc, hy, hn⟩ := hp
    apply Json.expressible_record
    simp only [List.forall_mem_cons, List.forall_mem_append]
    exact ⟨⟨⟨hc, expressible_recordOption _ hn⟩, expressible_rangeField _ _⟩, by simp [hr, ht, hy]⟩
  | bind r b x n =>
    simp only [children, List.forall_mem_cons, Option.mem_toList] at hp
    obtain ⟨hx, hn⟩ := hp
    apply Json.expressible_record
    simp only [List.forall_mem_cons, List.forall_mem_append]
    exact ⟨⟨hx, ht _, hr _, expressible_recordOption _ hn⟩, by simp [hr, ht]⟩
  | bindRec r f ps x n =>
    simp only [children, List.forall_mem_cons, Option.mem_toList] at hp
    obtain ⟨hx, hn⟩ := hp
    have hps : Expressible (.list (ps.map Binder.record)) := by
      apply expressible_list
      simp [Binder.expressible_record]
    apply Json.expressible_record
    simp only [List.forall_mem_cons, List.forall_mem_append]
    exact ⟨⟨hx, ht _, hr _, expressible_recordOption _ hn⟩, by simp [hr, ht, hps]⟩
  | call r f as =>
    simp only [children, List.forall_mem_cons] at hp
    apply Json.expressible_record
    simp [hr, ht, hp.1, expressible_list (expressible_recordList hp.2)]

/-- **A tree whose floats are finite can be expressed.** -/
theorem expressible_record (e : Expr) : e.Everywhere Node.Finite → Expressible e.record := by
  induction e using induct_children with
  | _ e ih =>
    intro h
    cases hm : e.isMissing with
    | true =>
      cases e <;> first | exact expressible_null | cases hm
    | false =>
      obtain ⟨hf, hc⟩ := (everywhere_iff hm).1 h
      exact expressible_record_of_parts hf fun c hcm => ih c hcm (hc c hcm)

end Expr

/-- **A tree whose floats are finite is only ever refused for its depth.** -/
theorem Node.expressible_record {n : Node} (h : ∀ m ∈ n.preorder any, m.Finite) :
    Expressible n.record := by
  cases n with
  | expr e => exact e.expressible_record h
  | program p =>
    have hi : ∀ e ∈ p.items, Expressible e.record := by
      intro e he
      refine e.expressible_record fun m hm => h m ?_
      rw [preorder_program]
      exact List.mem_cons_of_mem _ (List.mem_flatMap.2 ⟨e, he, hm⟩)
    apply Json.expressible_record
    simp [expressible_list (Expr.expressible_recordList hi), Range.expressible_record,
      expressible_text]

end SmallMl
