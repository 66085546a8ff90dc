import SmallMl.Proofs.Grammar.Nodes
import SmallMl.Proofs.Token.Listing
import SmallMl.Proofs.Tree.Encoding

/-!
# Literals

A numeral that is too large for its type is refused, so the number of a token fits: an integer is
less than `2 ^ 63`, and a float is finite and has no sign (`Lexeme.fits_of_found`).  The literals of
a program are tokens of its text (`Grammar.NodeOf`).  So no float of a program is an infinity or not
a number, and nothing but its depth keeps a program from being written as JSON
(`Program.encode_error`).
-/

namespace SmallMl

/-! ### Numerals -/

namespace Binary64

theorem isFinite_of_lt {v : Binary64} (h : v.bits.toNat < 2047 * Nat.pow 2 52) :
    v.isFinite = true :=
  decide_eq_true (Nat.lt_of_le_of_lt (Nat.mod_le _ _) h)

theorem isNegative_of_lt {v : Binary64} (h : v.bits.toNat < 2047 * Nat.pow 2 52) :
    v.isNegative = false :=
  decide_eq_false (Nat.not_le_of_lt (h.trans (by decide)))

theorem lt_of_ofRatio? {n d : Nat} {v : Binary64} (h : ofRatio? n d = some v) :
    v.bits.toNat < 2047 * Nat.pow 2 52 := by
  unfold ofRatio? at h
  split at h
  · cases h
    decide
  · dsimp only at h
    split at h
    · next hw =>
      cases h
      rw [show (Nat.toUInt64 _).toNat = _ % 2 ^ 64 from UInt64.toNat_ofNat']
      exact Nat.lt_of_le_of_lt (Nat.mod_le _ _) hw
    · cases h

end Binary64

/-- The number, if there is one, fits its type, and a float has no sign. -/
def Kind.Fits : Kind → Prop
  | int n => n < Nat.pow 2 63
  | float v => v.isFinite = true ∧ v.isNegative = false
  | _ => True

theorem Kind.fits_ofWord (w : List Char) : (ofWord w).Fits := by
  have hres : ∀ p ∈ reserved, p.2.Fits := by simp [reserved, Fits]
  exact ofWord_of_reserved (P := fun _ k => k.Fits) hres (fun _ => trivial) w

namespace Lexeme

theorem fits_of_numeralKind {n : Numeral} {k : Kind} (h : numeralKind n = .ok k) : k.Fits := by
  rcases numeralKind_cases h with ⟨v, hv, rfl⟩ | ⟨v, hv, rfl⟩
  · obtain ⟨p, -, hp⟩ := Option.bind_eq_some_iff.1 hv
    have hb := Binary64.lt_of_ofRatio? hp
    exact ⟨Binary64.isFinite_of_lt hb, Binary64.isNegative_of_lt hb⟩
  · unfold Numeral.toInt? at hv
    dsimp only at hv
    split at hv <;> cases hv
    assumption

/-- **The number of a token fits.** -/
theorem fits_of_found {c : Char} {r : List Char} {k : Kind} (h : (read c r).found = .ok k) :
    k.Fits := by
  rcases found_cases h with rfl | ⟨n, hn⟩ | ho | ⟨rfl, _⟩ | rfl | ⟨hm, _⟩
  · exact Kind.fits_ofWord _
  · exact fits_of_numeralKind hn
  · rcases operatorKind_cases ho with ⟨rfl, -⟩ | ⟨rfl, -⟩ | ⟨o, rfl, -⟩ <;> trivial
  · trivial
  · trivial
  · unfold Kind.ofMark? at hm
    split at hm <;> cases hm
    all_goals trivial

end Lexeme

theorem Stream.Emits.fits {src src' : Stream} {ts : List Token} (h : src.Emits ts src') :
    ∀ t ∈ ts, t.kind.Fits := by
  intro t ht
  obtain ⟨c, r, hf, -⟩ := h.exists_lexeme t ht
  exact Lexeme.fits_of_found hf

/-! ### Programs -/

open Grammar

theorem Grammar.NodeOf.finite {all : List Token} {e : Expr} (h : NodeOf all e)
    (hf : ∀ t ∈ all, t.kind.Fits) : (Node.expr e).Finite := by
  cases h with
  | float r ht hk =>
    have hv := hf _ ht
    rw [hk] at hv
    exact hv.1
  | _ => trivial

namespace Program

/-- **Every float of a program is finite.** -/
theorem finite_parse {settings : Settings} {text : List Char} {p : Program}
    (h : (parse settings text).result = .ok p) :
    ∀ n ∈ (Node.program p).preorder Node.any, n.Finite := by
  obtain ⟨src, hem, hi⟩ := treeOf_parse h
  exact forall_preorder hi trivial fun e he _ => he.finite hem.fits

/-- **Nothing but its depth keeps a program from being written as JSON.** -/
theorem encode_error {settings : Settings} {text : List Char} {p : Program}
    (h : (parse settings text).result = .ok p) {u : Json.Refusal}
    (he : Json.encode (Node.program p).record = .error u) : u = .tooDeep :=
  (Node.expressible_record (finite_parse h)).encode he

end Program

end SmallMl
