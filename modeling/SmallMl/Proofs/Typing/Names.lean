import Mathlib.Algebra.Group.Nat.Defs
import Mathlib.Data.List.DropRight
import SmallMl.Proofs.Number.Digits
import SmallMl.Proofs.Token.Listing
import SmallMl.Typing.FreshName

/-!
# Fresh names are fresh

A supply is asked for names one after the other.  A request is answered with a name that ends in the
number of the request, or it is refused; refused requests are not counted
(`NameSupply.getElem?_answers`).

A number can be read off the end of a name, whatever stands in front of it, because what stands in
front of it does not end in a digit (`NameRequest.number_unique`).  So two names of one supply are
equal only if their numbers are, and before the numbers run out that means that they are the answer
to the same request.  A point with a digit behind it stands in no identifier
(`Lexeme.splitWord_ne_point`), so no name with a stem is an identifier of a source text.
-/

namespace SmallMl

/-! ### Numbers at the end of a text -/

/-- The digits behind the last character that is none are the digits of the number. -/
theorem Digits.rtakeWhile_ofNat {c : Char} (hc : isDigit c = false) (front : List Char) (n : Nat) :
    (front ++ c :: ofNat n).rtakeWhile isDigit = ofNat n := by
  have hd : ∀ d ∈ (ofNat n).reverse, isDigit d = true := by
    simpa using isDigit_ofNat n
  rw [List.rtakeWhile, List.reverse_append, List.reverse_cons, List.append_assoc,
    List.takeWhile_append_of_pos hd, List.singleton_append,
    List.takeWhile_cons_of_neg (by simp [hc]), List.append_nil, List.reverse_reverse]

theorem Lexeme.splitWord_ne_point {d : Char} (hd : isLetter d = false) (w : List Char) :
    ∀ cs stem, (splitWord cs).1 ≠ stem ++ '.' :: d :: w := by
  intro cs
  induction cs with
  | nil => simp [splitWord]
  | cons c r ih =>
    intro stem h
    rw [splitWord] at h
    split at h
    · next hc =>
      cases stem with
      | nil =>
        obtain ⟨rfl, hr⟩ := List.cons.inj h
        -- the point belongs to the word because of the letter behind it
        have hs : startsWithLetter r = true := by
          simpa [isWordChar, isLetter, Digits.isDigit] using hc
        cases r with
        | nil => cases hs
        | cons e r =>
          have he : isLetter e = true := hs
          rw [splitWord, if_pos (by simp [isWordChar, he])] at hr
          obtain ⟨rfl, -⟩ := List.cons.inj hr
          rw [he] at hd
          cases hd
      | cons s stem => exact ih stem (List.cons.inj h).2
    · simp at h

/-- **No identifier ends in a point and a number.** -/
theorem Stream.lit_ne_of_ident {settings : Settings} {text : List Char} {t : Token}
    (ht : .ok t ∈ (ofText settings text).readAll.1) (hk : t.kind = .ident) (stem : List Char)
    (n : Nat) : t.lit ≠ stem ++ '.' :: Digits.ofNat n := by
  obtain ⟨c, r, hf, hl⟩ := exists_lexeme_of_mem ht (by rw [Token.isEof, hk]; rfl)
  rw [hk] at hf
  have hw : Lexeme.read c r = Lexeme.word (c :: r) := if_pos (Lexeme.isLetter_of_ident hf)
  obtain ⟨d, ds, hd⟩ := List.exists_cons_of_ne_nil (Digits.ofNat_ne_nil n)
  have hdigit : Digits.isDigit d = true := Digits.isDigit_ofNat n d (by simp [hd])
  rw [← hl, hw, hd]
  exact Lexeme.splitWord_ne_point (Lexeme.not_isLetter_of_isDigit hdigit) ds _ _

/-! ### Requests -/

/-- Something asked of a supply: a name with a stem, or one for a value of a type.  Types may be
completed between two requests, so each comes with the store at its time. -/
inductive NameRequest
  | named (stem : List Char)
  | temporary (s : Store) (c : Cell)

namespace NameRequest

def nameWith (n : Nat) : NameRequest → Except Misuse (List Char)
  | named stem => .ok (stem ++ '.' :: Digits.ofNat n)
  | temporary s c => (s.letter c).map fun l => 'T' :: l :: Digits.ofNat n

def isGranted : NameRequest → Bool
  | named _ => true
  | temporary s c => (s.letter c).isOk

variable {q r : NameRequest} {m n : Nat} {w : List Char}

theorem isGranted_eq (q : NameRequest) (n : Nat) : q.isGranted = (q.nameWith n).isOk := by
  cases q with
  | named stem => rfl
  | temporary s c =>
    rw [isGranted, nameWith]
    cases s.letter c <;> rfl

theorem isGranted_of_ok (h : q.nameWith n = .ok w) : q.isGranted = true := by
  rw [isGranted_eq q n, h]
  rfl

theorem isGranted_of_error {e : Misuse} (h : q.nameWith n = .error e) : q.isGranted = false := by
  rw [isGranted_eq q n, h]
  rfl

/-- **A temporary is refused exactly if its type comes down to a variable.** -/
theorem nameWith_temporary_eq_error_iff {s : Store} {c : Cell} {e : Misuse} :
    (temporary s c).nameWith n = .error e ↔
      e = .codeOfVariable ∧ ∃ v, s.underlying c = .var v := by
  rw [nameWith, Store.letter]
  cases s.underlying c <;> simp [Except.map, eq_comm]

theorem isDigit_letter {s : Store} {c : Cell} {l : Char} (h : s.letter c = .ok l) :
    Digits.isDigit l = false := by
  rw [Store.letter] at h
  cases hu : s.underlying c with
  | basic b =>
    rw [hu] at h
    cases h
    cases b <;> rfl
  | var v => rw [hu] at h; cases h
  | _ =>
    rw [hu] at h
    cases h
    rfl

theorem exists_eq_digits (h : q.nameWith n = .ok w) :
    ∃ front c, Digits.isDigit c = false ∧ w = front ++ c :: Digits.ofNat n := by
  cases q with
  | named stem =>
    cases h
    exact ⟨stem, '.', rfl, rfl⟩
  | temporary s c =>
    rw [nameWith] at h
    cases hl : s.letter c with
    | ok l =>
      rw [hl] at h
      cases h
      exact ⟨['T'], l, isDigit_letter hl, rfl⟩
    | error e => rw [hl] at h; cases h

/-- **A name tells its number**, whatever was asked for. -/
theorem number_unique (hq : q.nameWith m = .ok w) (hr : r.nameWith n = .ok w) : m = n := by
  obtain ⟨front, c, hc, rfl⟩ := exists_eq_digits hq
  obtain ⟨front', c', hc', hw⟩ := exists_eq_digits hr
  have hd : Digits.ofNat m = Digits.ofNat n := by
    rw [← Digits.rtakeWhile_ofNat hc front m, hw, Digits.rtakeWhile_ofNat hc']
  rw [← Digits.toNat_ofNat m, hd, Digits.toNat_ofNat]

end NameRequest

/-! ### Answers -/

namespace NameSupply

open NameRequest (isGranted)

def answer (g : NameSupply) : NameRequest → Except Misuse (List Char × NameSupply)
  | .named stem => .ok (g.named stem)
  | .temporary s c => g.temporary s c

/-- The answers to the requests.  A request that is refused leaves the supply as it was. -/
def answers (g : NameSupply) : List NameRequest → List (Except Misuse (List Char))
  | [] => []
  | q :: qs =>
    match g.answer q with
    | .ok (w, g') => .ok w :: g'.answers qs
    | .error e => .error e :: g.answers qs

variable {g : NameSupply} {q : NameRequest} {qs : List NameRequest}

/-- **A request is answered with the next number**, and uses it up if it is granted. -/
theorem answer_eq (g : NameSupply) (q : NameRequest) :
    g.answer q = (q.nameWith g.succ.count.toNat).map fun w => (w, g.succ) := by
  cases q with
  | named stem => rfl
  | temporary s c =>
    rw [answer, temporary, NameRequest.nameWith]
    cases s.letter c <;> rfl

theorem toNat_succ (g : NameSupply) : g.succ.count.toNat = (g.count.toNat + 1) % 2 ^ 64 := by
  rw [succ, UInt64.toNat_add]
  rfl

/-- **Each answer is the name with the number of its request.**  Granted requests are counted, from
the count of the supply on. -/
theorem getElem?_answers (g : NameSupply) (qs : List NameRequest) (i : Nat) :
    (g.answers qs)[i]? = qs[i]?.map fun q =>
      q.nameWith ((g.count.toNat + (qs.take i).countP isGranted + 1) % 2 ^ 64) := by
  induction qs generalizing g i with
  | nil => simp [answers]
  | cons q qs ih =>
    rw [answers, answer_eq]
    have hfirst : q.nameWith ((g.count.toNat + 1) % 2 ^ 64) = q.nameWith g.succ.count.toNat := by
      rw [toNat_succ]
    cases hq : q.nameWith g.succ.count.toNat with
    | ok w =>
      cases i with
      | zero => simpa [Except.map] using (hfirst.trans hq).symm
      | succ i =>
        have hn : (g.succ.count.toNat + (qs.take i).countP isGranted + 1) % 2 ^ 64 =
            (g.count.toNat + ((q :: qs).take (i + 1)).countP isGranted + 1) % 2 ^ 64 := by
          rw [toNat_succ, List.take_succ_cons,
            List.countP_cons_of_pos (NameRequest.isGranted_of_ok hq)]
          omega
        simp only [Except.map, List.getElem?_cons_succ, ih, hn]
    | error e =>
      cases i with
      | zero => simpa [Except.map] using (hfirst.trans hq).symm
      | succ i =>
        have hc : ((q :: qs).take (i + 1)).countP isGranted = (qs.take i).countP isGranted := by
          rw [List.take_succ_cons,
            List.countP_cons_of_neg (by simp [NameRequest.isGranted_of_error hq])]
        simp only [Except.map, List.getElem?_cons_succ, ih, hc]

theorem countP_take_lt {i j : Nat} (hij : i < j) (hq : qs[i]? = some q)
    (hg : q.isGranted = true) :
    (qs.take i).countP isGranted < (qs.take j).countP isGranted := by
  have hone : (qs.take (i + 1)).countP isGranted = (qs.take i).countP isGranted + 1 := by
    rw [List.take_add_one, hq, Option.toList_some, List.countP_append, List.countP_singleton,
      if_pos hg]
  have hle : (qs.take (i + 1)).countP isGranted ≤ (qs.take j).countP isGranted :=
    (List.take_prefix_take_left hij).sublist.countP_le
  omega

/-- **Names are fresh.**  Let a new supply be asked for fewer than `2 ^ 64` names, with any stems
and any types.  Every request is answered, the granted ones with the numbers from one on, and a
request is refused exactly if it is for a temporary of a type that comes down to a variable.  No two
answers are the same name, and no name with a stem is an identifier of any source text. -/
theorem names_fresh (qs : List NameRequest) (h : qs.length < 2 ^ 64) :
    (∀ i : Nat, (empty.answers qs)[i]? =
        qs[i]?.map fun q : NameRequest => q.nameWith ((qs.take i).countP isGranted + 1)) ∧
      (∀ (q : NameRequest) (n : Nat) (e : Misuse), q.nameWith n = .error e ↔
        e = .codeOfVariable ∧
          ∃ (s : Store) (c : Cell) (v : Nat), q = .temporary s c ∧ s.underlying c = .var v) ∧
      (∀ (i j : Nat) (w : List Char), (empty.answers qs)[i]? = some (.ok w) →
        (empty.answers qs)[j]? = some (.ok w) → i = j) ∧
      ∀ (i : Nat) (stem w : List Char), qs[i]? = some (.named stem) →
        (empty.answers qs)[i]? = some (.ok w) →
          ∀ (settings : Settings) (text : List Char) (t : Token),
            .ok t ∈ (Stream.ofText settings text).readAll.1 → t.kind = .ident → t.lit ≠ w := by
  have hanswers : ∀ i : Nat, (empty.answers qs)[i]? =
      qs[i]?.map fun q : NameRequest => q.nameWith ((qs.take i).countP isGranted + 1) := by
    intro i
    rw [getElem?_answers]
    cases hi : qs[i]? with
    | none => rfl
    | some q =>
      have hlt : i < qs.length := (List.getElem?_eq_some_iff.1 hi).1
      have hle : (qs.take i).countP isGranted ≤ i :=
        List.countP_le_length.trans (List.length_take_le i qs)
      have hzero : empty.count.toNat = 0 := rfl
      rw [Option.map_some, Option.map_some, hzero, Nat.zero_add, Nat.mod_eq_of_lt (by omega)]
  refine ⟨hanswers, ?refused, ?distinct, ?unlike⟩
  case refused =>
    intro q n e
    cases q with
    | named stem => simp [NameRequest.nameWith]
    | temporary s c => simp [NameRequest.nameWith_temporary_eq_error_iff]
  case distinct =>
    intro i j w hi hj
    rw [hanswers, Option.map_eq_some_iff] at hi hj
    obtain ⟨q, hq, hqw⟩ := hi
    obtain ⟨r, hr, hrw⟩ := hj
    have hn := NameRequest.number_unique hqw hrw
    rcases Nat.lt_trichotomy i j with hij | hij | hij
    · have := countP_take_lt hij hq (NameRequest.isGranted_of_ok hqw)
      omega
    · exact hij
    · have := countP_take_lt hij hr (NameRequest.isGranted_of_ok hrw)
      omega
  case unlike =>
    intro i stem w hi hw settings text t ht hk
    rw [hanswers, hi] at hw
    obtain rfl := Except.ok.inj (Option.some.inj hw)
    exact Stream.lit_ne_of_ident ht hk stem _

/-- Names with stems that look like other names, and a temporary that is refused. -/
def lookalikes : List NameRequest :=
  [.named ['x'], .temporary .empty (.var 0), .temporary .empty (.basic .int),
    .named ['x', '.', '1'], .named ['T', 'i', '2']]

/-- The requests behind the refused one have the numbers from two on. -/
theorem names_fresh_lookalikes :
    lookalikes.length < 2 ^ 64 ∧
      (empty.answers lookalikes)[0]? = some (.ok ['x', '.', '1']) ∧
      (empty.answers lookalikes)[1]? = some (.error .codeOfVariable) ∧
      (empty.answers lookalikes)[2]? = some (.ok ['T', 'i', '2']) ∧
      (empty.answers lookalikes)[3]? = some (.ok ['x', '.', '1', '.', '3']) ∧
      (empty.answers lookalikes)[4]? = some (.ok ['T', 'i', '2', '.', '4']) ∧
      ∀ (settings : Settings) (text : List Char) (t : Token),
        .ok t ∈ (Stream.ofText settings text).readAll.1 → t.kind = .ident →
          t.lit ≠ ['x', '.', '1'] := by
  have hlen : lookalikes.length < 2 ^ 64 := by decide
  obtain ⟨h, -, -, hunlike⟩ := names_fresh lookalikes hlen
  have hdigit : ∀ n, n < 10 → Digits.ofNat n = [Digits.char n] := fun n hn => by
    rw [Digits.ofNat, if_pos hn]
  have hfirst : (empty.answers lookalikes)[0]? = some (.ok ['x', '.', '1']) := by
    rw [h]
    exact congrArg (fun ds => some (Except.ok ('x' :: '.' :: ds))) (hdigit 1 (by decide))
  refine ⟨hlen, hfirst, (h 1).trans rfl, ?_, ?_, ?_, hunlike 0 ['x'] _ rfl hfirst⟩
  · rw [h]
    exact congrArg (fun ds => some (Except.ok ('T' :: 'i' :: ds))) (hdigit 2 (by decide))
  · rw [h]
    exact congrArg (fun ds => some (Except.ok (['x', '.', '1', '.'] ++ ds))) (hdigit 3 (by decide))
  · rw [h]
    exact congrArg (fun ds => some (Except.ok (['T', 'i', '2', '.'] ++ ds))) (hdigit 4 (by decide))

end NameSupply

end SmallMl
