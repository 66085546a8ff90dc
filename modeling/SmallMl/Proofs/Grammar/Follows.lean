import SmallMl.Proofs.Grammar.Descent
import SmallMl.Proofs.Grammar.Run
import SmallMl.Proofs.Grammar.Settle

/-!
# The descent and the reader with a stack

A function of the descent and the reader with a stack read the same tokens.  `Follows p r m Q` says
so of a function `m` in front of a reader `r`, when `p` is what the reader with a stack comes to in
the end: `m` has an outcome; it has used up some tokens, none of them the end token; if it broke
off, then for the reason that `p` gives and at the place where `p` stopped; and if it has a value,
`Q` holds of the value and of the place.  What is put for `Q` is that the reader with a stack, in
the state in which it is there, comes to `p` as well.

So `p` never changes, and the rules below are those of any logic of programs: one for each thing
that `Descent` is made of, and one for two programs in a row (`Follows.bind`).
-/

namespace SmallMl.Grammar

namespace Reader

/-! ### Passing over tokens -/

/-- The reader uses up the tokens `ts`. -/
inductive Passes : Reader → List Token → Reader → Prop
  | refl (r : Reader) : Passes r [] r
  | head {r r' : Reader} {t : Token} {ts : List Token} : r.tok.isEof = false →
      r.src.next.1 = .ok t → Passes (r.advance t) ts r' → Passes r (r.tok :: ts) r'

def left (r : Reader) : Nat := if r.tok.isEof then 0 else r.src.rest.length + 1

theorem left_advance_lt {r : Reader} {t : Token} (he : r.tok.isEof = false)
    (hn : r.src.next.1 = .ok t) : (r.advance t).left < r.left := by
  rw [left, left, advance, he]
  cases ht : t.isEof with
  | true => simp
  | false =>
    have hl := Stream.length_next (hn ▸ Stream.more_ok ht : Stream.More r.src.next.1)
    simpa using hl

namespace Passes

variable {r r' r'' : Reader} {ts us : List Token}

theorem append (h : Passes r ts r') (g : Passes r' us r'') : Passes r (ts ++ us) r'' := by
  induction h with
  | refl => exact g
  | head he hn _ ih => exact .head he hn (ih g)

theorem left_le (h : Passes r ts r') : r'.left ≤ r.left := by
  induction h with
  | refl => exact Nat.le_refl _
  | head he hn _ ih => exact ih.trans (left_advance_lt he hn).le

end Passes

theorem exists_passes {src src' : Stream} {ts : List Token} {e : Token} (h : src.Emits ts src')
    (he : src'.next.1 = .ok e) : ∀ {q : Reader}, q.src = src →
      ∃ t r, src.next.1 = .ok t ∧ Passes (q.advance t) ts r ∧ r.tok = e := by
  induction h with
  | refl src => exact fun _ => ⟨e, _, he, .refl _, rfl⟩
  | @head src src' t ts hn ht _ ih =>
    rintro q rfl
    obtain ⟨u, r, hu, hr, hre⟩ := ih he (q := q.advance t) rfl
    exact ⟨t, r, hn, .head ht hu hr, hre⟩

/-! ### The reader with a stack, in front of the same token -/

section

variable (r : Reader) (items : List Expr) (K : List Frame)

/-- What it comes to if the lookahead has the outcome `o`. -/
def proceed (r : Reader) : Outcome → Parse
  | .error i => ⟨.error (i.toDiagnostic r.src.settings), r.src⟩
  | .ok s => if r.tok.isEof then ⟨.ok (s.program r.tok), r.src⟩ else Parse.run s r.src

/-- What it comes to in the given focus. -/
def drive (focus : Focus) : Parse := r.proceed (State.step ⟨items, K, focus, r.last⟩ r.tok)

/-- What it comes to when the expression `x` is complete. -/
def after (whole : Bool) (x : Expr) : Parse := r.proceed (settle items r.last r.tok whole x K)

end

theorem run_eq_proceed {src : Stream} {t : Token} (h : src.next.1 = .ok t) (s : State)
    (last : Location) (taken : List (Except Diagnostic Token)) :
    Parse.run s src = proceed ⟨src.next.2, t, last, taken⟩ (s.step t) := by
  cases hs : s.step t with
  | error i => rw [Parse.run_of_halts (.issue h hs), proceed, Stream.settings_next]
  | ok s' =>
    cases ht : t.isEof with
    | true =>
      rw [Parse.run_of_halts (.finish h ht hs), proceed]
      exact (if_pos ht).symm
    | false =>
      rw [Parse.run_of_token h ht hs, proceed]
      exact (if_neg (by simp [ht])).symm

theorem drive_advance {r : Reader} {t : Token} (hn : r.src.next.1 = .ok t)
    (he : r.tok.isEof = false) (items : List Expr) (K : List Frame) (focus : Focus) :
    (r.advance t).drive items K focus = r.proceed (.ok (.use items K r.tok focus)) := by
  rw [proceed, he, if_neg Bool.false_ne_true, run_eq_proceed hn]
  rfl

end Reader

open Reader (Passes)
open Reading

namespace Descent

variable {α β : Type} {p : Parse} {r : Reader}

/-- The program `m` does from `r` on what the reader with a stack does, which comes to `p`. -/
inductive Follows (p : Parse) (r : Reader) (m : Descent α) (Q : α → Reader → Prop) : Prop
  | done {ts : List Token} {a : α} {r' : Reader} : Comes m r (.ok a) r' → Passes r ts r' →
      Q a r' → Follows p r m Q
  | issue {ts : List Token} {i : Issue} {r' : Reader} : Comes m r (.error (.issue i)) r' →
      Passes r ts r' → p = ⟨.error (i.toDiagnostic r'.src.settings), r'.src⟩ → Follows p r m Q
  | fault {ts : List Token} {d : Diagnostic} {r' : Reader} :
      Comes m r (.error (.fault d)) (r'.broken d) → Passes r ts r' → r'.tok.isEof = false →
      r'.src.next.1 = .error d → p = ⟨.error d, r'.src.next.2⟩ → Follows p r m Q

namespace Follows

variable {m : Descent α} {f : α → Descent β} {Q : α → Reader → Prop} {Q' : β → Reader → Prop}

theorem bind (h : Follows p r m Q)
    (hf : ∀ a r', r'.left ≤ r.left → Q a r' → Follows p r' (f a) Q') :
    Follows p r (fun n => m n >>= fun a => f a n) Q' := by
  cases h with
  | issue hm ht hp => exact .issue (hm.bind_error f) ht hp
  | fault hm ht he hn hp => exact .fault (hm.bind_error f) ht he hn hp
  | done hm ht hq =>
    cases hf _ _ ht.left_le hq with
    | done hm' ht' hq' => exact .done (hm.bind hm') (ht.append ht') hq'
    | issue hm' ht' hp => exact .issue (hm.bind hm') (ht.append ht') hp
    | fault hm' ht' he hn hp => exact .fault (hm.bind hm') (ht.append ht') he hn hp

theorem mono {Q' : α → Reader → Prop} (h : Follows p r m Q)
    (hq : ∀ a r', r'.left ≤ r.left → Q a r' → Q' a r') : Follows p r m Q' := by
  cases h with
  | done hm ht h => exact .done hm ht (hq _ _ ht.left_le h)
  | issue hm ht hp => exact .issue hm ht hp
  | fault hm ht he hn hp => exact .fault hm ht he hn hp

theorem pure {a : α} (h : Q a r) : Follows p r (fun _ => pure a) Q :=
  .done (.of_run rfl) (.refl r) h

/-- What a program follows is decided by its outcomes. -/
theorem of_comes {m' : Descent α} (h : Follows p r m Q)
    (hm : ∀ {o r'}, Comes m r o r' → Comes m' r o r') : Follows p r m' Q := by
  cases h with
  | done h ht hq => exact .done (hm h) ht hq
  | issue h ht hp => exact .issue (hm h) ht hp
  | fault h ht he hn hp => exact .fault (hm h) ht he hn hp

theorem deeper (h : Follows p r (fun n => m (n + 1)) Q) : Follows p r m Q := h.of_comes .deeper

theorem ahead {f : Token → Descent β} (h : Follows p r (f r.tok) Q') :
    Follows p r (fun n => ahead >>= fun t => f t n) Q' := h.of_comes id

theorem behind {f : Location → Descent β} (h : Follows p r (f r.last) Q') :
    Follows p r (fun n => behind >>= fun l => f l n) Q' := h.of_comes id

theorem pos {c : Prop} [Decidable c] {m' : Descent α} (hc : c) (h : Follows p r m Q) :
    Follows p r (fun n => if c then m n else m' n) Q := by
  simpa only [if_pos hc] using h

theorem neg {c : Prop} [Decidable c] {m' : Descent α} (hc : ¬ c) (h : Follows p r m Q) :
    Follows p r (fun n => if c then m' n else m n) Q := by
  simpa only [if_neg hc] using h

theorem stop {issue : Token → Issue} (h : r.proceed (.error (issue r.tok)) = p) :
    Follows p r (fun _ => stop issue : Descent α) Q :=
  .issue (.of_run rfl) (.refl r) h.symm

end Follows

/-- The token in front of `r'` has been used up, and the focus is there what it has to be. -/
structure Used (p : Parse) (items : List Expr) (K : List Frame) (focus : Focus) (r r' : Reader) :
    Prop where
  left : r'.left < r.left
  last : r'.last = r.tok.range.stop
  drive : r'.drive items K focus = p

section

variable (items : List Expr) (K : List Frame) {focus focus' : Focus} {last : Location}

/-! ### Single tokens -/

theorem follows_next (he : r.tok.isEof = false)
    (h : r.proceed (.ok (.use items K r.tok focus)) = p) :
    Follows p r (fun _ => next) fun _ r' => Used p items K focus r r' := by
  cases hn : r.src.next.1 with
  | ok t =>
    refine .done (.of_run (run_next_of_ok hn)) (.head he hn (.refl _))
      ⟨Reader.left_advance_lt he hn, rfl, ?_⟩
    rw [Reader.drive_advance hn he, h]
  | error d =>
    refine .fault (.of_run (run_next_of_error hn)) (.refl r) he hn ?_
    rw [← h, Reader.proceed, he, if_neg Bool.false_ne_true, Parse.run_of_halts (.fault hn)]

theorem isEof_of_kind {t : Token} {k : Kind} (h : t.kind = k) (hk : k.isEof = false) :
    t.isEof = false := by
  rw [Token.isEof, h, hk]

theorem follows_expect {k : Kind} (hk : k.isEof = false) {loc : Location} {c : Complaint}
    (h : r.proceed (if r.tok.kind = k then .ok (.use items K r.tok focus)
      else .error (.raise r.tok loc c)) = p) :
    Follows p r (fun _ => expect k loc c) fun _ r' => Used p items K focus r r' := by
  refine .ahead ?_
  by_cases ht : r.tok.kind = k
  · rw [if_pos ht] at h
    refine .pos ht ?_
    exact follows_next items K (isEof_of_kind ht hk) h
  · rw [if_neg ht] at h
    refine .neg ht ?_
    exact .stop h

theorem follows_equals {f : Frame}
    (h : r.proceed (State.stepEquals ⟨items, K, focus, last⟩ r.tok f) = p) :
    Follows p r (fun _ => equals) fun _ r' => Used p items (f :: K) .start r r' :=
  .ahead (follows_expect items (f :: K) rfl h)

/-! ### Types and binders -/

/-- In the focus behind a type, the word `array` makes the type an array type. -/
def Extends (focus : Ty → Focus) : Prop :=
  ∀ (s : State) (type : Ty) (t : Token), s.focus = focus type → State.isArrayWord t = true →
    s.step t = s.goOn t (focus (.array type))

theorem extends_resultType (h : FunctionHead) : Extends (.resultType h) := by
  intro s type t hs ht
  rw [State.step, hs]
  exact if_pos ht

theorem extends_binderType (hd : Header) (opening : Location) (name : String) :
    Extends (.binderType hd opening name) := by
  intro s type t hs ht
  rw [State.step, hs]
  exact if_pos ht

theorem isEof_of_isArrayWord {t : Token} (h : State.isArrayWord t = true) : t.isEof = false := by
  rw [State.isArrayWord, Bool.and_eq_true, decide_eq_true_eq] at h
  exact isEof_of_kind h.1 rfl

theorem follows_suffixes {focus : Ty → Focus} (hf : Extends focus) :
    ∀ {r : Reader} {type : Ty}, r.drive items K (focus type) = p →
      Follows p r (suffixes type) fun type r' =>
        r'.drive items K (focus type) = p ∧ State.isArrayWord r'.tok = false := by
  intro r
  induction hl : r.left using Nat.strong_induction_on generalizing r with
  | _ n ih =>
    subst hl
    intro type h
    refine .deeper ?_
    simp only [suffixes]
    refine .ahead ?_
    by_cases ht : State.isArrayWord r.tok = true
    · refine .pos ht ?_
      rw [Reader.drive, hf _ type _ rfl ht] at h
      refine (follows_next items K (isEof_of_isArrayWord ht) h).bind fun _ r₁ _ h₁ => ?_
      exact ih _ h₁.left rfl h₁.drive
    · refine .neg ht ?_
      exact .pure ⟨h, Bool.eq_false_iff.2 ht⟩

theorem follows_typeExpr {focus : Ty → Focus} (hf : Extends focus)
    (h : r.proceed (State.stepType ⟨items, K, focus', last⟩ r.tok focus) = p) :
    Follows p r typeExpr fun type r' =>
      r'.left < r.left ∧ r'.drive items K (focus type) = p ∧ State.isArrayWord r'.tok = false := by
  rw [State.stepType] at h
  refine .ahead ?_
  by_cases ht : r.tok.kind = .ident
  · rw [if_pos ht] at h
    refine .pos ht ?_
    cases hb : Basic.ofName? r.tok.lit with
    | some b =>
      rw [hb] at h
      refine (follows_next items K (isEof_of_kind ht rfl) h).bind fun _ r₁ _ h₁ => ?_
      exact (follows_suffixes items K hf h₁.drive).mono fun _ _ hl h₂ => ⟨hl.trans_lt h₁.left, h₂⟩
    | none =>
      rw [hb] at h
      exact .stop h
  · rw [if_neg ht] at h
    refine .neg ht ?_
    exact .stop h

theorem follows_binder {hd : Header}
    (h : r.proceed (State.stepBinder ⟨items, K, focus, last⟩ hd r.tok) = p) :
    Follows p r (binder hd.malformed) fun b r' =>
      r'.left < r.left ∧ r'.drive items K (hd.bound b) = p := by
  rw [State.stepBinder] at h
  refine .ahead ?_
  cases hk : r.tok.kind with
  | ident =>
    rw [hk] at h
    exact (follows_next items K (isEof_of_kind hk rfl) h).bind fun _ r₁ _ h₁ =>
      .pure ⟨h₁.left, h₁.drive⟩
  | lparen =>
    rw [hk] at h
    refine (follows_next items K (isEof_of_kind hk rfl) h).bind fun _ r₁ _ h₁ => .ahead ?_
    refine (follows_expect items K rfl h₁.drive).bind fun _ r₂ _ h₂ => ?_
    refine (follows_expect items K rfl h₂.drive).bind fun _ r₃ _ h₃ => ?_
    refine (follows_typeExpr items K (extends_binderType _ _ _) h₃.drive).bind
      fun type r₄ hl ⟨_, h₄, ha⟩ => ?_
    rw [Reader.drive, State.step] at h₄
    dsimp only at h₄
    rw [ha] at h₄
    refine (follows_expect items K rfl h₄).bind fun _ r₅ hl₅ h₅ => .behind (.pure ⟨?_, ?_⟩)
    · exact (hl₅.trans hl).trans_lt ((h₃.left.trans h₂.left).trans h₁.left)
    · rw [h₅.last]
      exact h₅.drive
  | _ =>
    rw [hk] at h
    exact .stop h

theorem follows_params : ∀ {r : Reader} {h : FunctionHead}, r.drive items K (.params h) = p →
    Follows p r (params h) fun h r' => r'.drive items K (.params h) = p ∧
      (r'.tok.kind = .ident || r'.tok.kind = .lparen) = false := by
  intro r
  induction hl : r.left using Nat.strong_induction_on generalizing r with
  | _ n ih =>
    subst hl
    intro h hd
    refine .deeper ?_
    simp only [params]
    refine .ahead ?_
    by_cases ht : (r.tok.kind = .ident || r.tok.kind = .lparen) = true
    · refine .pos ht ?_
      have hb : r.proceed
          (State.stepBinder ⟨items, K, .params h, r.last⟩ (.function h) r.tok) = p := by
        rw [← hd, Reader.drive, State.step]
        dsimp only
        rw [State.stepParams, if_pos ht]
      refine (follows_binder items K hb).bind fun b r₁ _ ⟨hl, h₁⟩ => ?_
      exact ih _ hl rfl h₁
    · refine .neg ht ?_
      exact .pure ⟨hd, Bool.eq_false_iff.2 ht⟩

/-- Behind the type of the result, and in its place if it is not given, stands an equals sign. -/
theorem follows_resultType {h : FunctionHead}
    (hd : r.proceed (if r.tok.kind = .colon then .ok (.use items K r.tok (.resultColon h))
      else State.stepEquals ⟨items, K, focus, last⟩ r.tok (h.frame none)) = p) :
    Follows p r resultType fun type r' =>
      r'.proceed (State.stepEquals ⟨items, K, .start, r'.last⟩ r'.tok (h.frame type)) = p := by
  refine .ahead ?_
  by_cases ht : r.tok.kind = .colon
  · rw [if_pos ht] at hd
    refine .pos ht ?_
    refine (follows_next items K (isEof_of_kind ht rfl) hd).bind fun _ r₁ _ h₁ => ?_
    refine (follows_typeExpr items K (extends_resultType h) h₁.drive).bind
      fun type r₂ _ ⟨_, h₂, ha⟩ => .pure ?_
    rw [Reader.drive, State.step] at h₂
    dsimp only at h₂
    rw [ha] at h₂
    exact h₂
  · rw [if_neg ht] at hd
    refine .neg ht ?_
    exact .pure hd

theorem follows_functionHead {start : Location} (h : r.drive items K (.recWord start) = p) :
    Follows p r (functionHead start) fun h r' => r'.left < r.left ∧
      r'.proceed (State.stepEquals ⟨items, K, .start, r'.last⟩ r'.tok (h.1.frame h.2)) = p := by
  refine .ahead ?_
  refine (follows_expect items K rfl h).bind fun _ r₁ _ h₁ => ?_
  refine (follows_params items K h₁.drive).bind fun hd r₂ hl ⟨h₂, hk⟩ => ?_
  rw [Reader.drive, State.step] at h₂
  dsimp only at h₂
  rw [State.stepParams, hk, if_neg Bool.false_ne_true] at h₂
  by_cases hp : hd.params.isEmpty = true
  · rw [if_pos hp] at h₂
    refine .pos hp ?_
    exact .stop h₂
  · rw [if_neg hp] at h₂
    refine .neg hp ?_
    refine (follows_resultType items K h₂).bind fun type r₃ hl₃ h₃ => .pure ⟨?_, h₃⟩
    exact (hl₃.trans hl).trans_lt h₁.left

end

end Descent

end SmallMl.Grammar
