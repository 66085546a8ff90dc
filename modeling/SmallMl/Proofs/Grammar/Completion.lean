import SmallMl.Proofs.Grammar.Finality
import SmallMl.Proofs.Token.Closing

/-!
# Incomplete texts can be completed

Whatever the reader has read, there are words that complete it: `State.completion` gives them.  They
finish the construct that is being read with an arbitrary number, name or type, and then close what
is open on the stack, the innermost first.

Only three frames need a mark: an opening parenthesis, an opening index and a condition without its
`then`.  All others are completed by whatever token comes next, so the marks of a stack (`marks`)
are the marks of these frames, and the proof is an induction over the stack (`leads_settle`).

Together with the closing of comments (`Stream.next_closing`) this gives the main statement: a text
for which the reader asks for more can be continued to a program without a warning
(`Program.needsMore_completable`).
-/

namespace SmallMl

/-! ### The words that are used -/

namespace Word

def zero : Word := ⟨'0', [], .int 0, rfl, rfl, rfl, rfl, rfl⟩

def name : Word := ⟨'x', [], .ident, rfl, rfl, rfl, rfl, rfl⟩

def intType : Word := ⟨'i', ['n', 't'], .ident, rfl, rfl, rfl, rfl, rfl⟩

def lparen : Word := ⟨'(', [], .lparen, rfl, rfl, rfl, rfl, rfl⟩

def rparen : Word := ⟨')', [], .rparen, rfl, rfl, rfl, rfl, rfl⟩

def colon : Word := ⟨':', [], .colon, rfl, rfl, rfl, rfl, rfl⟩

def equal : Word := ⟨'=', [], .operator .equal, rfl, rfl, rfl, rfl, rfl⟩

def thenWord : Word := ⟨'t', ['h', 'e', 'n'], .thenWord, rfl, rfl, rfl, rfl, rfl⟩

end Word

namespace Grammar

open Word (Spells)

/-- The words `ws`, each as the next token, and then the end token are accepted; `next` says what
comes of the first of them. -/
def Leads (next : Token → Outcome) : List Word → Prop
  | [] => ∀ t, t.isEof = true → ∃ s, next t = .ok s
  | w :: ws => ∀ t, Spells t w → ∃ s, next t = .ok s ∧ Leads s.step ws

/-- The marks that a stack still needs, and a number where an expression is missing. -/
def marks : List Frame → List Word
  | [] => []
  | .paren _ _ :: fs | .index _ _ :: fs => .rparen :: marks fs
  | .condition _ :: fs => .thenWord :: .zero :: marks fs
  | _ :: fs => marks fs

/-- The tokens that the marks start with, and the end token. -/
def Closes (t : Token) : Prop := t.kind = .rparen ∨ t.kind = .thenWord ∨ t.kind = .eof

theorem closes_of_isEof {t : Token} (h : t.isEof = true) : Closes t :=
  .inr (.inr (kind_of_isEof h))

theorem marks_head (fs : List Frame) :
    marks fs = [] ∨ ∃ w ws, marks fs = w :: ws ∧ ∀ t, Spells t w → Closes t := by
  induction fs with
  | nil => exact Or.inl rfl
  | cons f fs ih =>
    cases f with
    | paren | index => exact Or.inr ⟨_, _, rfl, fun t ht => Or.inl ht.1⟩
    | condition => exact Or.inr ⟨_, _, rfl, fun t ht => Or.inr (Or.inl ht.1)⟩
    | right | operand | value | consequent | alternative | letBody | letNext | recBody | recNext
      | sequel => exact ih

/-- Marks only test what the tokens that close do. -/
theorem Leads.congr {next next' : Token → Outcome} {fs : List Frame}
    (h : ∀ t, Closes t → next t = next' t) (hl : Leads next' (marks fs)) :
    Leads next (marks fs) := by
  rcases marks_head fs with hm | ⟨w, ws, hm, hw⟩
  · rw [hm] at hl ⊢
    intro t ht
    rw [h t (closes_of_isEof ht)]
    exact hl t ht
  · rw [hm] at hl ⊢
    intro t ht
    rw [h t (hw t ht)]
    exact hl t ht

theorem binding?_of_closes {t : Token} (h : Closes t) (n : Nat) : binding? n t = none := by
  rcases h with h | h | h <;> exact binding?_of_kind h rfl n

theorem goesOn_of_closes {t : Token} (h : Closes t) (f : Frame) (whole : Bool) (x : Expr) :
    f.goesOn whole x t = false := by
  rcases h with h | h | h <;> simp [Frame.goesOn, h]

/-- Behind these three focuses a construct is complete. -/
def Focus.isReady : Focus → Bool
  | .atom _ | .call _ _ | .indexed _ _ => true
  | _ => false

theorem step_ready {s : State} (h : s.focus.isReady = true) :
    ∃ x, ∀ t, Closes t → s.step t = settle s.items s.last t false x s.stack := by
  obtain ⟨items, stack, focus, last⟩ := s
  have hcall : ∀ (s : State) fn args t, Closes t →
      s.stepCall fn args t = settle s.items s.last t false (s.callOf fn args) s.stack := by
    intro s fn args t ht
    rcases ht with ht | ht | ht <;> simp [State.stepCall, Token.leaf?, ht, State.complete]
  cases focus with
  | atom x =>
    refine ⟨State.callOf ⟨items, stack, .atom x, last⟩ x [], fun t ht => ?_⟩
    have hd : t.kind ≠ .dot := by rcases ht with ht | ht | ht <;> simp [ht]
    simp only [State.step, if_neg hd]
    exact hcall _ _ _ t ht
  | call fn args => exact ⟨_, fun t ht => hcall _ fn args t ht⟩
  | indexed array index =>
    refine ⟨.get ⟨array.range.start, last⟩ array index, fun t ht => ?_⟩
    rcases ht with ht | ht | ht <;> simp [State.step, State.stepIndexed, ht, State.complete,
      State.since]
  | _ => exact Bool.noConfusion h

/-! ### The stack -/

theorem leads_ready {s : State} {fs : List Frame} (h : s.focus.isReady = true)
    (hl : ∀ x, Leads (fun t => settle s.items s.last t false x s.stack) (marks fs)) :
    Leads s.step (marks fs) := by
  obtain ⟨x, hx⟩ := step_ready h
  exact (hl x).congr hx

theorem leads_zero {s : State} {items : List Expr} {stack fs : List Frame}
    (h : ∀ t, s.step t = begin items stack t)
    (hl : ∀ last x, Leads (fun t => settle items last t false x stack) (marks fs)) :
    Leads s.step (.zero :: marks fs) := by
  intro t ht
  refine ⟨.use items stack t (.atom (.int t.range 0)), ?_, leads_ready rfl (fun x => hl _ x)⟩
  have hk : t.kind = .int 0 := ht.1
  rw [h, begin, Token.leaf?, hk]
  rfl

theorem leads_closed {f : Frame} {fs : List Frame} {items : List Expr} {last : Location}
    {whole : Bool} {x y : Expr} (htaken : ∀ t, Closes t → f.taken? t x = none)
    (hclosed : f.closed? last x = some y)
    (hl : Leads (fun t => settle items last t f.isSequel y fs) (marks fs)) :
    Leads (fun t => settle items last t whole x (f :: fs)) (marks fs) := by
  refine hl.congr (fun t ht => ?_)
  rw [settle_cons, binding?_of_closes ht, goesOn_of_closes ht, htaken t ht, hclosed]
  rfl

/-- The frame `f` needs a mark `w`, and with it becomes the frames `gs` and the focus `F t`. -/
theorem leads_taken {f : Frame} {fs gs : List Frame} {items : List Expr} {last : Location}
    {whole : Bool} {x : Expr} {w : Word} {ws : List Word} {F : Token → Focus}
    (hw : ∀ t, Spells t w → Closes t)
    (htaken : ∀ t, Spells t w → f.taken? t x = some (gs, F t))
    (hl : ∀ t, Leads (State.use items (gs ++ fs) t (F t)).step ws) :
    Leads (fun t => settle items last t whole x (f :: fs)) (w :: ws) := by
  intro t ht
  refine ⟨_, ?_, hl t⟩
  dsimp only
  rw [settle_cons, binding?_of_closes (hw t ht), goesOn_of_closes (hw t ht), htaken t ht]
  rfl

theorem isReady_fill (slot : Slot) (x : Expr) : (slot.fill x).isReady = true := by
  cases slot <;> rfl

/-- **The marks of a stack complete it**, whatever expression is handed to it. -/
theorem leads_settle (items : List Expr) : ∀ (stack : List Frame) (last : Location)
    (whole : Bool) (x : Expr),
    Leads (fun t => settle items last t whole x stack) (marks stack) := by
  intro stack
  induction stack with
  | nil =>
    intro last whole x t ht
    have hk : t.kind = .eof := by
      rcases closes_of_isEof ht with h | h | h
      · rw [Token.isEof, h] at ht; exact Bool.noConfusion ht
      · rw [Token.isEof, h] at ht; exact Bool.noConfusion ht
      · exact h
    refine ⟨⟨x :: items, [], .top, last⟩, ?_⟩
    dsimp only
    rw [settle_nil, binding?_of_closes (closes_of_isEof ht), top, hk]
  | cons f fs ih =>
    intro last whole x
    cases f with
    | paren opening slot =>
      refine leads_taken (F := fun t => slot.fill (x.withRange ⟨opening, t.range.stop⟩))
        (fun t ht => Or.inl ht.1) (fun t ht => if_pos ht.1) (fun t => ?_)
      exact leads_ready (isReady_fill _ _) (fun y => ih _ _ y)
    | index array opening =>
      refine leads_taken (F := fun _ => .indexed array x)
        (fun t ht => Or.inl ht.1) (fun t ht => if_pos ht.1) (fun t => ?_)
      exact leads_ready rfl (fun y => ih _ _ y)
    | condition ifRange =>
      refine leads_taken (F := fun _ => .start)
        (fun t ht => Or.inr (Or.inl ht.1)) (fun t ht => if_pos ht.1)
        (fun t => ?_)
      -- The frame is now a `consequent`, which needs no mark.
      refine leads_zero (fun _ => rfl) (fun last' y => ?_)
      refine leads_closed (f := .consequent ifRange x) (fun u hu => ?_) rfl (ih _ _ _)
      rcases hu with hu | hu | hu <;> simp [Frame.taken?, hu]
    | consequent | letBody | recBody =>
      refine leads_closed (fun u hu => ?_) rfl (ih _ _ _)
      rcases hu with hu | hu | hu <;> simp [Frame.taken?, hu]
    | right | operand | value | alternative | letNext | recNext | sequel =>
      exact leads_closed (fun _ _ => rfl) rfl (ih _ _ _)

/-! ### The focus -/

/-- Words that make the focus a complete expression. -/
def Focus.missing : Focus → List Word
  | .top | .atom _ | .call _ _ | .indexed _ _ => []
  | .start | .semi _ _ => [.zero]
  | .opened _ _ => [.rparen]
  | .dot _ => [.lparen, .zero, .rparen]
  | .equals _ _ | .resultType _ _ => [.equal, .zero]
  | .letWord _ | .params _ => [.name, .equal, .zero]
  | .recWord _ => [.name, .name, .equal, .zero]
  | .resultColon _ => [.intType, .equal, .zero]
  | .binderOpened _ _ => [.name, .colon, .intType, .rparen, .equal, .zero]
  | .binderName _ _ _ => [.colon, .intType, .rparen, .equal, .zero]
  | .binderColon _ _ _ => [.intType, .rparen, .equal, .zero]
  | .binderType _ _ _ _ => [.rparen, .equal, .zero]

def State.completion (s : State) : List Word :=
  match s.focus with
  | .top => []
  | focus => focus.missing ++ marks s.stack

section

variable {items : List Expr} {stack : List Frame} {last : Location}

theorem leads_goOn {s : State} {w : Word} {ws : List Word} {F : Token → Focus}
    (h : ∀ t, Spells t w → s.step t = s.goOn t (F t))
    (hl : ∀ t, Leads (State.use s.items s.stack t (F t)).step ws) : Leads s.step (w :: ws) := by
  intro t ht
  exact ⟨_, h t ht, hl t⟩

theorem leads_equal {s : State} {f : Frame} (hm : marks (f :: s.stack) = marks s.stack)
    (h : ∀ t : Token, t.kind = .operator .equal → s.step t = s.await t f) :
    Leads s.step (.equal :: .zero :: marks s.stack) := by
  intro t ht
  refine ⟨_, h t ht.1, ?_⟩
  rw [← hm]
  exact leads_zero (fun _ => rfl) (fun _ x => leads_settle _ _ _ _ x)

theorem leads_params (h : FunctionHead) (hp : h.params ≠ []) :
    Leads (State.step ⟨items, stack, .params h, last⟩) (.equal :: .zero :: marks stack) := by
  refine leads_equal (f := h.frame none) rfl (fun t ht => ?_)
  have he : h.params.isEmpty = false := by simpa using hp
  simp [State.step, State.stepParams, State.stepEquals, ht, he]

theorem leads_bound (h : Header) (b : Binder) :
    Leads (State.step ⟨items, stack, h.bound b, last⟩) (.equal :: .zero :: marks stack) := by
  cases h with
  | plain start =>
    refine leads_equal (f := .letBody start b) rfl (fun t ht => ?_)
    simp [State.step, State.stepEquals, Header.bound, ht]
  | function h => exact leads_params (h.addParam b) (by simp [FunctionHead.addParam])

theorem leads_binder {s : State} (h : Header)
    (hs : ∀ t : Token, t.kind = .ident → s.step t = s.stepBinder h t) :
    Leads s.step (.name :: .equal :: .zero :: marks s.stack) := by
  refine leads_goOn (F := fun t => h.bound ⟨t.name, none, t.range⟩) (fun t ht => ?_)
    (fun t => leads_bound h _)
  have hk : t.kind = .ident := ht.1
  simp [hs t hk, State.stepBinder, hk]

theorem leads_intType {s : State} {F : Ty → Focus} {ws : List Word}
    (hs : ∀ t, s.step t = s.stepType t F)
    (hl : ∀ t, Leads (State.use s.items s.stack t (F (.basic .int))).step ws) :
    Leads s.step (.intType :: ws) := by
  refine leads_goOn (F := fun _ => F (.basic .int)) (fun t ht => ?_) hl
  have hk : t.kind = .ident := ht.1
  have hb : Basic.ofName? t.lit = some .int := by rw [ht.2]; decide
  rw [hs, State.stepType, if_pos hk, hb]

theorem leads_binderType (h : Header) (opening : Location) (name : String) (type : Ty) :
    Leads (State.step ⟨items, stack, .binderType h opening name type, last⟩)
      (.rparen :: .equal :: .zero :: marks stack) := by
  refine leads_goOn (F := fun t => h.bound ⟨name, some type, ⟨opening, t.range.stop⟩⟩)
    (fun t ht => ?_) (fun t => leads_bound h _)
  have hk : t.kind = .rparen := ht.1
  simp [State.step, State.isArrayWord, hk]

theorem leads_binderColon (h : Header) (opening : Location) (name : String) :
    Leads (State.step ⟨items, stack, .binderColon h opening name, last⟩)
      (.intType :: .rparen :: .equal :: .zero :: marks stack) :=
  leads_intType (fun _ => rfl) (fun _ => leads_binderType h opening name _)

theorem leads_binderName (h : Header) (opening : Location) (name : String) :
    Leads (State.step ⟨items, stack, .binderName h opening name, last⟩)
      (.colon :: .intType :: .rparen :: .equal :: .zero :: marks stack) :=
  leads_goOn (F := fun _ => .binderColon h opening name) (fun _ ht => if_pos ht.1)
    (fun _ => leads_binderColon h opening name)

theorem leads_dot (array : Expr) :
    Leads (State.step ⟨items, stack, .dot array, last⟩)
      (.lparen :: .zero :: .rparen :: marks stack) := by
  intro t ht
  refine ⟨_, if_pos ht.1, ?_⟩
  exact leads_zero (fun _ => rfl)
    (fun _ x => leads_settle _ (.index array t.range.start :: stack) _ _ x)

end

/-- **Every state has a completion.** -/
theorem leads_completion (s : State) : Leads s.step s.completion := by
  obtain ⟨items, stack, focus, last⟩ := s
  cases focus with
  | top =>
    intro t ht
    rcases closes_of_isEof ht with h | h | h <;>
      first
      | exact ⟨_, by simp only [State.step, top, h]; rfl⟩
      | (rw [Token.isEof, h] at ht; exact Bool.noConfusion ht)
  | atom | call | indexed => exact leads_ready rfl (fun x => leads_settle _ _ _ _ x)
  | start => exact leads_zero (fun _ => rfl) (fun _ x => leads_settle _ _ _ _ x)
  | opened opening slot =>
    refine leads_goOn (F := fun t => slot.fill (.unit ⟨opening, t.range.stop⟩))
      (fun t ht => if_pos ht.1) (fun t => ?_)
    exact leads_ready (isReady_fill _ _) (fun x => leads_settle _ _ _ _ x)
  | dot array => exact leads_dot array
  | semi x semi =>
    intro t ht
    have hk : t.kind = .int 0 := ht.1
    refine ⟨.use items (.sequel x semi :: stack) t (.atom (.int t.range 0)), ?_, ?_⟩
    · simp [State.step, begin, Token.leaf?, hk]
    · exact leads_ready rfl (fun y => leads_settle _ (.sequel x semi :: stack) _ _ y)
  | letWord start =>
    refine leads_binder (.plain start) (fun t ht => ?_)
    simp [State.step, ht]
  | equals start b => exact leads_equal (f := .letBody start b) rfl (fun t ht => if_pos ht)
  | recWord start =>
    refine leads_goOn (F := fun t => .params ⟨start, t.name, t.range, []⟩)
      (fun t ht => if_pos ht.1) (fun t => ?_)
    refine leads_binder (.function ⟨start, t.name, t.range, []⟩) (fun u hu => ?_)
    simp [State.step, State.stepParams, State.use, hu]
  | params h =>
    refine leads_binder (.function h) (fun t ht => ?_)
    simp [State.step, State.stepParams, ht]
  | resultColon h =>
    refine leads_intType (fun _ => rfl) (fun t => ?_)
    refine leads_equal (f := h.frame (some (.basic .int))) rfl (fun u hu => ?_)
    simp [State.step, State.stepEquals, State.isArrayWord, State.use, hu]
  | resultType h type =>
    refine leads_equal (f := h.frame (some type)) rfl (fun t ht => ?_)
    simp [State.step, State.stepEquals, State.isArrayWord, ht]
  | binderOpened h opening =>
    exact leads_goOn (F := fun t => .binderName h opening t.name) (fun t ht => if_pos ht.1)
      (fun t => leads_binderName h opening _)
  | binderName h opening name => exact leads_binderName h opening name
  | binderColon h opening name => exact leads_binderColon h opening name
  | binderType h opening name type => exact leads_binderType h opening name type

/-- What leads to acceptance is a run that the end token completes. -/
theorem Leads.run : ∀ {ws : List Word} {ts : List Token} {s : State}, Leads s.step ws →
    List.Forall₂ Spells ts ws →
    ∃ s', s.run ts = .ok s' ∧ ∀ t, t.isEof = true → ∃ s'', s'.step t = .ok s'' := by
  intro ws
  induction ws with
  | nil =>
    intro ts s hl hts
    cases hts
    exact ⟨s, rfl, hl⟩
  | cons w ws ih =>
    intro ts s hl hts
    cases hts with
    | @cons t _ ts' _ ht hts' =>
      obtain ⟨s₁, h₁, hl₁⟩ := hl t ht
      obtain ⟨s', hs', he⟩ := ih hl₁ hts'
      exact ⟨s', by rw [State.run_cons h₁, hs'], he⟩

end Grammar

/-! ### Texts -/

open Grammar (State)

/-- A lexeme that is no token is never the end of the input. -/
theorem Stream.atEnd_of_next_error {s : Stream} {d : Diagnostic} (h : s.next.1 = .error d) :
    d.atEnd = false := by
  fun_induction next s with
  | case1 s t ht hc ih => exact ih h
  | case2 s t ht hc => cases h
  | case3 s d' hd =>
    cases h
    rcases s.read_cases with ⟨_, hr⟩ | ⟨c, r, _, hr⟩
    · rw [hr] at hd
      cases hd
    · rw [hr, result] at hd
      cases hf : (Lexeme.read c r).found with
      | ok k => rw [hf] at hd; cases hd
      | error f => rw [hf] at hd; cases hd; rfl

namespace Parse

/-- A run sees of a stream what comes next. -/
theorem run_congr {src src' : Stream} (h : src.next = src'.next)
    (hset : src.settings = src'.settings) (s : State) : run s src = run s src' := by
  cases hn : src'.next.1 with
  | error d =>
    have hp : Halts s src' ⟨.error d, src'.next.2⟩ := .fault hn
    have hp' : Halts s src ⟨.error d, src.next.2⟩ := .fault (by rw [h, hn])
    rw [run_of_halts hp, run_of_halts hp', h]
  | ok t =>
    have hn' : src.next.1 = .ok t := by rw [h, hn]
    cases hs : s.step t with
    | error i => rw [run_of_halts (.issue hn hs), run_of_halts (.issue hn' hs), h, hset]
    | ok s' =>
      cases ht : t.isEof with
      | true => rw [run_of_halts (.finish hn ht hs), run_of_halts (.finish hn' ht hs), h]
      | false => rw [run_of_token hn ht hs, run_of_token hn' ht hs, h]

/-- The words that complete a state, on a line of their own, make a program. -/
theorem run_completion {s : State} {src : Stream}
    (h : src.rest = '\n' :: Word.line s.completion) :
    ∃ p, (run s src).result = .ok p ∧ (run s src).warnings = src.warnings := by
  obtain ⟨ts, b, l, he, hb, hts⟩ := Stream.emits_line s.completion (by decide) h
  obtain ⟨s', hs', hend⟩ := (Grammar.leads_completion s).run hts
  have hn : ({ src with rest := [b], loc := l } : Stream).next
      = _ := Stream.next_of_blank hb rfl
  obtain ⟨s'', hs''⟩ := hend (Stream.endToken _) rfl
  rw [run_eq he hs' (.finish (by rw [hn]) rfl hs''), hn]
  exact ⟨_, rfl, rfl⟩

end Parse

namespace Program

/-- More text is asked for where the end token is in the way. -/
theorem exists_end_of_needsMore {text : List Char} (h : needsMore text = true) :
    ∃ ts src s t, (Stream.ofText {} text).Emits ts src ∧ State.initial.run ts = .ok s ∧
      src.next.1 = .ok t ∧ t.isEof = true := by
  obtain ⟨ts, src, s, hts, hs, hp⟩ := Parse.run_halts .initial (.ofText {} text)
  have hpar : Parse.Halts s src (parse {} text) := hp
  rw [needsMore] at h
  generalize parse {} text = p at h hpar
  cases hpar with
  | @fault d hn =>
    have hd : d.atEnd = true := h
    rw [Stream.atEnd_of_next_error hn] at hd
    exact Bool.noConfusion hd
  | @issue t i hn hi =>
    have ht : i.atEnd = true := h
    exact ⟨ts, src, s, t, hts, hs, hn, by rw [← State.atEnd_of_step_error hi, ht]⟩
  | finish hn ht _ => exact ⟨ts, src, s, _, hts, hs, hn, ht⟩

/-- **Incomplete texts can be completed.**  If more text is asked for, there is text that makes a
program of what was typed, and no warning is left. -/
theorem needsMore_completable (text : List UInt8) (h : needsMore (Utf8.decode text) = true) :
    ∃ more p, (parseBytes {} (text ++ Utf8.newline :: more)).result = .ok p ∧
      (parseBytes {} (text ++ Utf8.newline :: more)).warnings = [] := by
  obtain ⟨ts, src, s, t, hts, hs, hn, ht⟩ := exists_end_of_needsMore h
  obtain ⟨n, hclose⟩ := Stream.next_closing hn ht
  obtain ⟨l, hl⟩ := hclose (Word.line s.completion)
  have hascii : ∀ c ∈ Lexeme.closing n ++ '\n' :: Word.line s.completion, c.toNat < 128 := by
    intro c hc
    rw [List.mem_append, List.mem_cons] at hc
    rcases hc with hc | rfl | hc
    · exact Lexeme.ascii_closing n c hc
    · decide
    · exact Word.ascii_line _ c hc
  have hrest : (⟨src.settings, '\n' :: Word.line s.completion, l, src.warnings, src.heard⟩ :
      Stream).rest = '\n' :: Word.line s.completion := rfl
  obtain ⟨p, hp, hw⟩ := Parse.run_completion hrest
  refine ⟨(Lexeme.closing n ++ '\n' :: Word.line s.completion).map Utf8.byte, p, ?_⟩
  rw [parseBytes_append_newline, Utf8.decode_bytes _ hascii,
    Parse.run_emits (hts.extend (by decide) _) hs, Parse.run_congr hl rfl]
  exact ⟨hp, by rw [hw]; exact hts.warnings_eq⟩

/-- A call in parentheses with a comment that is not closed: `(f (* a`. -/
theorem open_paren_and_comment_completable :
    needsMore (Utf8.decode [0x28, 0x66, 0x20, 0x28, 0x2A, 0x20, 0x61]) = true ∧
      ∃ more p,
        (parseBytes {} ([0x28, 0x66, 0x20, 0x28, 0x2A, 0x20, 0x61] ++ Utf8.newline :: more)).result
          = .ok p ∧
        (parseBytes {} ([0x28, 0x66, 0x20, 0x28, 0x2A, 0x20, 0x61]
          ++ Utf8.newline :: more)).warnings = [] := by
  have h : needsMore (Utf8.decode [0x28, 0x66, 0x20, 0x28, 0x2A, 0x20, 0x61]) = true := by
    have hd : (parse {} ['(', 'f', ' ', '(', '*', ' ', 'a']).result
        = .error ⟨⟨1, 1, 0⟩, "expected ')'", .error, .parser, "", true⟩ :=
      result_parse_of_within (n := 5) rfl
    rw [show Utf8.decode [0x28, 0x66, 0x20, 0x28, 0x2A, 0x20, 0x61]
      = ['(', 'f', ' ', '(', '*', ' ', 'a'] by decide +kernel, needsMore_eq_of_error hd]
  exact ⟨h, needsMore_completable _ h⟩

end Program

end SmallMl
