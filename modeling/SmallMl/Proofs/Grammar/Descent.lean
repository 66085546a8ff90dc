import Mathlib.Order.Filter.AtTopBot.Basic
import SmallMl.Grammar.Parse
import SmallMl.Proofs.Token.Listing

/-!
# Recursive descent

The grammar as a program of mutually recursive functions, one for each construct, with one token of
lookahead.  A function reads the construct that starts at the lookahead and stops in front of the
first token that does not belong to it.  The stack of `State` does not appear: what waits there is
the rest of the functions that have been called.

A function need not come to an end.  So each of them is told how deep its calls may go, and gives up
when that is used up (`Reading.tooDeep`).  `Descent.Comes` is what is left of this in the end: the
program comes to an outcome if that is its outcome for all large depths.  No bound on the depth is
part of this, so that a function comes to any outcome at all is a statement about the program.

A `Reader` keeps a list of what it was given whenever it asked for another token.  Every loop makes
one of its turns by a function of its own (`operation`, `simpleExpr`, `index`, `binder`, `item`), so
what a turn takes can be said.
-/

namespace SmallMl.Grammar

/-- Why reading breaks off. -/
inductive Stop
  /-- A lexeme is no token. -/
  | fault (d : Diagnostic)
  /-- The lookahead cannot be used. -/
  | issue (i : Issue)

/-- A stream with one token of lookahead. -/
structure Reader where
  /-- The stream behind the lookahead. -/
  src : Stream
  tok : Token
  /-- The end of the token in front of the lookahead. -/
  last : Location
  /-- The answers to all requests for another token, the first one first. -/
  taken : List (Except Diagnostic Token)

namespace Reader

def before (src : Stream) : Reader := ⟨src, ⟨.eof, default, []⟩, default, []⟩

def advance (r : Reader) (t : Token) : Reader :=
  ⟨r.src.next.2, t, r.tok.range.stop, r.taken ++ [.ok t]⟩

def broken (r : Reader) (d : Diagnostic) : Reader :=
  { r with src := r.src.next.2, taken := r.taken ++ [.error d] }

end Reader

/-- A program that reads tokens and makes no calls, or whose calls may only go to a fixed depth. -/
abbrev Reading := ExceptT Stop (StateT Reader Option)

/-- A program that reads tokens, for every depth that its calls may go to. -/
abbrev Descent (α : Type) := Nat → Reading α

namespace Reading

variable {α β : Type}

/-- What comes of the program: `none` if its calls go too deep. -/
def run (m : Reading α) (r : Reader) : Option (Except Stop α × Reader) :=
  StateT.run (ExceptT.run m) r

def tooDeep : Reading α := fun _ => none

def next : Reading Unit := fun r =>
  match r.src.next.1 with
  | .ok t => some (.ok (), r.advance t)
  | .error d => some (.error (.fault d), r.broken d)

def ahead : Reading Token := fun r => some (.ok r.tok, r)

/-- The end of the token in front of the lookahead. -/
def behind : Reading Location := fun r => some (.ok r.last, r)

def stop (issue : Token → Issue) : Reading α := fun r => some (.error (.issue (issue r.tok)), r)

theorem run_ahead (f : Token → Reading β) (r : Reader) :
    (ahead >>= f).run r = (f r.tok).run r := rfl

theorem run_behind (f : Location → Reading β) (r : Reader) :
    (behind >>= f).run r = (f r.last).run r := rfl

theorem run_bind_of_ok {m : Reading α} {a : α} {r r' : Reader} (h : m.run r = some (.ok a, r'))
    (f : α → Reading β) : (m >>= f).run r = (f a).run r' := by
  change (m r >>= _) = _
  rw [show m r = some (.ok a, r') from h]
  rfl

theorem run_bind_of_error {m : Reading α} {e : Stop} {r r' : Reader}
    (h : m.run r = some (.error e, r')) (f : α → Reading β) :
    (m >>= f).run r = some (.error e, r') := by
  change (m r >>= _) = _
  rw [show m r = some (.error e, r') from h]
  rfl

theorem run_next_of_ok {r : Reader} {t : Token} (h : r.src.next.1 = .ok t) :
    next.run r = some (.ok (), r.advance t) := by
  simp only [run, ExceptT.run, StateT.run, next, h]

theorem run_next_of_error {r : Reader} {d : Diagnostic} (h : r.src.next.1 = .error d) :
    next.run r = some (.error (.fault d), r.broken d) := by
  simp only [run, ExceptT.run, StateT.run, next, h]

def expect (k : Kind) (loc : Location) (c : Complaint) : Reading Unit := do
  if (← ahead).kind = k then next else stop (.raise · loc c)

def equals : Reading Unit := do
  expect (.operator .equal) (← ahead).range.start .expectedEquals

end Reading

namespace Descent

open Filter Reading

variable {α β : Type}

/-! ### Outcomes -/

/-- The program comes to the outcome `o` and leaves `r'`, if its calls may go deep enough. -/
abbrev Comes (m : Descent α) (r : Reader) (o : Except Stop α) (r' : Reader) : Prop :=
  ∀ᶠ n in atTop, (m n).run r = some (o, r')

namespace Comes

variable {m : Descent α} {r r' r'' : Reader} {o o' : Except Stop α}

theorem of_run {m : Reading α} (h : m.run r = some (o, r')) : Comes (fun _ => m) r o r' :=
  .of_forall fun _ => h

theorem deeper (h : Comes (fun n => m (n + 1)) r o r') : Comes m r o r' := by
  obtain ⟨n, hn⟩ := eventually_atTop.1 h
  refine eventually_atTop.2 ⟨n + 1, fun k hk => ?_⟩
  obtain ⟨k, rfl⟩ := Nat.exists_eq_add_of_le' hk
  exact hn (k + n) (Nat.le_add_left n k)

theorem of_run_succ (h : ∀ n, (m (n + 1)).run r = some (o, r')) : Comes m r o r' :=
  .deeper (.of_forall h)

theorem bind {a : α} {f : α → Descent β} {o : Except Stop β} (h : Comes m r (.ok a) r')
    (hf : Comes (f a) r' o r'') : Comes (fun n => m n >>= fun b => f b n) r o r'' := by
  filter_upwards [h, hf] with n hn hfn
  rw [run_bind_of_ok hn, hfn]

theorem bind_error {e : Stop} (h : Comes m r (.error e) r') (f : α → Descent β) :
    Comes (fun n => m n >>= fun a => f a n) r (.error e) r' := by
  filter_upwards [h] with n hn
  rw [run_bind_of_error hn]

theorem unique (h : Comes m r o r') (h' : Comes m r o' r'') : o = o' ∧ r' = r'' := by
  obtain ⟨n, hn, hn'⟩ := (h.and h').exists
  rw [hn] at hn'
  cases hn'
  exact ⟨rfl, rfl⟩

end Comes

/-! ### Types and binders -/

/-- The words `array` behind a type. -/
def suffixes (type : Ty) : Descent Ty
  | 0 => tooDeep
  | n + 1 => do
    if State.isArrayWord (← ahead) then
      next
      suffixes (.array type) n
    else return type

def typeExpr : Descent Ty := fun n => do
  let t ← ahead
  if t.kind = .ident then
    match Basic.ofName? t.lit with
    | some b =>
      next
      suffixes (.basic b) n
    | none => stop (.raise · t.range.start (.unknownType t.name))
  else stop (.raise · t.range.start .expectedType)

def binder (c : Complaint) : Descent Binder := fun n => do
  let t ← ahead
  match t.kind with
  | .ident =>
    next
    return ⟨t.name, none, t.range⟩
  | .lparen =>
    next
    let name ← ahead
    expect .ident t.range.start c
    expect .colon t.range.start c
    let type ← typeExpr n
    expect .rparen t.range.start c
    return ⟨name.name, some type, ⟨t.range.start, ← behind⟩⟩
  | _ => stop (.raise · t.range.start c)

def params (h : FunctionHead) : Descent FunctionHead
  | 0 => tooDeep
  | n + 1 => do
    let t ← ahead
    if t.kind = .ident || t.kind = .lparen then
      let b ← binder .malformedParams n
      params (h.addParam b) n
    else return h

def resultType : Descent (Option Ty) := fun n => do
  if (← ahead).kind = .colon then
    next
    return some (← typeExpr n)
  else return none

/-- `fn params : type` -/
def functionHead (start : Location) : Descent (FunctionHead × Option Ty) := fun n => do
  let t ← ahead
  expect .ident t.range.start .expectedFunctionName
  let h ← params ⟨start, t.name, t.range, []⟩ n
  if h.params.isEmpty then stop fun u => .raise u u.range.start .malformedParams
  else return (h, ← resultType n)

/-! ### Expressions -/

mutual

/-- An expression whose operators bind at least as tightly as `prec`. -/
def mustExpr (prec : Nat) : Descent Expr
  | 0 => tooDeep
  | n + 1 => do
    match ← expr prec n with
    | some x => return x
    | none => stop .unexpected
termination_by structural n => n

/-- The same, or nothing if no expression starts here. -/
def expr (prec : Nat) : Descent (Option Expr)
  | 0 => tooDeep
  | n + 1 => do
    match ← operand n with
    | some x => return some (← operators prec x n)
    | none => return none
termination_by structural n => n

/-- The operators behind `x`, as far as they bind at least as tightly as `prec`. -/
def operators (prec : Nat) (x : Expr) : Descent Expr
  | 0 => tooDeep
  | n + 1 => do
    match ← operation prec x n with
    | some y => operators prec y n
    | none => return x
termination_by structural n => n

def operation (prec : Nat) (x : Expr) : Descent (Option Expr)
  | 0 => tooDeep
  | n + 1 => do
    match binding? prec (← ahead) with
    | some op =>
      next
      let y ← mustExpr (op.precedence + 1) n
      return some (op.combine x y)
    | none => return none
termination_by structural n => n

/-- Everything but a chain of operators. -/
def operand : Descent (Option Expr)
  | 0 => tooDeep
  | n + 1 => do
    match ← simpleExpr n with
    | some x =>
      if (← ahead).kind = .dot then return some (← elements x n)
      else return some (← application x [] n)
    | none =>
      let t ← ahead
      match t.kind with
      | .notWord => return some (← unaryExpr .not n)
      | .operator .minus => return some (← unaryExpr .neg n)
      | .operator .minusDot => return some (← unaryExpr .fneg n)
      | .ifWord => return some (← ifExpr n)
      | .letWord => return some (← letExpr n)
      | .arrayMake =>
        next
        return some (← application (.var t.range arrayMake) [] n)
      | _ => return none
termination_by structural n => n

/-- An atom: a literal, a name or parentheses. -/
def simpleExpr : Descent (Option Expr)
  | 0 => tooDeep
  | n + 1 => do
    let t ← ahead
    match t.leaf? with
    | some x =>
      next
      return some x
    | none => if t.kind = .lparen then return some (← parenExpr n) else return none
termination_by structural n => n

/-- `()` or a sequence in parentheses. -/
def parenExpr : Descent Expr
  | 0 => tooDeep
  | n + 1 => do
    let opening := (← ahead).range.start
    next
    if (← ahead).kind = .rparen then
      next
      return .unit ⟨opening, ← behind⟩
    else
      let x ← seqExpr n
      expect .rparen opening (.expected .rparen)
      return x.withRange ⟨opening, ← behind⟩
termination_by structural n => n

/-- The elements that are taken out of `array`, one out of the other.  The last one may be
assigned to. -/
def elements (array : Expr) : Descent Expr
  | 0 => tooDeep
  | n + 1 => do
    if (← ahead).kind = .dot then
      let i ← index n
      if (← ahead).kind = .leftArrow then
        next
        let v ← mustExpr 0 n
        return .put ⟨array.range.start, ← behind⟩ array i v
      else elements (.get ⟨array.range.start, ← behind⟩ array i) n
    else return array
termination_by structural n => n

def index : Descent Expr
  | 0 => tooDeep
  | n + 1 => do
    next
    let opening := (← ahead).range.start
    expect .lparen opening .expectedIndex
    let i ← mustExpr 0 n
    expect .rparen opening (.expected .rparen)
    return i
termination_by structural n => n

/-- The arguments of `fn` behind those in `args`, the latest of which comes first. -/
def application (fn : Expr) (args : List Expr) : Descent Expr
  | 0 => tooDeep
  | n + 1 => do
    match ← simpleExpr n with
    | some x => application fn (x :: args) n
    | none =>
      if args.isEmpty then return fn
      else return .call ⟨fn.range.start, ← behind⟩ fn args.reverse
termination_by structural n => n

def unaryExpr (op : UnaryOp) : Descent Expr
  | 0 => tooDeep
  | n + 1 => do
    let start := (← ahead).range.start
    next
    let x ← mustExpr op.precedence n
    return .unary ⟨start, ← behind⟩ op x
termination_by structural n => n

/-- `if cond then yes else no` -/
def ifExpr : Descent Expr
  | 0 => tooDeep
  | n + 1 => do
    let t ← ahead
    next
    let c ← mustExpr 0 n
    expect .thenWord (← ahead).range.start (.expected .thenWord)
    let yes ← mustExpr 0 n
    let e ← ahead
    if e.kind = .elseWord then
      next
      let no ← mustExpr 0 n
      return .cond ⟨t.range.start, ← behind⟩ c yes (some no) t.range (some e.range)
    else return .cond ⟨t.range.start, ← behind⟩ c yes none t.range none
termination_by structural n => n

/-- `let binder = body in next`, or `let rec`. -/
def letExpr : Descent Expr
  | 0 => tooDeep
  | n + 1 => do
    let start := (← ahead).range.start
    next
    if (← ahead).kind = .recWord then
      next
      letRecExpr start n
    else
      let b ← binder .malformedLet n
      equals
      let body ← mustExpr 0 n
      let rest ← inExpr n
      return .bind ⟨start, ← behind⟩ b body rest
termination_by structural n => n

/-- `let rec fn params : type = body in next`, from `fn` on. -/
def letRecExpr (start : Location) : Descent Expr
  | 0 => tooDeep
  | n + 1 => do
    let (h, result) ← functionHead start n
    equals
    let body ← mustExpr 0 n
    let rest ← inExpr n
    return .bindRec ⟨h.start, ← behind⟩ ⟨h.name, result, h.nameRange⟩ h.params.reverse body rest
termination_by structural n => n

/-- `in next`, if it is given. -/
def inExpr : Descent (Option Expr)
  | 0 => tooDeep
  | n + 1 => do
    if (← ahead).kind = .inWord then
      next
      return some (← seqExpr n)
    else return none
termination_by structural n => n

def seqExpr : Descent Expr
  | 0 => tooDeep
  | n + 1 => do
    let x ← mustExpr 0 n
    let t ← ahead
    if t.kind = .semi && !x.endsSequence then
      next
      let u ← ahead
      if u.kind = .rparen || u.kind = .eof then return x
      else
        let rest ← seqExpr n
        return .bind (Range.span x.range rest.range) ⟨discarded, some (.basic .unit), t.range⟩ x
          (some rest)
    else return x
termination_by structural n => n

end

/-! ### Programs -/

def item : Descent (Option Expr) := fun n => do
  if (← ahead).kind = .semi then
    next
    return none
  else return some (← mustExpr 0 n)

def items (xs : List Expr) : Descent (List Expr)
  | 0 => tooDeep
  | n + 1 => do
    if (← ahead).isEof then return xs
    else
      match ← item n with
      | some x => items (xs ++ [x]) n
      | none => items xs n

def ofItems (xs : List Expr) (t : Token) : Program :=
  match xs.head?, xs.getLast? with
  | some x, some y => ⟨Range.span x.range y.range, xs⟩
  | _, _ => ⟨t.range, xs⟩

def program : Descent Program := fun n => do
  next
  let xs ← items [] n
  return ofItems xs (← ahead)

end Descent

end SmallMl.Grammar
