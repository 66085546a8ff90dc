import SmallMl.Number.Numeral
import SmallMl.Text.Quoted
import SmallMl.Token.Kind

/-!
# Lexemes

`Lexeme.read` takes the lexeme at the front of a nonempty text that starts with no blank: its
characters, the rest of the text and what was found.  A lexeme that is no token is a `Fault`; it has
its characters all the same, so reading goes on behind it.

Each class takes as much as it can:

* a word is a letter followed by letters, digits and underscores, and goes on over a point if a
  letter follows the point;
* a numeral is described in `Numeral`;
* an operator is a run of operator characters; one of `+ - * /` on its own takes a point that
  follows it;
* a comment goes on to the mark that closes it, and to the end of the text if there is none.

Main statement: the characters of a lexeme and the rest make up the text
(`Lexeme.text_append_rest`), and there is at least one character (`Lexeme.text_ne_nil`).
-/

namespace SmallMl

inductive Fault
  | invalidCharacter (c : Char)
  | invalidInteger (text : List Char)
  | invalidFloat (text : List Char)
  | invalidOperator (text : List Char)
  deriving DecidableEq

namespace Fault

def message : Fault → String
  | invalidCharacter c => String.join ["invalid character ", Quoted.char c]
  | invalidInteger cs => String.join ["invalid integer literal '", String.ofList cs, "'"]
  | invalidFloat cs => String.join ["invalid float literal '", String.ofList cs, "'"]
  | invalidOperator cs => String.join ["invalid operator '", String.ofList cs, "'"]

end Fault

/-- What is read at the front of a text. -/
structure Lexeme where
  text : List Char
  rest : List Char
  found : Except Fault Kind
  /-- The lexeme is a comment that the text ends in. -/
  unclosed : Bool

namespace Lexeme

/-- The characters that separate tokens. -/
def isBlank (c : Char) : Bool := c = ' ' || c = '\t' || c = '\n' || c = '\r'

def isLetter (c : Char) : Bool := ('a' ≤ c && c ≤ 'z') || ('A' ≤ c && c ≤ 'Z')

def isWordChar (c : Char) : Bool := isLetter c || Digits.isDigit c || c = '_'

def isOperatorChar (c : Char) : Bool :=
  c = '+' || c = '-' || c = '*' || c = '/' || c = '=' || c = '<' || c = '>'

def startsWithLetter : List Char → Bool
  | [] => false
  | c :: _ => isLetter c

/-- The word that goes on at the front of a text, and the rest. -/
def splitWord : List Char → List Char × List Char
  | [] => ([], [])
  | c :: r =>
    if isWordChar c || (c = '.' && startsWithLetter r) then
      let s := splitWord r
      (c :: s.1, s.2)
    else ([], c :: r)

/-- A word: a keyword, a boolean, a word operator or an identifier. -/
def word (cs : List Char) : Lexeme :=
  ⟨(splitWord cs).1, (splitWord cs).2, .ok (.ofWord (splitWord cs).1), false⟩

def numeralKind (n : Numeral) : Except Fault Kind :=
  if n.isFloat then
    match n.toFloat? with
    | some v => .ok (.float v)
    | none => .error (.invalidFloat n.text)
  else
    match n.toInt? with
    | some v => .ok (.int v)
    | none => .error (.invalidInteger n.text)

def numeral (cs : List Char) : Lexeme :=
  ⟨(Numeral.read cs).1.text, (Numeral.read cs).2, numeralKind (Numeral.read cs).1, false⟩

/-- The operators that have a variant for floats. -/
def takesPoint (run : List Char) : Bool :=
  run == ['+'] || run == ['-'] || run == ['*'] || run == ['/']

/-- The operator at the front of a text, with the point that selects its float variant, and the
rest. -/
def splitOperator (cs : List Char) : List Char × List Char :=
  let run := cs.takeWhile isOperatorChar
  match cs.dropWhile isOperatorChar with
  | [] => (run, [])
  | c :: r => if c = '.' && takesPoint run then (run ++ [c], r) else (run, c :: r)

def operatorKind (run : List Char) : Except Fault Kind :=
  if run = ['-', '>'] then .ok .arrow
  else if run = ['<', '-'] then .ok .leftArrow
  else match Operator.ofSymbols? run with
    | some o => .ok (.operator o)
    | none => .error (.invalidOperator run)

def operator (cs : List Char) : Lexeme :=
  ⟨(splitOperator cs).1, (splitOperator cs).2, operatorKind (splitOperator cs).1, false⟩

/-- The inside of a comment at nesting depth `depth`, with the marks that close it, the rest, and
whether the text ends in it.  Marks do not overlap. -/
def splitComment : Nat → List Char → List Char × List Char × Bool
  | 0, cs => ([], cs, false)
  | _ + 1, [] => ([], [], true)
  | _ + 1, [c] => ([c], [], true)
  | depth + 1, c :: d :: r =>
    if c = '*' && d = ')' then
      let s := splitComment depth r
      (c :: d :: s.1, s.2)
    else if c = '(' && d = '*' then
      let s := splitComment (depth + 2) r
      (c :: d :: s.1, s.2)
    else
      let s := splitComment (depth + 1) (d :: r)
      (c :: s.1, s.2)
termination_by structural _ cs => cs

/-- What starts with an opening parenthesis: a comment if a star follows. -/
def paren (r : List Char) : Lexeme :=
  match r with
  | [] => ⟨['('], [], .ok .lparen, false⟩
  | c :: r' =>
    if c = '*' then
      let s := splitComment 1 r'
      ⟨'(' :: '*' :: s.1, s.2.1, .ok .comment, s.2.2⟩
    else ⟨['('], c :: r', .ok .lparen, false⟩

/-- The lexeme at the front of the text `c :: r`. -/
def read (c : Char) (r : List Char) : Lexeme :=
  if isLetter c then word (c :: r)
  else if Digits.isDigit c then numeral (c :: r)
  else if isOperatorChar c then operator (c :: r)
  else if c = '(' then paren r
  else match Kind.ofMark? c with
    | some k => ⟨[c], r, .ok k, false⟩
    | none => ⟨[c], r, .error (.invalidCharacter c), false⟩

/-! ### Nothing is lost -/

theorem splitWord_append : ∀ cs, (splitWord cs).1 ++ (splitWord cs).2 = cs := by
  intro cs
  induction cs with
  | nil => rfl
  | cons c r ih =>
    unfold splitWord
    split
    · simp [ih]
    · rfl

theorem splitOperator_append (cs : List Char) :
    (splitOperator cs).1 ++ (splitOperator cs).2 = cs := by
  have h := List.takeWhile_append_dropWhile (p := isOperatorChar) (l := cs)
  simp only [splitOperator]
  split
  · next hr => rw [hr] at h; exact h
  · next c r hr =>
    rw [hr] at h
    split
    · simp [h]
    · exact h

theorem splitComment_append : ∀ depth cs,
    (splitComment depth cs).1 ++ (splitComment depth cs).2.1 = cs := by
  intro depth cs
  fun_induction splitComment depth cs with
  | case1 => rfl
  | case2 => rfl
  | case3 => rfl
  | case4 depth c d r h s ih => simp [s, ih]
  | case5 depth c d r h h' s ih => simp [s, ih]
  | case6 depth c d r h h' s ih => simp [s, ih]

theorem paren_append (r : List Char) : (paren r).text ++ (paren r).rest = '(' :: r := by
  unfold paren
  split
  · rfl
  · next c r' =>
    split
    · next h => simp [splitComment_append, h]
    · rfl

/-- **Nothing is lost**: the characters of a lexeme and the rest make up the text. -/
theorem text_append_rest (c : Char) (r : List Char) :
    (read c r).text ++ (read c r).rest = c :: r := by
  unfold read
  split
  · exact splitWord_append _
  split
  · exact Numeral.text_append_read _
  split
  · exact splitOperator_append _
  split
  · next h => rw [paren_append, h]
  split <;> rfl

/-! ### There is at least one character -/

theorem numeral_text_ne_nil {c : Char} (h : Digits.isDigit c = true) (r : List Char) :
    (numeral (c :: r)).text ≠ [] := by
  simp [numeral, Numeral.read, Numeral.text, h]

theorem operator_text_ne_nil {c : Char} (h : isOperatorChar c = true) (r : List Char) :
    (operator (c :: r)).text ≠ [] := by
  simp only [operator, splitOperator]
  split
  · simp [h]
  · split <;> simp [h]

theorem text_ne_nil (c : Char) (r : List Char) : (read c r).text ≠ [] := by
  unfold read
  split
  · next h => simp [word, splitWord, isWordChar, h]
  split
  · next h => exact numeral_text_ne_nil h r
  split
  · next h => exact operator_text_ne_nil h r
  split
  · unfold paren
    split
    · simp
    · split <;> simp
  split <;> simp

theorem length_rest_lt (c : Char) (r : List Char) : (read c r).rest.length < r.length + 1 := by
  have h := congrArg List.length (text_append_rest c r)
  have h' := List.length_pos_iff.2 (text_ne_nil c r)
  simp only [List.length_append, List.length_cons] at h
  omega

end Lexeme

end SmallMl
