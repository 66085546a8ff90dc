import SmallMl.Number.Binary64
import SmallMl.Operator
import SmallMl.Source.Location

/-!
# Tokens

A token is what it is (`Kind`), the stretch of text it covers and that text itself.  The kind of a
literal carries the decoded value, the kind of an operator the operator.

Words are looked up in `Kind.reserved` as a whole; a word that is not reserved is an identifier.
-/

namespace SmallMl

inductive Kind
  | eof
  | comment
  | bool (value : Bool)
  | int (value : Nat)
  | float (value : Binary64)
  | ident
  | operator (op : Operator)
  | ifWord
  | thenWord
  | elseWord
  | letWord
  | inWord
  | recWord
  | funWord
  | notWord
  /-- One of the three names of the array constructor. -/
  | arrayMake
  | inputWord
  | outputWord
  | lparen
  | rparen
  | comma
  | dot
  | semi
  | colon
  | arrow
  | leftArrow
  deriving DecidableEq

namespace Kind

/-- The name under which a kind is listed; the spelling, for keywords and punctuation. -/
def name : Kind → String
  | eof => "EOF"
  | comment => "COMMENT"
  | bool _ => "BOOL"
  | int _ => "INT"
  | float _ => "FLOAT"
  | ident => "IDENT"
  | operator _ => "OP"
  | ifWord => "if"
  | thenWord => "then"
  | elseWord => "else"
  | letWord => "let"
  | inWord => "in"
  | recWord => "rec"
  | funWord => "fun"
  | notWord => "not"
  | arrayMake => "Array.make"
  | inputWord => "input"
  | outputWord => "output"
  | lparen => "("
  | rparen => ")"
  | comma => ","
  | dot => "."
  | semi => ";"
  | colon => ":"
  | arrow => "->"
  | leftArrow => "<-"

def isKeyword : Kind → Bool
  | ifWord | thenWord | elseWord | letWord | inWord | recWord | funWord | notWord | arrayMake
  | inputWord | outputWord => true
  | _ => false

def isLiteral : Kind → Bool
  | bool _ | int _ | float _ => true
  | _ => false

def isPunctuation : Kind → Bool
  | lparen | rparen | comma | dot | semi | colon | arrow | leftArrow => true
  | _ => false

def isEof : Kind → Bool
  | eof => true
  | _ => false

def isComment : Kind → Bool
  | comment => true
  | _ => false

def className (k : Kind) : String :=
  if k.isKeyword then "keyword"
  else if k.isLiteral then "literal"
  else if k.isPunctuation then "punct"
  else if k.isEof then "eof"
  else "-"

/-- The kinds in the order of their codes.  Kinds with a value appear with `b`, with zero and with
the first operator. -/
def all (b : Bool) : List Kind :=
  [eof, comment, bool b, int 0, float ⟨0⟩, ident, operator .plus, ifWord, thenWord, elseWord,
    letWord, inWord, recWord, funWord, notWord, arrayMake, inputWord, outputWord, lparen, rparen,
    comma, dot, semi, colon, arrow, leftArrow]

def ofCode? (n : Nat) (b : Bool) : Option Kind := (all b)[n]?

def unknownName (n : Nat) : String := "kind(" ++ Digits.text n ++ ")"

/-- The words with a meaning of their own. -/
def reserved : List (List Char × Kind) :=
  [(['i', 'f'], ifWord),
   (['t', 'h', 'e', 'n'], thenWord),
   (['e', 'l', 's', 'e'], elseWord),
   (['l', 'e', 't'], letWord),
   (['i', 'n'], inWord),
   (['r', 'e', 'c'], recWord),
   (['f', 'u', 'n'], funWord),
   (['n', 'o', 't'], notWord),
   (['i', 'n', 'p', 'u', 't'], inputWord),
   (['o', 'u', 't', 'p', 'u', 't'], outputWord),
   (['t', 'r', 'u', 'e'], bool true),
   (['f', 'a', 'l', 's', 'e'], bool false),
   (['c', 'r', 'e', 'a', 't', 'e', '_', 'a', 'r', 'r', 'a', 'y'], arrayMake),
   (['A', 'r', 'r', 'a', 'y', '.', 'c', 'r', 'e', 'a', 't', 'e'], arrayMake),
   (['A', 'r', 'r', 'a', 'y', '.', 'm', 'a', 'k', 'e'], arrayMake)]
  ++ Operator.words.map fun o => (o.spelling, operator o)

def ofWord (w : List Char) : Kind := (reserved.lookup w).getD ident

/-- The characters, other than the opening parenthesis, that are a token of their own. -/
def ofMark? (c : Char) : Option Kind :=
  match c with
  | ')' => some rparen
  | ',' => some comma
  | '.' => some dot
  | ';' => some semi
  | ':' => some colon
  | _ => none

end Kind

structure Token where
  kind : Kind
  range : Range
  /-- The characters that the token covers. -/
  lit : List Char
  deriving DecidableEq

namespace Token

/-- The canonical spelling: keywords and punctuation by their name, everything else as written. -/
def spelling (t : Token) : String :=
  match t.kind with
  | .ident | .operator _ | .int _ | .float _ | .comment | .arrayMake => String.ofList t.lit
  | .bool b => if b then "true" else "false"
  | k => k.name

def isEof (t : Token) : Bool := t.kind.isEof

def isComment (t : Token) : Bool := t.kind.isComment

theorem isEof_of_isComment {t : Token} (h : t.isComment = true) : t.isEof = false := by
  obtain ⟨k, r, l⟩ := t
  cases k <;> first | rfl | exact absurd h Bool.false_ne_true

end Token

end SmallMl
