/-!
# Literals on one line

The token table shows each literal between double quotes on a single line: newline, tab, carriage
return, backslash and double quote are written with a backslash, everything else stands for itself.
`Escaped.unescape` undoes the escapes from left to right, and `Escaped.unescape_escape` says that
nothing is lost.
-/

namespace SmallMl.Escaped

def escapeChar (c : Char) : List Char :=
  if c = '\n' then ['\\', 'n']
  else if c = '\t' then ['\\', 't']
  else if c = '\r' then ['\\', 'r']
  else if c = '\\' then ['\\', '\\']
  else if c = '"' then ['\\', '"']
  else [c]

def escape (cs : List Char) : List Char := cs.flatMap escapeChar

/-- The literal as it is shown, with its quotes. -/
def literal (cs : List Char) : List Char := '"' :: escape cs ++ ['"']

def unescapeLetter (c : Char) : Char :=
  if c = 'n' then '\n' else if c = 't' then '\t' else if c = 'r' then '\r' else c

def unescape : List Char → List Char
  | [] => []
  | [c] => [c]
  | c :: d :: r => if c = '\\' then unescapeLetter d :: unescape r else c :: unescape (d :: r)

theorem unescape_escapeChar_append (c : Char) (r : List Char) :
    unescape (escapeChar c ++ r) = c :: unescape r := by
  by_cases h₁ : c = '\n'
  · subst h₁; simp [escapeChar, unescape, unescapeLetter]
  by_cases h₂ : c = '\t'
  · subst h₂; simp [escapeChar, unescape, unescapeLetter]
  by_cases h₃ : c = '\r'
  · subst h₃; simp [escapeChar, unescape, unescapeLetter]
  by_cases h₄ : c = '\\'
  · subst h₄; simp [escapeChar, unescape, unescapeLetter]
  by_cases h₅ : c = '"'
  · subst h₅; simp [escapeChar, unescape, unescapeLetter]
  -- the character stands for itself
  cases r with
  | nil => simp [escapeChar, unescape, h₁, h₂, h₃, h₄, h₅]
  | cons d r => simp [escapeChar, unescape, h₁, h₂, h₃, h₄, h₅]

/-- **Escaping loses nothing.** -/
theorem unescape_escape : ∀ cs, unescape (escape cs) = cs := by
  intro cs
  induction cs with
  | nil => rfl
  | cons c cs ih =>
    have h : escape (c :: cs) = escapeChar c ++ escape cs := rfl
    rw [h, unescape_escapeChar_append, ih]

end SmallMl.Escaped
