import SmallMl.Number.Layout
import SmallMl.Text.Hex

/-!
# JSON

A JSON value and its written form: every member of a list or record on a line of its own, two blanks
for each level of nesting, and a newline at the end.  Empty lists and records stay on one line.
Records are written in the order in which their fields are given.

In texts, the quote, the backslash and the control characters are escaped, and so are the three
characters with a meaning in HTML and the two line separators of Unicode.

Not every value can be written.  JSON has no numbers that are not finite, and lists and records may
be nested `maxDepth` levels deep.  `Json.encode` refuses a value for the first of its parts, in the
order of writing, that breaks one of these rules.
-/

namespace SmallMl.Json

inductive Value
  | null
  | bool (b : Bool)
  | int (n : Int)
  | float (v : Binary64)
  | text (s : String)
  | list (items : List Value)
  | record (fields : List (String × Value))

def escape (c : Char) : List Char :=
  match c.toNat with
  | 8 => ['\\', 'b']
  | 9 => ['\\', 't']
  | 10 => ['\\', 'n']
  | 12 => ['\\', 'f']
  | 13 => ['\\', 'r']
  | 0x22 => ['\\', '"']
  | 0x5C => ['\\', '\\']
  | n =>
    if n < 0x20 || n == 0x26 || n == 0x3C || n == 0x3E || n == 0x2028 || n == 0x2029 then
      '\\' :: 'u' :: Hex.digits 4 n
    else [c]

def quote (s : String) : List Char := '"' :: s.toList.flatMap escape ++ ['"']

def newline (d : Nat) : List Char := '\n' :: List.replicate (2 * d) ' '

mutual

def write (d : Nat) : Value → List Char
  | .null => ['n', 'u', 'l', 'l']
  | .bool b => if b then ['t', 'r', 'u', 'e'] else ['f', 'a', 'l', 's', 'e']
  | .int n => (Digits.intText n).toList
  | .float v => Layout.json.write v
  | .text s => quote s
  | .list [] => ['[', ']']
  | .list (v :: vs) =>
    '[' :: newline (d + 1) ++ write (d + 1) v ++ writeItems (d + 1) vs ++ newline d ++ [']']
  | .record [] => ['\x7b', '\x7d']
  | .record ((k, v) :: fs) =>
    '\x7b' :: newline (d + 1) ++ quote k ++ [':', ' '] ++ write (d + 1) v ++
      writeFields (d + 1) fs ++ newline d ++ ['\x7d']

def writeItems (d : Nat) : List Value → List Char
  | [] => []
  | v :: vs => ',' :: newline d ++ write d v ++ writeItems d vs

def writeFields (d : Nat) : List (String × Value) → List Char
  | [] => []
  | (k, v) :: fs => ',' :: newline d ++ quote k ++ [':', ' '] ++ write d v ++ writeFields d fs

end

/-! ### Writing in front of a text

Putting the parts together copies each of them once for every level it is nested in.  Writing a
value in front of a text copies nothing.
-/

mutual

/-- The written form of a value that stands `d` levels deep, in front of the text `k`. -/
def writeBefore (d : Nat) : Value → List Char → List Char
  | .null, k => write d .null ++ k
  | .bool b, k => write d (.bool b) ++ k
  | .int n, k => write d (.int n) ++ k
  | .float v, k => write d (.float v) ++ k
  | .text s, k => write d (.text s) ++ k
  | .list [], k => '[' :: ']' :: k
  | .list (v :: vs), k =>
    '[' :: (newline (d + 1) ++
      writeBefore (d + 1) v (writeItemsBefore (d + 1) vs (newline d ++ ']' :: k)))
  | .record [], k => '\x7b' :: '\x7d' :: k
  | .record ((key, v) :: fs), k =>
    '\x7b' :: (newline (d + 1) ++ (quote key ++ ':' :: ' ' ::
      writeBefore (d + 1) v (writeFieldsBefore (d + 1) fs (newline d ++ '\x7d' :: k))))

def writeItemsBefore (d : Nat) : List Value → List Char → List Char
  | [], k => k
  | v :: vs, k => ',' :: (newline d ++ writeBefore d v (writeItemsBefore d vs k))

def writeFieldsBefore (d : Nat) : List (String × Value) → List Char → List Char
  | [], k => k
  | (key, v) :: fs, k =>
    ',' :: (newline d ++ (quote key ++ ':' :: ' ' :: writeBefore d v (writeFieldsBefore d fs k)))

end

mutual

/-- **Nothing is added**: a value in front of a text is its written form, then the text. -/
theorem writeBefore_eq (d : Nat) : ∀ v k, writeBefore d v k = write d v ++ k
  | .null, _ => by rw [writeBefore]
  | .bool _, _ => by rw [writeBefore]
  | .int _, _ => by rw [writeBefore]
  | .float _, _ => by rw [writeBefore]
  | .text _, _ => by rw [writeBefore]
  | .list [], _ => by simp [writeBefore, write]
  | .list (v :: vs), k => by
    simp [writeBefore, write, writeBefore_eq (d + 1) v, writeItemsBefore_eq (d + 1) vs]
  | .record [], _ => by simp [writeBefore, write]
  | .record ((key, v) :: fs), k => by
    simp [writeBefore, write, writeBefore_eq (d + 1) v, writeFieldsBefore_eq (d + 1) fs]

theorem writeItemsBefore_eq (d : Nat) :
    ∀ vs k, writeItemsBefore d vs k = writeItems d vs ++ k
  | [], _ => rfl
  | v :: vs, k => by
    simp [writeItemsBefore, writeItems, writeBefore_eq d v, writeItemsBefore_eq d vs]

theorem writeFieldsBefore_eq (d : Nat) :
    ∀ fs k, writeFieldsBefore d fs k = writeFields d fs ++ k
  | [], _ => rfl
  | (key, v) :: fs, k => by
    simp [writeFieldsBefore, writeFields, writeBefore_eq d v, writeFieldsBefore_eq d fs]

end

/-! ### What can be written -/

inductive Refusal
  /-- A number that JSON cannot express. -/
  | notFinite (v : Binary64)
  | tooDeep
  deriving DecidableEq

namespace Refusal

def message : Refusal → String
  | notFinite v => String.join ["json: unsupported value: ", v.specialName]
  | tooDeep => "exceeded max depth"

end Refusal

/-- The number of levels that lists and records may be nested. -/
def maxDepth : Nat := 10000

mutual

/-- Why a value that stands `d` levels deep cannot be written; none if it can. -/
def refusal? (d : Nat) : Value → Option Refusal
  | .float v => if v.isFinite then none else some (.notFinite v)
  | .list vs => if d < maxDepth then itemRefusal? (d + 1) vs else some .tooDeep
  | .record fs => if d < maxDepth then fieldRefusal? (d + 1) fs else some .tooDeep
  | _ => none

def itemRefusal? (d : Nat) : List Value → Option Refusal
  | [] => none
  | v :: vs => (refusal? d v).or (itemRefusal? d vs)

def fieldRefusal? (d : Nat) : List (String × Value) → Option Refusal
  | [] => none
  | (_, v) :: fs => (refusal? d v).or (fieldRefusal? d fs)

end

def encode (v : Value) : Except Refusal String :=
  match refusal? 0 v with
  | some r => .error r
  | none => .ok (String.ofList (writeBefore 0 v ['\n']))

theorem encode_eq (v : Value) :
    encode v = match refusal? 0 v with
      | some r => .error r
      | none => .ok (String.ofList (write 0 v ++ ['\n'])) := by
  simp only [encode, writeBefore_eq]

end SmallMl.Json
