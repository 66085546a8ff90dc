/-!
# Reading bytes as characters

Source files are byte strings.  `Utf8.decode` reads every byte string: well-formed UTF-8 gives its
characters, and each byte that begins no well-formed character gives one replacement character
`U+FFFD` on its own.  A sequence is well-formed when its lead byte allows its length and its second
byte lies in the bounds of the lead byte; this rules out overlong forms, surrogates and code points
above `U+10FFFF`.

* `Utf8.lead`: the first character of a nonempty byte string and the number of further bytes that
  belong to it.
* `Utf8.decode_cons`: decoding is `lead`, then decoding of what is left.
-/

namespace SmallMl.Utf8

/-- The character that stands for a byte which begins no well-formed character. -/
def replacement : Char := '\uFFFD'

def isTail (b : UInt8) : Bool := 0x80 ≤ b && b ≤ 0xBF

/-- The second byte `b` is one that the lead byte `a` of a sequence of three or four allows. -/
def allows (a b : UInt8) : Bool :=
  if a = 0xE0 then 0xA0 ≤ b && b ≤ 0xBF
  else if a = 0xED then 0x80 ≤ b && b ≤ 0x9F
  else if a = 0xF0 then 0x90 ≤ b && b ≤ 0xBF
  else if a = 0xF4 then 0x80 ≤ b && b ≤ 0x8F
  else isTail b

def payload (b : UInt8) : Nat := b.toNat % 64

/-- The character at the front of the byte string `a :: r`, and how many bytes of `r` it uses. -/
def lead (a : UInt8) (r : List UInt8) : Char × Nat :=
  if a < 0x80 then (Char.ofNat a.toNat, 0)
  else if 0xC2 ≤ a && a ≤ 0xDF then
    match r with
    | b :: _ =>
      if isTail b then (Char.ofNat (a.toNat % 32 * 64 + payload b), 1) else (replacement, 0)
    | [] => (replacement, 0)
  else if 0xE0 ≤ a && a ≤ 0xEF then
    match r with
    | b :: c :: _ =>
      if allows a b && isTail c then
        (Char.ofNat ((a.toNat % 16 * 64 + payload b) * 64 + payload c), 2)
      else (replacement, 0)
    | _ => (replacement, 0)
  else if 0xF0 ≤ a && a ≤ 0xF4 then
    match r with
    | b :: c :: d :: _ =>
      if allows a b && isTail c && isTail d then
        (Char.ofNat (((a.toNat % 8 * 64 + payload b) * 64 + payload c) * 64 + payload d), 3)
      else (replacement, 0)
    | _ => (replacement, 0)
  else (replacement, 0)

def decode (bytes : List UInt8) : List Char :=
  match bytes with
  | [] => []
  | a :: r => (lead a r).1 :: decode (r.drop (lead a r).2)
termination_by bytes.length
decreasing_by
  simp only [List.length_drop, List.length_cons]
  omega

@[simp] theorem decode_nil : decode [] = [] := by rw [decode]

theorem decode_cons (a : UInt8) (r : List UInt8) :
    decode (a :: r) = (lead a r).1 :: decode (r.drop (lead a r).2) := by rw [decode]

def encode (s : String) : List UInt8 := s.toUTF8.toList

end SmallMl.Utf8
