/-!
# White space around a line

A line typed at a prompt is trimmed of Unicode white space: the five ASCII controls from tab to
carriage return, the blank, next line, the no-break space and the space characters of the general
punctuation, Ogham and CJK blocks.  This is wider than the four characters that separate tokens.
-/

namespace SmallMl.Blank

def isSpace (c : Char) : Bool :=
  let n := c.toNat
  (9 ≤ n && n ≤ 13) || n == 0x20 || n == 0x85 || n == 0xA0 || n == 0x1680 ||
    (0x2000 ≤ n && n ≤ 0x200A) || n == 0x2028 || n == 0x2029 || n == 0x202F || n == 0x205F ||
    n == 0x3000

def trim (cs : List Char) : List Char :=
  ((cs.dropWhile isSpace).reverse.dropWhile isSpace).reverse

def isBlank (cs : List Char) : Bool := cs.all isSpace

end SmallMl.Blank
