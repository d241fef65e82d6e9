/-!
# Blank characters

White space as the language of justfiles understands it: the Unicode blanks together with the
separators U+001C to U+001F. Stripping and indentation are defined through it.

* `isBlank`: the class of blank characters.
* `strip`: a text without its leading and trailing blanks.
-/

namespace Justfile.Text

/-- The blank characters: U+0009 to U+000D, U+001C to U+0020, U+0085, U+00A0 and the Unicode
space and line separators. -/
def isBlank (c : Char) : Bool :=
  let n := c.toNat
  (9 ≤ n && n ≤ 13) || (28 ≤ n && n ≤ 32) || n == 0x85 || n == 0xA0 || n == 0x1680 ||
    (0x2000 ≤ n && n ≤ 0x200A) || n == 0x2028 || n == 0x2029 || n == 0x202F || n == 0x205F ||
    n == 0x3000

/-- A text without its trailing blanks. -/
def stripRight (cs : List Char) : List Char :=
  (cs.reverse.dropWhile isBlank).reverse

/-- A text without its leading and trailing blanks. -/
def strip (cs : List Char) : List Char :=
  stripRight (cs.dropWhile isBlank)

/-- `strip` on strings. -/
def stripString (s : String) : String :=
  String.ofList (strip s.toList)

end Justfile.Text
