import Justfile.Text.Hex
import Justfile.Text.Printable

/-!
# Quoted and escaped text

Two ways to write a text on one line. `quoted` puts it between quotes and shows printable
characters as themselves; which quote is used depends on the quotes inside. `escaped` uses no
quotes and leaves ASCII characters only.

* `quoted`: the text between quotes, as syntax trees are shown.
* `escaped`: the text in printable ASCII, as default values are shown.
-/

namespace Justfile.Text

/-- A character by its code point, in the shortest of the forms `\xNN`, `\uNNNN` and
`\UNNNNNNNN`. -/
def codeEscape (c : Char) : List Char :=
  let n := c.toNat
  if n < 0x100 then '\\' :: 'x' :: hex 2 n
  else if n < 0x10000 then '\\' :: 'u' :: hex 4 n
  else '\\' :: 'U' :: hex 8 n

/-- The escapes of line feed, carriage return and tabulator. -/
def shortEscape? (c : Char) : Option Char :=
  if c = '\n' then some 'n' else if c = '\r' then some 'r' else if c = '\t' then some 't' else none

/-- A character inside a text that is quoted by `quote`. -/
def quotedChar (quote c : Char) : List Char :=
  if c = quote || c = '\\' then ['\\', c]
  else match shortEscape? c with
    | some e => ['\\', e]
    | none => if isPrintable c then [c] else codeEscape c

/-- The quote for a text: the apostrophe, unless the text has one and no double quote. -/
def quoteFor (s : List Char) : Char :=
  if s.contains '\'' && !s.contains '"' then '"' else '\''

/-- A text between quotes. -/
def quoted (s : List Char) : List Char :=
  let quote := quoteFor s
  quote :: (s.flatMap (quotedChar quote) ++ [quote])

/-- `quoted` on strings. -/
def quotedString (s : String) : String :=
  String.ofList (quoted s.toList)

/-- A character of an escaped text. -/
def escapedChar (c : Char) : List Char :=
  if c = '\\' then ['\\', '\\']
  else match shortEscape? c with
    | some e => ['\\', e]
    | none => if 0x20 ≤ c.toNat && c.toNat < 0x7F then [c] else codeEscape c

/-- A text written with printable ASCII characters; quotes stay as they are. -/
def escaped (s : List Char) : List Char :=
  s.flatMap escapedChar

end Justfile.Text
