import Justfile.Parsing.Parser
import Justfile.Text.Indent
import Justfile.Tree.Item

/-!
# Lexemes of a justfile

Blanks, line ends, comments, names, and the four kinds of text literals.
-/

namespace Justfile.Parsing

open Justfile.Parsing.Parser

variable {ω α : Type} [Listener ω]

/-- Blanks, tabulators and line ends. -/
def blanks : Parser ω (List Char) :=
  span Text.isBlank Text.isBlank

/-- Blanks that do not end a line. -/
def isSpace (c : Char) : Bool :=
  c == ' ' || c == '\t'

/-- Blanks and tabulators on one line. -/
def spaces : Parser ω (List Char) :=
  span isSpace isSpace

/-- A parser with any blanks around it. -/
def spread (p : Parser ω α) : Parser ω α := do
  let _ ← optional blanks
  let a ← p
  let _ ← optional blanks
  return a

/-- A parser with blanks of the same line around it. -/
def spaced (p : Parser ω α) : Parser ω α := do
  let _ ← optional spaces
  let a ← p
  let _ ← optional spaces
  return a

/-- Any character. -/
def anyChar : Parser ω Char :=
  satisfy fun _ => true

/-- A line end: a line feed, with or without a carriage return before it. -/
def newline : Parser ω String :=
  traced "newline" (word "\n" <|> word "\r\n")

/-- A comment up to the end of its line. The first character after the number sign is any but an
exclamation mark. -/
def comment : Parser ω Declaration :=
  traced "comment" do
    let _ ← spaced (word "#")
    let first ← satisfy (· != '!')
    let others ← untilEnd anyChar newline 0
    return .comment (String.ofList (first :: others))

/-- The end of a line, with a comment before it or more line ends after it. -/
def lineEnd : Parser ω Datum :=
  traced "eol"
    ((do
      let _ ← comment
      let s ← newline
      return toDatum s)
    <|> toDatum <$> many1 newline)

/-- One step of indentation. -/
def indentation : Parser ω String :=
  traced "indent" (word "    " <|> word "  " <|> word "\t")

/-- The characters a name can start with. -/
def isNameStart (c : Char) : Bool :=
  c.isAlpha || c == '_'

/-- The characters a name can go on with. -/
def isNameRest (c : Char) : Bool :=
  c.isAlphanum || c == '_' || c == '-'

/-- A name. -/
def name : Parser ω String :=
  traced "name" (String.ofList <$> span isNameStart isNameRest)

/-- The text between two marks. -/
def between (mark : String) : Parser ω (List Char) := do
  let _ ← word mark
  let cs ← untilEnd anyChar (word mark) 0
  let _ ← word mark
  return cs

/-- An escape in a text literal. -/
def escape : Parser ω Char :=
  (fun _ => '\\') <$> word "\\\\" <|>
  (fun _ => '"') <$> word "\\\"" <|>
  (fun _ => '\n') <$> word "\\n" <|>
  (fun _ => '\r') <$> word "\\r" <|>
  (fun _ => '\t') <$> word "\\t"

/-- The text between two marks, with escapes. -/
def cookedBetween (mark : String) : Parser ω (List Char) := do
  let _ ← word mark
  let cs ← untilEnd (escape <|> anyChar) (word mark) 0
  let _ ← word mark
  return cs

/-- A text literal. -/
def stringLiteral : Parser ω String :=
  traced "string"
    (traced "indented string"
      ((fun cs => String.ofList (Text.dedent cs)) <$> cookedBetween "\"\"\"") <|>
    traced "STRING" (String.ofList <$> cookedBetween "\"") <|>
    traced "raw_string" ((fun cs => String.ofList (Text.dedent cs)) <$> between "'''") <|>
    traced "raw_string" (String.ofList <$> between "'"))

/-- A command over several lines. -/
def indentedBacktick : Parser ω Expr :=
  traced "indent backtick"
    ((fun cs => .backtick (String.ofList (Text.dedent cs))) <$> between "```")

/-- A command. -/
def backtick : Parser ω Expr :=
  traced "backtick" ((fun cs => .backtick (String.ofList cs)) <$> between "`")

end Justfile.Parsing
