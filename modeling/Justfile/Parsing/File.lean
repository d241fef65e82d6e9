import Justfile.Parsing.Expression

/-!
# The grammar of justfiles

Recipes with their bodies, aliases, assignments, settings, attributes and comments. The argument
`depth` of a rule bounds the nesting of the expressions in it.
-/

namespace Justfile.Parsing

open Justfile.Parsing.Parser

variable {ω : Type} [Listener ω]

/-- Whether a parameter is marked as exported. -/
def exportMark : Parser ω Bool :=
  Option.isSome <$> optional (word "$")

/-- A parameter without default. -/
def plainParameter : Parser ω Parameter :=
  traced "parameter" do
    let exported ← exportMark
    let n ← name
    let _ ← absent (peek (spread (word "=")))
    return ⟨exported, n, none⟩

/-- A parameter with a default. -/
def defaultParameter (depth : Nat) : Parser ω Parameter :=
  traced "default_val_parameter" do
    let exported ← exportMark
    let n ← name
    let _ ← spread (word "=")
    let e ← value depth
    return ⟨exported, n, some e⟩

/-- A parameter with or without default. -/
def anyParameter (depth : Nat) : Parser ω Parameter :=
  plainParameter <|> defaultParameter depth

/-- A parameter that takes the remaining arguments. -/
def variadicParameter (depth : Nat) : Parser ω Variadic :=
  traced "variadic"
    ((do
      let _ ← word "*"
      let p ← anyParameter depth
      return ⟨.star, p⟩) <|>
    (do
      let _ ← word "+"
      let p ← anyParameter depth
      return ⟨.plus, p⟩))

/-- A dependency: a name, or a name and arguments in parentheses. -/
def dependency (depth : Nat) : Parser ω Dependency :=
  traced "dependency"
    ((fun n => ⟨n, []⟩) <$> name <|>
    (do
      let _ ← word "("
      let n ← name
      let args ← many (spread (expression depth))
      let _ ← word ")"
      return ⟨n, args⟩))

/-- An interpolated expression. -/
def interpolation (depth : Nat) : Parser ω Fragment :=
  traced "interpolation" do
    let _ ← word "\x7b\x7b"
    let e ← spread (expression depth)
    let _ ← word "\x7d\x7d"
    return .interpolation e

/-- Four opening braces stand for two. -/
def doubledBraces : Parser ω Fragment :=
  (fun _ => .text "\x7b\x7b") <$> word "\x7b\x7b\x7b\x7b"

/-- The marks before a line. -/
def lineLead : Parser ω String :=
  traced "line_prefix" (word "@-" <|> word "-@" <|> word "@" <|> word "-")

/-- What ends a piece of plain text. -/
def textEnd (depth : Nat) : Parser ω Unit :=
  (fun _ => ()) <$> (doubledBraces : Parser ω Fragment) <|>
  (fun _ => ()) <$> interpolation depth <|>
  (fun _ => ()) <$> (lineEnd : Parser ω Datum)

/-- A piece of plain text, at least one character long. -/
def plainText (depth : Nat) : Parser ω Fragment :=
  (fun cs => .text (String.ofList cs)) <$>
    untilEnd (satisfy fun c => c != '\r' && c != '\n') (textEnd depth) 1

/-- A line of a recipe's body, from its lead on. -/
def line (depth : Nat) : Parser ω Line :=
  traced "line" do
    let lead ← optional lineLead
    let parts ← many1 (doubledBraces <|> interpolation depth <|> plainText depth)
    let _ ← lineEnd
    return ⟨lead, parts⟩

/-- A recipe's body: lines that all start with the indentation of the first. -/
def body (depth : Nat) : Parser ω (List Line) :=
  traced "body" do
    let steps ← peek (many1 indentation)
    many1 do
      let _ ← word (String.join steps)
      line depth

/-- Dependencies that run after the recipe. -/
def afterDependencies (depth : Nat) : Parser ω (List Dependency) := do
  let _ ← spaced (word "&&")
  many1 (spaced (dependency depth))

/-- A recipe. -/
def recipe (depth : Nat) : Parser ω Recipe :=
  traced "recipe" do
    let mute ← optional (spaced (word "@"))
    let n ← spaced name
    let plain ← many (spaced plainParameter)
    let defaulted ← many (spaced (defaultParameter depth))
    let variadic ← optional (spaced (variadicParameter depth))
    let _ ← spaced (word ":")
    let before ← many (spaced (dependency depth))
    let after ← optional (afterDependencies depth)
    let _ ← (fun _ => ()) <$> (lineEnd : Parser ω Datum) <|> (fun _ => ()) <$> blanks
    let lines ← optional (body depth)
    let r : Recipe := {
      echo := mute.isNone
      name := n
      parameters := plain ++ defaulted
      variadic := variadic
      before := before
      after := after.getD []
      body := lines.getD [] }
    if r.check matches .error _ then reject n
    let _ ← many newline
    return r

/-- An alias. -/
def aliasRule : Parser ω Declaration :=
  traced "alias" do
    let _ ← word "alias"
    let _ ← blanks
    let n ← name
    let _ ← spread (word ":=")
    let target ← name
    let _ ← lineEnd
    return .alias n target

/-- The name and the value of an assignment. -/
def assignment (depth : Nat) : Parser ω (String × Expr) :=
  tracedBy "assignment" (fun (n, e) => assignmentDatum n e) do
    let n ← spaced name
    let _ ← spread (word ":=")
    let e ← spaced (expression depth)
    let _ ← lineEnd
    return (n, e)

/-- An exported assignment. -/
def exportRule (depth : Nat) : Parser ω Declaration :=
  traced "export" do
    let _ ← word "export"
    let _ ← blanks
    let (n, e) ← assignment depth
    return .exported n e

/-- The value of a setting that is on or off. -/
def boolean : Parser ω Bool :=
  traced "boolean" do
    let _ ← spread (word ":=")
    (fun _ => true) <$> word "true" <|> (fun _ => false) <$> word "false"

/-- A list of text literals; a comma may follow the last one. -/
def stringList : Parser ω (List String) :=
  traced "listp" do
    let _ ← word "["
    let ss ← spread (sepBy stringLiteral (spread (word ",")))
    let _ ← spread (optional (word ","))
    let _ ← word "]"
    return ss

/-- The value of a setting that is on unless it is turned off. -/
def switchValue : Parser ω SettingValue :=
  (fun b => .flag (b.getD true)) <$> optional boolean

/-- The value of a setting that is a text. -/
def textValue : Parser ω SettingValue := do
  let _ ← spread (word ":=")
  .text <$> stringLiteral

/-- The value of a setting that is a list of texts. -/
def wordsValue : Parser ω SettingValue := do
  let _ ← spread (word ":=")
  .words <$> stringList

/-- A setting of a given name. -/
def settingNamed (n : String) (p : Parser ω SettingValue) : Parser ω Declaration := do
  let _ ← word "set"
  let _ ← blanks
  let n ← spaced (word n)
  let v ← spaced p
  return .setting n v

/-- A setting. The first name that fits is taken. -/
def setting : Parser ω Declaration :=
  traced "setting" do
    let d ← settingNamed "allow-duplicate-recipes" switchValue <|>
      settingNamed "dotenv-load" switchValue <|>
      settingNamed "export" switchValue <|>
      settingNamed "fallback" switchValue <|>
      settingNamed "ignore-comments" switchValue <|>
      settingNamed "positional-arguments" switchValue <|>
      settingNamed "windows-powershell" switchValue <|>
      settingNamed "tempdir" textValue <|>
      settingNamed "shell" wordsValue <|>
      settingNamed "windows-shell" wordsValue
    let _ ← lineEnd
    return d

/-- A line of attributes. -/
def attributeRow : Parser ω (List String) := do
  let _ ← spaced (word "[")
  let names ← spread (sepBy name (spread (word ",")))
  let _ ← spread (optional (word ","))
  let _ ← spaced (word "]")
  let _ ← lineEnd
  return names

/-- The attributes before an item. -/
def attributes : Parser ω (List String) :=
  tracedBy "attribute" attributesDatum (List.flatten <$> many attributeRow)

/-- What an item declares. -/
def declaration (depth : Nat) : Parser ω Declaration :=
  .recipe <$> recipe depth <|>
  aliasRule <|>
  (fun (n, e) => .assignment n e) <$> assignment depth <|>
  exportRule depth <|>
  setting <|>
  comment <|>
  .stray <$> lineEnd

/-- An item. -/
def item (depth : Nat) : Parser ω Item :=
  traced "item" do
    let names ← optional (spread attributes)
    let d ← declaration depth
    return ⟨names.getD [], d⟩

/-- A justfile. -/
def file (depth : Nat) : Parser ω (List Item) := do
  let items ← many (item depth)
  let _ ← many lineEnd
  let _ ← traced "eof" eof
  return items

end Justfile.Parsing
