import Justfile.Failure

/-!
# Shell words

A script consists of words that the shell reads after removing quotes. A `Word` says what a word
means: a literal text, the value of a variable, the output of a call or a command, or several of
these one after the other. `Word.text` writes it with all the quotes that this takes.

* `quote`: a text between apostrophes or double quotes.
* `Word.text`: a word as it stands in a script.
* `Word.bareText`: the same without the quotes around its parts.
-/

namespace Justfile.Shell

/-- The other one of the two quotes. -/
def otherQuote (q : Char) : Char :=
  if q = '\'' then '"' else '\''

/-- A character between two quotes `q`. A quote inside is written by closing the text, putting the
quote between the other quotes, and opening the text again. -/
def quotedChar (q c : Char) : List Char :=
  if c = q then [q, otherQuote q, q, otherQuote q, q] else [c]

/-- A text between two quotes `q`. -/
def quoteChars (q : Char) (s : List Char) : List Char :=
  q :: (s.flatMap (quotedChar q) ++ [q])

/-- A string between apostrophes. -/
def quote (s : String) : String :=
  String.ofList (quoteChars '\'' s.toList)

/-- A string between the quotes that `mark` asks for. -/
def quoteBy (mark s : String) : Except Failure String :=
  match mark.toList with
  | ['\''] => pure (String.ofList (quoteChars '\'' s.toList))
  | ['"'] => pure (String.ofList (quoteChars '"' s.toList))
  | _ => throw .badQuote

/-- The meaning of a shell word. -/
inductive Word where
  /-- A literal text. -/
  | literal (s : String)
  /-- The slash between two paths. -/
  | slash
  /-- The value of a shell variable. -/
  | valueOf (name : String)
  /-- The output of the function of a conditional. -/
  | test (name : String)
  /-- The output of a function called with arguments. -/
  | call (name : String) (args : List Word)
  /-- The output of a command that the default shell runs. -/
  | command (s : String)
  /-- The path of the script itself. -/
  | self
  /-- The path of the script itself, seen from its own directory. -/
  | selfHere
  /-- Two parts of a word, one after the other. -/
  | append (left right : Word)

namespace Word

/-- A reference to the value of a variable. -/
def reference (name : String) : List Char :=
  '$' :: '{' :: (name.toList ++ ['}'])

/-- A command substitution. -/
def substitution (inside : List Char) : List Char :=
  '"' :: '$' :: '(' :: (inside ++ [')', '"'])

/-- The call of the default shell on a command, with the message if it fails. -/
def shellCall (command : List Char) : List Char :=
  "env \"${DEFAULT_SHELL}\" ${DEFAULT_SHELL_ARGS} ".toList ++ command ++
    " || backtick_error".toList

/-- The path of the script itself, seen from its own directory. -/
def selfHereChars : List Char :=
  "\"./$(basename \"${0}\")\"".toList

mutual

/-- A word as it stands in a script. -/
def chars : Word → List Char
  | .literal s => quoteChars '\'' s.toList
  | .slash => ['\'', '/', '\'']
  | .valueOf name => quoteChars '"' (reference name)
  | .test name => quoteChars '"' ('$' :: '(' :: (name.toList ++ [')']))
  | .call name args => substitution (name.toList ++ argChars args)
  | .command s => substitution (shellCall (quoteChars '\'' s.toList))
  | .self => '"' :: (reference "0" ++ ['"'])
  | .selfHere => selfHereChars
  | .append left right => left.chars ++ right.chars

/-- The arguments of a call, each after a blank. -/
def argChars : List Word → List Char
  | [] => []
  | w :: rest => ' ' :: (w.chars ++ argChars rest)

end

/-- A word without the quotes around its literals, variables and conditionals. -/
def bareChars : Word → List Char
  | .literal s => s.toList
  | .valueOf name => reference name
  | .test name => '$' :: '(' :: (name.toList ++ [')'])
  | .command s => substitution (shellCall s.toList)
  | .append left right => left.bareChars ++ right.bareChars
  | w => w.chars

/-- A word as it stands in a script. -/
def text (w : Word) : String :=
  String.ofList w.chars

/-- A word without the quotes around its parts. -/
def bareText (w : Word) : String :=
  String.ofList w.bareChars

end Word

/-- Words as the arguments of a call, each after a blank. -/
def argText (args : List Word) : String :=
  String.ofList (Word.argChars args)

/-- Words one after the other as a single one. -/
def joinText (parts : List Word) : String :=
  String.join (parts.map Word.text)

end Justfile.Shell
