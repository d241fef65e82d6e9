import Justfile.Shell.Function

/-!
# A sample justfile

A justfile that uses most of the language: settings, every kind of expression, and recipes with
attributes, parameters and dependencies of all kinds. Two of its recipes have names that differ in
a dash only.
-/

namespace Justfile.Survey

/-- The settings and variables of the sample. -/
def sampleHead : List String := [
  "",
  "set dotenv-load := true",
  "set export",
  "set positional-arguments",
  "set fallback := true",
  "set ignore-comments := true",
  "set allow-duplicate-recipes := true",
  "set tempdir := \"/tmp\"",
  "",
  "export PATHY := \"a\" / \"b\" / arch()",
  "NAME := env_var_or_default(\"USER\", \"anon\") + \"-\" + os()",
  "GREETING := if os_family() == \"unix\" \x7b \"hi\" \x7d else \x7b \"ho\" \x7d",
  "MATCHED := if NAME =~ \"^a.*\" \x7b uppercase(\"yes\") \x7d else \x7b lowercase(\"NO\") \x7d",
  "DIFF := if \"x\" != \"y\" \x7b `echo backtick` \x7d else \x7b \"same\" \x7d",
  "MULTI := \"\"\"",
  "  indented",
  "  string",
  "",
  "\"\"\"",
  "RAW := '''",
  "  raw",
  "  indented",
  "'''",
  "SHORT := \"escaped\\n\\t\\r\\\\\\\"quote\"",
  "RAW2 := 'single'",
  "DIVVY := / \"leading\" / NAME",
  "COND := if \"a\" == \"a\" \x7b \"t\" \x7d " ++
    "else if \"b\" == \"b\" \x7b \"u\" \x7d else \x7b \"v\" \x7d",
  "FLAT := \"no indent here\"",
  "BTICK := ```",
  "echo indented",
  "```",
  "CALL := join(\"a\", \"b\", \"c\")",
  "HASH := sha256(\"value\")",
  "FHASH := sha256_file(\"/dev/null\")",
  "UUIDV := uuid()",
  "QUOTED := quote(\"it's\")",
  "EXISTS := path_exists(\"/tmp\")",
  "ERRV := env_var(\"HOME\")",
  "JEXE := just_executable()",
  "JFILE := justfile()",
  "JDIR := justfile_directory()",
  "IDIR := invocation_directory()",
  "IDIRN := invocation_directory_native()",
  ""]

/-- The aliases of the sample, and recipes that depend on each other or are private. -/
def sampleRecipes : List String := [
  "alias b := build",
  "alias t := test",
  "",
  "# Comment before recipe becomes a docstring",
  "build target=\"debug\" $FLAGS=\"-O2\" *ARGS=\"extra\":",
  "  echo building \x7b\x7b target \x7d\x7d \x7b\x7b\x7b\x7bliteral braces\x7d\x7d",
  "  @-echo silent and tolerant \x7b\x7b NAME + \"!\" \x7d\x7d",
  "  -@echo tolerant silent",
  "  just build again",
  "  # inline comment inside recipe",
  "  echo \x7b\x7b if target == \"debug\" \x7b \"dbg\" \x7d else \x7b \"rel\" \x7d \x7d\x7d",
  "",
  "# Another docstring",
  "@test name +CASES: (build \"release\") (prep name) && (cleanup \"done\") cleanup",
  "  echo testing \x7b\x7b name \x7d\x7d \x7b\x7b CASES \x7d\x7d",
  "",
  "_private:",
  "  echo hidden",
  "",
  "[private]",
  "secret:",
  "  echo secret",
  "",
  "prep thing:",
  "  echo prep \x7b\x7b thing \x7d\x7d",
  "",
  "cleanup msg=\"bye\":",
  "  echo \x7b\x7b msg \x7d\x7d",
  ""]

/-- Recipes of the sample for platforms, with interpreters, and with all kinds of parameters. -/
def sampleVariants : List String := [
  "[linux]",
  "platform:",
  "  echo linux",
  "",
  "[macos]",
  "platform:",
  "  echo macos",
  "",
  "[unix]",
  "platform:",
  "  echo unix",
  "",
  "[no-cd, no-exit-message]",
  "stay arg:",
  "  just --help",
  "  -echo \x7b\x7b arg \x7d\x7d",
  "",
  "shebang:",
  "  #!/bin/sh",
  "  echo shebang \x7b\x7b NAME \x7d\x7d",
  "  echo line2",
  "",
  "@quiet_shebang:",
  "  #!/bin/sh",
  "  echo plain body only",
  "",
  "[no-exit-message]",
  "plain_shebang:",
  "  #!/bin/sh",
  "  echo nothing fancy",
  "",
  "novar a b c:",
  "  echo \x7b\x7b a \x7d\x7d \x7b\x7b b \x7d\x7d \x7b\x7b c \x7d\x7d",
  "",
  "withplus +ARGS:",
  "  echo \x7b\x7b ARGS \x7d\x7d",
  "",
  "withstar $p *ARGS:",
  "  echo \x7b\x7b p \x7d\x7d \x7b\x7b ARGS \x7d\x7d",
  "",
  "dashed-name:",
  "  echo dash",
  "",
  "dashed_name:",
  "  echo under",
  ""]

/-- The text of the sample. -/
def sample : String :=
  Shell.lines (sampleHead ++ sampleRecipes ++ sampleVariants)

end Justfile.Survey
