import Justfile.Command.Files
import Justfile.Command.Options
import Justfile.Compile

/-!
# Commands

Two commands: one compiles a justfile to a script, the other shows the items of a justfile. A run
is a function of the arguments, the standard input and the files that are there.

* `Command.compileRun`: compiles a justfile.
* `Command.showRun`: shows the items of a justfile.
* `Invocation.paths`, `Invocation.readsInput`: what the compiler looks at.
-/

namespace Justfile.Command

/-- What a command is called with. Besides the directory it is called in, it sees the files of
`folders`. -/
structure Invocation where
  program : String
  args : List String
  stdin : String
  files : Files
  folders : List String
  edition : Edition

/-- Why a command ended early. -/
inductive Fault where
  | refused (f : Failure)
  | path (f : PathFault)

/-- What a command leaves behind. -/
structure Result where
  exit : Nat
  stdout : String
  stderr : String
  files : Files
  fault : Option Fault

/-- The options that commands know. -/
inductive Key where
  | help
  | infile
  | outfile
  | verbose
  | version
  deriving DecidableEq

/-- The name of a program without the path before it. -/
def Invocation.name (i : Invocation) : String :=
  Script.baseName i.program

/-- The option that asks for help. -/
def helpOption : Spec Key :=
  ⟨.help, ["-h", "--help"], none, "show this help message and exit"⟩

/-- The option that asks for the trace of the parser. -/
def verboseOption : Spec Key :=
  ⟨.verbose, ["-v", "--verbose"], none, "Verbose parser output"⟩

/-- The options of the compiler. -/
def compileOptions : Options Key := [
  helpOption,
  ⟨.infile, ["-i", "--infile"], some "INFILE", "Input Justfile path"⟩,
  ⟨.outfile, ["-o", "--outfile"], some "OUTFILE", "Output shell script path"⟩,
  verboseOption,
  ⟨.version, ["--version"], none, "Print version string"⟩]

/-- The options of the command that shows items. -/
def showOptions : Options Key := [
  helpOption,
  ⟨.infile, ["-i", "--infile"], some "INFILE", "Input justfile path"⟩,
  verboseOption]

/-- The last value that was chosen for an option. -/
def lastValue? (chosen : List (Options.Choice Key)) (key : Key) : Option String :=
  (chosen.reverse.find? fun c => c.1 == key).bind (·.2)

/-- Whether an option was chosen. -/
def isChosen (chosen : List (Options.Choice Key)) (key : Key) : Bool :=
  chosen.any fun c => c.1 == key

/-- A run that only prints. -/
def Invocation.printed (i : Invocation) (stdout : String) : Result :=
  ⟨0, stdout, "", i.files, none⟩

/-- A run that ends after a wrong argument. -/
def Invocation.misused (i : Invocation) (os : Options Key) (f : UsageFault) : Result :=
  ⟨2, "", os.usage i.name ++ "\n" ++ i.name ++ ": error: " ++ f.message ++ "\n", i.files, none⟩

/-- A run on the chosen options, unless the arguments are wrong or ask for help. -/
def Invocation.withOptions (i : Invocation) (os : Options Key) (description : String)
    (go : List (Options.Choice Key) → Result) : Result :=
  match os.parse (· == .help) i.args with
  | .error f => i.misused os f
  | .ok chosen =>
    if isChosen chosen .help then i.printed (os.help i.name description) else go chosen

/-- The names under which a justfile is looked for. -/
def justfileNames : List String :=
  ["justfile", ".justfile", "Justfile", ".Justfile"]

/-- The text to read: standard input for none or a lone dash, else a file. -/
def Invocation.input (i : Invocation) : Option String → Except PathFault String
  | none => pure i.stdin
  | some path => if path = "-" then pure i.stdin else i.files.read i.folders path

/-- The items of a justfile, and the trace if it is asked for. -/
def readItems (verbose : Bool) (justfile : String) : Except Failure (List Item) × String :=
  if verbose then
    let (r, trace) := parseTraced justfile
    (r, trace.text)
  else (parse justfile, "")

/-- The lines that warnings give. -/
def warningText (ws : List Warning) : String :=
  String.join (ws.map fun w => "WARNING: " ++ w.text ++ "\n")

/-- Compiles a text, with the trace of the parser if it is asked for. -/
def compileText (edition : Edition) (outfile : String) (verbose : Bool) (justfile : String) :
    Report × String :=
  match readItems verbose justfile with
  | (.error f, trace) => (⟨[], .error f⟩, trace)
  | (.ok items, trace) => (compileItems edition outfile justfile items, trace)

/-- Compiles to standard output. -/
def Invocation.compileToStdout (i : Invocation) (verbose : Bool) (stderr justfile : String) :
    Result :=
  let (report, trace) := compileText i.edition "just.sh" verbose justfile
  let stderr := stderr ++ warningText report.warnings
  match report.script with
  | .ok script => ⟨0, trace ++ script, stderr, i.files, none⟩
  | .error f => ⟨1, trace, stderr, i.files, some (.refused f)⟩

/-- Compiles to a file. The file is emptied first, and becomes executable last. -/
def Invocation.compileToFile (i : Invocation) (verbose : Bool) (outfile stderr justfile : String) :
    Result :=
  match i.files.locate i.folders .writing outfile with
  | .error f => ⟨1, "", stderr, i.files, some (.path f)⟩
  | .ok name =>
    let (report, trace) := compileText i.edition outfile verbose justfile
    let stderr := stderr ++ warningText report.warnings
    match report.script with
    | .ok script => ⟨0, trace, stderr, i.files.withScript name script, none⟩
    | .error f => ⟨1, trace, stderr, i.files.emptied name, some (.refused f)⟩

/-- A path as it is told to the user. -/
def shownPath (stream : String) (path : Option String) : String :=
  match path with
  | none => "None"
  | some path => if path = "-" then stream else path

/-- The file that a script is written to. -/
def outfileOf (chosen : List (Options.Choice Key)) : String :=
  (lastValue? chosen .outfile).getD "just.sh"

/-- The justfile to compile: the one that is chosen, else the first that is there. -/
def Invocation.infile (i : Invocation) (chosen : List (Options.Choice Key)) : Option String :=
  match lastValue? chosen .infile with
  | some path => some path
  | none => justfileNames.find? fun name => i.files.contains name

/-- Compiles the justfile that the chosen options name. -/
def Invocation.compileChosen (i : Invocation) (chosen : List (Options.Choice Key)) : Result :=
  if isChosen chosen .version then
    i.printed
      ("just.sh – Justfile to POSIX shell script compiler (version " ++ i.edition.version ++ ")\n")
  else
    let verbose := isChosen chosen .verbose
    let outfile := outfileOf chosen
    let infile := i.infile chosen
    let warnings := if i.program.endsWith "just.sh" then [Warning.calledAsScript] else []
    let stderr := warningText warnings ++ "Compiling Justfile to shell script: `" ++
      shownPath "stdin" infile ++ "` -> `" ++ shownPath "stdout" (some outfile) ++ "`\n"
    match i.input infile with
    | .error f => ⟨1, "", stderr, i.files, some (.path f)⟩
    | .ok justfile =>
      if outfile = "-" then i.compileToStdout verbose stderr justfile
      else i.compileToFile verbose outfile stderr justfile

/-- The command that compiles a justfile. -/
def compileRun (i : Invocation) : Result :=
  i.withOptions compileOptions "Compile a Justfile to a shell script" i.compileChosen

/-- The paths that the compiler may look at. -/
def Invocation.paths (i : Invocation) : List String :=
  match compileOptions.parse (· == .help) i.args with
  | .error _ => []
  | .ok chosen => justfileNames ++ (lastValue? chosen .infile).toList ++ [outfileOf chosen]

/-- Whether the compiler reads its standard input. -/
def Invocation.readsInput (i : Invocation) : Bool :=
  match compileOptions.parse (· == .help) i.args with
  | .error _ => false
  | .ok chosen =>
    !isChosen chosen .help && !isChosen chosen .version &&
      (i.infile chosen).all fun path => path == "-"

/-- Shows the items of the justfile that the chosen options name. -/
def Invocation.showChosen (i : Invocation) (chosen : List (Options.Choice Key)) : Result :=
  let verbose := isChosen chosen .verbose
  match i.input (lastValue? chosen .infile) with
  | .error f => ⟨1, "", "", i.files, some (.path f)⟩
  | .ok justfile =>
    match readItems verbose justfile with
    | (.error f, trace) => ⟨1, trace, "", i.files, some (.refused f)⟩
    | (.ok items, trace) =>
      let document : Json :=
        if verbose then .texts (items.map fun item => (toDatum item).display)
        else (toDatum items).toJson
      i.printed (trace ++ document.indented ++ "\n")

/-- The command that shows the items of a justfile. -/
def showRun (i : Invocation) : Result :=
  i.withOptions showOptions "Parse a justfile" i.showChosen

end Justfile.Command
