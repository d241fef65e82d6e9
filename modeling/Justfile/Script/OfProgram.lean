import Justfile.Script.Basic

/-!
# The script of a program

`Script.ofProgram` makes the script of a program. Shell names are taken in the order in which the
parts are made: variables, recipes (body before head), dispatchers, lists, and the entry point.
-/

namespace Justfile.Script

open Shell

/-- The word of an optional expression. -/
def evaluate? : Option Expr → Naming (Option Word)
  | some e => some <$> evaluate e
  | none => pure none

/-- Interpolated expressions with the numbers from `first` on. -/
def interpolate (first : Nat) : List Expr → Naming (List Interpolation)
  | [] => pure []
  | e :: rest => do
    let w ← evaluate e
    let more ← interpolate (first + 1) rest
    pure (⟨first, w⟩ :: more)

/-- The interpolated expressions of a line. -/
def interpolationsOf (parts : List Fragment) : List Expr :=
  parts.filterMap fun
    | .interpolation e => some e
    | .text _ => none

/-- The words for the pieces of a line, where interpolations have the numbers from `first` on. -/
def pieceWords (first : Nat) : List Fragment → List Word
  | [] => []
  | .text s :: rest => .literal s :: pieceWords first rest
  | .interpolation _ :: rest => .valueOf (interpolationName first) :: pieceWords (first + 1) rest

/-- The words for a line. If `script` is given, a line that calls `just` calls that instead. -/
def commandWords (script : Option Word) (first : Nat) (parts : List Fragment) : List Word :=
  match script, parts with
  | some script, .text s :: rest =>
    if s.startsWith "just " then
      script :: pieceWords first (.text (String.ofList (s.toList.drop 4)) :: rest)
    else pieceWords first parts
  | _, _ => pieceWords first parts

/-- The words for the content of a file: neighbouring texts become one literal, and interpolations
have the numbers from `first` on. `pending` is the text since the last interpolation. -/
def contentWords (first : Nat) (pending : Option String) : List Fragment → List Word
  | [] => pending.toList.map .literal
  | .text s :: rest => contentWords first (some (pending.getD "" ++ s)) rest
  | .interpolation _ :: rest =>
    pending.toList.map .literal ++
      .valueOf (interpolationName first) :: contentWords (first + 1) none rest

/-- The pieces of a body with line feeds between its lines. -/
def bodyPieces : List Line → List Fragment
  | [] => []
  | [l] => l.parts
  | l :: rest => l.parts ++ .text "\n" :: bodyPieces rest

/-- The variables that reach the environment of a recipe's commands. -/
def exportNames (p : Program) (r : Recipe) : List String :=
  let all := p.settings.isGiven "export"
  p.exports ++ (if all then p.values.keys else []) ++
    (r.params.filter fun q => q.base.exported || all).map (·.base.name)

/-- The environment of a recipe's commands. -/
def exportsOf (p : Program) (r : Recipe) : Naming (List Export) :=
  (exportNames p r).mapM fun v => do
    let name ← cleanName v
    let value ← cleanVariable v
    pure ⟨name, value⟩

/-- The arguments passed on to a recipe's commands. -/
def argumentsOf (p : Program) (r : Recipe) (withName : Bool) : Naming Arguments := do
  if p.settings.isGiven "positional-arguments" then
    let values ← r.parameters.mapM fun q => cleanVariable q.name
    pure ⟨if withName then some r.name else none, values, r.variadic.isSome⟩
  else pure .none

/-- Whether a line's lead has a mark. -/
def hasMark (l : Line) (mark : Char) : Bool :=
  match l.lead with
  | some s => s.toList.contains mark
  | none => false

/-- What happens if a line of a recipe fails. -/
def endingOf (attributes : List String) (l : Line) : Ending :=
  if hasMark l '-' then .ignored
  else if attributes.contains "no-exit-message" then .silent
  else .reported

/-- How a recipe can call the script itself: not at all if there is a shell setting. -/
def selfWord (p : Program) (attributes : List String) : Option Word :=
  if p.settings.isGiven "shell" then none
  else if attributes.contains "no-cd" then some .self
  else some .selfHere

/-- A line of a recipe whose interpolations have the numbers from `first` on. -/
def commandLine (p : Program) (attributes : List String) (r : Recipe) (first : Nat) (l : Line) :
    Naming CommandLine := do
  let interpolations ← interpolate first (interpolationsOf l.parts)
  let exports ← exportsOf p r
  let arguments ← argumentsOf p r true
  pure {
    interpolations := interpolations
    command := commandWords (selfWord p attributes) first l.parts
    echoed := r.echo != hasMark l '@'
    exports := exports
    arguments := arguments
    ending := endingOf attributes l }

/-- Whether a line is a comment that is to be left out. -/
def isIgnored (p : Program) (l : Line) : Bool :=
  p.settings.isGiven "ignore-comments" && match l.parts with
    | .text s :: _ => s.startsWith "#"
    | _ => false

/-- The lines of a recipe, where interpolations have the numbers from `first` on. -/
def commandLines (p : Program) (attributes : List String) (r : Recipe) (first : Nat) :
    List Line → Naming (List CommandLine)
  | [] => pure []
  | l :: rest => do
    if isIgnored p l then commandLines p attributes r first rest
    else
      let c ← commandLine p attributes r first l
      let more ← commandLines p attributes r (first + c.interpolations.length) rest
      pure (c :: more)

/-- The body of a recipe that is run from a file. -/
def bodyFile (p : Program) (attributes : List String) (r : Recipe) : Naming BodyFile := do
  let pieces := bodyPieces r.body
  let interpolations ← interpolate 1 (interpolationsOf pieces)
  let exports ← exportsOf p r
  let arguments ← argumentsOf p r false
  pure {
    interpolations := interpolations
    content := contentWords 1 none pieces
    shown := !r.echo
    exports := exports
    arguments := arguments
    reported := !attributes.contains "no-exit-message" }

/-- The body of a recipe. -/
def bodyOf (p : Program) (attributes : List String) (r : Recipe) : Naming Body :=
  if r.isShebang then .file <$> bodyFile p attributes r
  else .commands <$> commandLines p attributes r 1 r.body

/-- How many arguments a recipe needs. -/
def leastCount (r : Recipe) : Nat :=
  match r.variadic with
  | some ⟨.plus, { default := none, .. }⟩ => r.required + 1
  | _ => r.required

/-- The check that a recipe has enough arguments. -/
def leastOf (r : Recipe) : Except Failure (Option Least) := do
  if leastCount r = 0 then pure none
  else
    let labels ← r.params.mapM Label.ofParam
    pure (some ⟨r.name, leastCount r, r.variadic.isSome || r.defaulted > 0, labels⟩)

/-- The parameters of a recipe from the place `place` on. -/
def slotsOf (place : Nat) : List Parameter → Naming (List Slot)
  | [] => pure []
  | q :: rest => do
    let name ← cleanVariable q.name
    let default ← evaluate? q.default
    let more ← slotsOf (place + 1) rest
    pure (⟨name, place, default⟩ :: more)

/-- The parameter of a recipe that takes the remaining arguments. -/
def remainderOf (r : Recipe) : Naming (Option Remainder) :=
  match r.variadic with
  | some v => do
    let name ← cleanVariable v.param.name
    let default ← evaluate? v.param.default
    pure (some ⟨name, r.parameters.length, default⟩)
  | none => pure none

/-- How a recipe takes its arguments. -/
def intakeOf (r : Recipe) : Naming (Option Intake) := do
  if r.params.isEmpty then pure none
  else
    let least ← Naming.ofExcept (leastOf r)
    let slots ← slotsOf 1 r.parameters
    let remainder ← remainderOf r
    pure (some ⟨least, slots, remainder⟩)

/-- The variable that forces a recipe to run. -/
def forceName (recipe : String) : Naming String :=
  cleanName ("FORCE_" ++ recipe)

/-- The variable that says that a recipe has run. -/
def hasRunName (recipe : String) : Naming String :=
  cleanName ("HAS_RUN_" ++ recipe)

/-- A dependency that runs before a recipe. -/
def beforeRun (r : Recipe) (d : Dependency) : Naming Run := do
  let args ← evaluateAll d.args
  let _ ← forceName r.name
  let force ← forceName d.name
  let function ← cleanFunction d.name
  pure ⟨force, ⟨function, args⟩⟩

/-- The dependencies that run after a recipe, each name once; `seen` are the names before. -/
def afterRuns (seen : List String) : List Dependency → Naming (List Run)
  | [] => pure []
  | d :: rest => do
    let args ← evaluateAll d.args
    if seen.contains d.name then afterRuns seen rest
    else
      let force ← forceName d.name
      let function ← cleanFunction d.name
      let more ← afterRuns (d.name :: seen) rest
      pure (⟨force, ⟨function, args⟩⟩ :: more)

/-- The function of a recipe. -/
def recipeFunction (p : Program) (attributes : List String) (r : Recipe) :
    Naming RecipeFunction := do
  let platforms := Platform.ofAttributes attributes
  let body ← bodyOf p attributes r
  let name ← cleanFunction (Platform.functionName r.name platforms)
  let hasRun ← hasRunName r.name
  let force ← forceName r.name
  let intake ← intakeOf r
  let before ← r.before.mapM (beforeRun r)
  let after ← afterRuns [] r.after
  pure {
    recipe := r.name
    name := name
    hasRun := hasRun
    force := force
    intake := intake
    before := before
    changesDirectory := !attributes.contains "no-cd"
    body := body
    after := after }

/-- The entries that an item gives. -/
def itemEntries (p : Program) (i : Item) : Naming (List Entry) :=
  match i.declaration with
  | .recipe r => do
    let f ← recipeFunction p i.attributes r
    pure [.recipe f]
  | .comment s => pure [.comment s]
  | .alias name target => do
    let name ← cleanFunction name
    let target ← cleanFunction target
    pure [.alias ⟨name, target⟩]
  | _ => pure []

/-- The branch of a dispatcher for a platform. -/
def branchOf (platform function : String) : Naming Branch := do
  let function ← cleanFunction function
  let detector := ((Platform.ofName? platform).map (·.detector)).getD "os"
  pure ⟨detector, platform, function⟩

/-- The dispatcher of a recipe name. -/
def dispatcherOf (recipe : String) (functions : Table String) : Naming Entry := do
  let branches ← functions.entries.mapM fun (platform, function) => branchOf platform function
  let name ← cleanFunction recipe
  pure (.dispatcher ⟨recipe, name, branches⟩)

/-- The entries of the section of recipes. -/
def entriesOf (p : Program) : Naming (List Entry) := do
  let entries ← p.items.mapM (itemEntries p)
  let dispatchers ← p.platforms.entries.mapM fun (recipe, functions) =>
    dispatcherOf recipe functions
  pure (entries.flatten ++ dispatchers)

/-- What is shown about a target. -/
def listedOf (p : Program) (target : String) : Except Failure Listed := do
  let labels ← ((p.parameters.find? target).getD []).mapM Label.ofParam
  pure ⟨target, labels, p.docs.find? target⟩

/-- A variable with its shell name. -/
def variableOf (name : String) : Naming Variable := do
  let shellName ← cleanVariable name
  pure ⟨name, shellName⟩

/-- What happens to the arguments after a target with some parameters. -/
def consumptionOf (params : List Param) : Consumption :=
  if params.any (·.isVariadic) then .all
  else if params.isEmpty then .none
  else .some params.length

/-- The case of a target. -/
def caseOf (p : Program) (target : String) : Naming TargetCase := do
  let function ← cleanFunction target
  pure ⟨target, function, consumptionOf ((p.parameters.find? target).getD [])⟩

/-- How many arguments the default recipe has to be given: one for each parameter without default.
Nothing if it has no parameters. -/
def defaultLeast (params : List Param) : Option Nat :=
  if params.isEmpty then none
  else some (params.filter fun q => q.base.default.isNone).length

/-- The default recipe of a program. -/
def defaultOf (p : Program) : Naming (Option Default) :=
  match p.recipes with
  | [] => pure none
  | recipe :: _ => do
    let function ← cleanFunction recipe
    pure (some ⟨recipe, function, defaultLeast ((p.parameters.find? recipe).getD [])⟩)

/-- The assignment of a variable. -/
def assignmentOf (name : String) (value : Expr) : Naming Assignment := do
  let name ← cleanVariable name
  let value ← evaluate value
  pure ⟨name, value⟩

/-- The script of a program for an output file; `justfile` is the text the program was read
from. -/
def ofProgram (edition : Edition) (outfile justfile : String) (p : Program) : Naming Script := do
  let banner ← Naming.ofExcept (bannerText edition outfile)
  let assignments ← p.values.entries.mapM fun (name, value) => assignmentOf name value
  let entries ← entriesOf p
  let sortedList ← Naming.ofExcept (p.sortedTargets.mapM (listedOf p))
  let list ← Naming.ofExcept
    ((p.targets.filter fun t => !p.privates.contains t).mapM (listedOf p))
  let sortedVariables ← (sortStrings p.values.keys).mapM variableOf
  let declared ← p.values.keys.mapM variableOf
  let cases ← p.targets.mapM (caseOf p)
  let default ← defaultOf p
  let (shell, shellArgs) := p.settings.shell?.getD ("sh", ["-cu"])
  pure {
    version := edition.version
    banner := banner
    helpers := p.helpers.values
    dotenv := p.settings.isGiven "dotenv-load"
    tempdir := p.settings.find? "tempdir"
    shell := shell
    shellArgs := shellArgs
    assignments := assignments
    entries := entries
    recipes := p.uniqueRecipes
    sortedList := sortedList
    list := list
    justfile := justfile
    sortedVariables := sortedVariables
    declared := declared
    targets := p.targets
    cases := cases
    default := default }

end Justfile.Script
