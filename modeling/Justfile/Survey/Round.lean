import Justfile.Json.Reader
import Justfile.Survey.Bench
import Justfile.Survey.Verdict
import Justfile.Text.Blank

/-!
# Rounds of measurement

A round measures coverage, shares of time and self-checks by child processes, prints one report,
and appends one entry to a log. Rounds end when no bench spends too much time elsewhere, or when
that has not become better for three rounds.

* `Round.run`: a round as a function of the files, the children, and the clock.
* `coverageLines`, `shareLines`, `checkLines`: the sections of the report.
* `stop?`: why no further round is needed.
-/

namespace Justfile.Survey

/-- How a child process ended, and what it printed. -/
structure Finished where
  exit : Int
  stdout : String
  stderr : String

/-- A child process, or the fault that kept it from running. -/
abbrev Child := Except Fault Finished

/-- What a round depends on: the files of the repository, the children for coverage, shares of
time, self-checks and changed files, the clock, and whether the log can be written. -/
structure Round where
  files : Table String
  coverage : Child
  shares : Child
  checks : Child
  changes : Child
  started : Json
  ended : Json
  now : Json
  writable : Bool

/-- What a round prints and logs. -/
structure Measured where
  exit : Int
  stdout : String
  stderr : String
  log : List Json

/-- Lines as text. -/
def unlines (lines : List String) : String :=
  String.join (lines.map (· ++ "\n"))

/-- A number in a document, zero if there is none. -/
def floatOf (j : Json) : Float :=
  j.float?.getD 0

/-- A whole number in a document, zero if there is none. -/
def intOf (j : Json) : Int :=
  (j.literal?.bind String.toInt?).getD 0

/-! ### Coverage -/

/-- A path as seen from the repository. -/
def relativeName (path : String) : String :=
  let absolute := if path.startsWith "/" then path else repository ++ "/" ++ path
  match insideRepository? absolute with
  | some [] => "."
  | some parts => "/".intercalate parts
  | none => "/".intercalate (".." :: resolved absolute)

/-- A file in the coverage report. -/
structure Row where
  name : String
  statements : Int
  missed : Int
  percent : Float
  lines : List String

/-- The row of a file. -/
def Row.ofField (path : String) (j : Json) : Row :=
  let summary := j.field "summary"
  { name := relativeName path
    statements := intOf (summary.field "num_statements")
    missed := intOf (summary.field "missing_lines")
    percent := floatOf (summary.field "percent_covered")
    lines := (j.field "missing_lines").items.filterMap Json.literal? }

/-- The columns of a row before the list of missing lines. -/
def columns (width : Nat) (name : String) (statements missed : Int) (percent : Float) : String :=
  Text.left width name ++ "  " ++ Text.right 5 (toString statements) ++ "  " ++
    Text.right 4 (toString missed) ++ "  " ++ Text.right 4 (Decimal.fixed 0 percent) ++ "%"

/-- Names are cut to this width. -/
def nameLimit : Nat := 60

/-- So many missing lines are listed. -/
def lineLimit : Nat := 12

/-- The line of a row. -/
def Row.text (width : Nat) (r : Row) : String :=
  columns width (r.name.take nameLimit).toString r.statements r.missed r.percent ++ "  " ++
    ",".intercalate (r.lines.take lineLimit) ++ if r.lines.length ≤ lineLimit then "" else "…"

/-- The table of a coverage report, the files with least coverage first. -/
def coverageLines (report : Json) : List String :=
  let rows := (report.field "files").fields.map fun (path, j) => Row.ofField path j
  let rows := rows.mergeSort fun r s => decide (r.percent ≤ s.percent)
  let width := min nameLimit ((rows.map fun r => r.name.length).foldl max 4)
  let rule := String.ofList (List.replicate (width + 42) '-')
  let totals := report.field "totals"
  let statements := intOf (totals.field "num_statements")
  let missed := statements - intOf (totals.field "covered_lines")
  [Text.left width "Name" ++ "  Stmts  Miss  Cover  Missing", rule] ++
    rows.map (Row.text width) ++
    [rule, columns width "TOTAL" statements missed (floatOf (totals.field "percent_covered"))]

/-- The benches that failed while coverage was measured. -/
def benchErrors (report : Json) : List (String × Json) :=
  ((report.field "meta").field "_pti_bench_errors").fields

/-- The first failures of benches. -/
def errorLines (errors : List (String × Json)) : List String :=
  if errors.isEmpty then []
  else ["", s!"{errors.length} bench error(s):"] ++
    (errors.take 8).map fun (name, j) => "  " ++ name ++ ": " ++ j.text?.getD ""

/-! ### Shares of time -/

/-- Below this share of time in the repository a bench has to be mended, in percent. -/
def shareLimit : Float := 45

/-- Whether a share of time is too small; a share below zero stands for a failed bench. -/
def isBelow (share : Float) : Bool :=
  decide (0 ≤ share) && decide (share < shareLimit)

/-- The modules in which a bench spends its time. -/
def hotText (hot : Json) : String :=
  let parts := hot.items.map fun j =>
    ((j.items[1]?).bind Json.text?).getD "" ++ " " ++
      Decimal.fixed 0 (((j.items[0]?).bind Json.float?).getD 0) ++ "%"
  if parts.isEmpty then "" else " (hot: " ++ " ".intercalate parts ++ ")"

/-- The line for the share of a bench. -/
def shareLine (hot : Json) (name : String) (share : Float) : String :=
  let tail := if share < 0 then "  <error>"
    else if isBelow share then hotText (hot.field name) else ""
  "  " ++ (if isBelow share then "*" else " ") ++ " " ++ Text.left 32 name ++ " " ++
    Text.right 5 (Decimal.fixed 1 (if share < 0 then 0 else share)) ++ "%" ++ tail

/-- The shares of time, the smallest first. -/
def shareLines (shares : List (String × Float)) (hot : Json) : List String :=
  if shares.isEmpty then []
  else ["", "repo_time (target 50%; * = below 45%):"] ++
    (shares.mergeSort fun p q => decide (p.2 ≤ q.2)).map fun (name, x) => shareLine hot name x

/-! ### Changed files -/

/-- The files of the repository that were changed, without those of the harness. -/
def changedFiles (status : String) : List String :=
  (((Text.rowsString status).filter fun s => Text.stripString s != "").map fun s =>
    (s.drop 3).toString).filter fun name => !isHarness name

/-- The first changed files. -/
def changeLines (names : List String) : List String :=
  if names.isEmpty then []
  else ["", s!"** repo modified ({names.length} file(s)) — revert these; " ++
      "only microbench.py is yours to edit:"] ++
    (names.take 10).map ("   " ++ ·)

/-! ### Self-checks -/

/-- What the verdicts ask for. -/
def legend : List String := [
  "  returns-none: run() has no return — collect and return the call results",
  "  unstable: seed RNG in setup; avoid time/uuid/id in the return",
  "  returns-input: return repo output, not the parameter value",
  "  low-repo-time: <50% of run() time is in repo code — move glue to setup",
  "  param-invariant: return something derived from run()'s work, not setup",
  "  repo-modified: revert edits to repo files (git checkout -- <path>)"]

/-- A bench that was judged. -/
structure Judged where
  name : String
  findings : Findings
  verdict : Verdict

/-- The benches of a document of self-checks, judged. In a changed repository none is fine. -/
def judge (modified : Bool) (checks : Json) : List Judged :=
  checks.fields.filterMap fun (name, j) => (Findings.ofJson? j).map fun f =>
    ⟨name, f, if modified then .repositoryModified else f.verdict⟩

/-- The self-checks, those with complaints first. -/
def checkLines (judged : List Judged) : List String :=
  if judged.isEmpty then []
  else
    let (fine, rest) := judged.partition fun b => b.verdict.isFine
    ["", "self-check (* = fix needed):"] ++ legend ++
      (rest ++ fine).map fun b => b.findings.line b.name b.verdict

/-! ### The end of the rounds -/

/-- From this coverage on, in percent, shares of time decide whether to go on. -/
def coverageLimit : Float := 60

/-- After so many rounds without improvement there are no more. -/
def patience : Nat := 3

/-- Why no further round is needed, from the numbers of benches with too small a share in all
rounds so far, the last one included. -/
def stop? (coverage : Float) (counts : List Nat) : Option String :=
  match counts.getLast? with
  | none => none
  | some now =>
    let best := counts.foldl min now
    let before := counts.take (counts.length - patience)
    if coverage < coverageLimit then none
    else if now == 0 then some "0 below"
    else if before.any (· == best) then
      some s!"no improvement in {patience} rounds; best {best} below"
    else none

/-- The line that ends the rounds. -/
def stopLines (reason : Option String) : List String :=
  match reason with
  | none => []
  | some why =>
    ["", s!">>> STOP: repo_time converged ({why}). Finalize microbench.py now. <<<"]

/-! ### A round -/

/-- The difference of two numbers with some places; of two whole numbers it is whole. -/
def difference (places : Nat) (a b : Json) : Json :=
  match a.literal?.bind String.toInt?, b.literal?.bind String.toInt? with
  | some m, some n => .int (m - n)
  | _, _ => .number (Decimal.text (Decimal.roundTo places (floatOf a - floatOf b)))

/-- The document on the last line that a child printed. -/
def lastDocument (stdout : String) : Json :=
  match ((Text.rowsString (Text.stripString stdout)).getLast?).bind Json.parse? with
  | some j => j
  | none => .object []

/-- What one of the optional children says: its document, and its part of the error output. A
child whose program is missing is not started. -/
def consult (files : Table String) (program title : String) (child : Child) : Json × String :=
  if !files.contains program then (.object [], "")
  else match child with
    | .ok c => (lastDocument c.stdout, c.stderr)
    | .error f => (.object [], "[" ++ title ++ " runner: " ++ f.text ++ "]\n")

/-- The entries of the log. -/
def logEntries (files : Table String) : List Json :=
  ((Text.rowsString ((files.find? ".pti_checkpoint.jsonl").getD "")).filter fun s =>
    Text.stripString s != "").filterMap Json.parse?

/-- How many benches a source text defines. -/
def benchCount (source : String) : Nat :=
  ((Text.rowsString source).filter fun s => s.startsWith "def bench_").length

/-- The report and the log entry of a round whose coverage was measured. -/
def Round.finish (r : Round) (report : Json) (stderr : String) : Measured :=
  let totals := report.field "totals"
  let percent := (totals.field? "percent_covered").getD (.number "0.0")
  let whole (key : String) : Json := (totals.field? key).getD (.nat 0)
  let errors := benchErrors report
  let (timed, timedErr) := consult r.files "_pti_repotime.py" "repotime" r.shares
  let (checked, checkedErr) := consult r.files "_pti_semcheck.py" "semcheck" r.checks
  let shareFields := (timed.field "repo_time_pct").fields
  let shares := shareFields.map fun (name, j) => (name, floatOf j)
  let valid := shares.filter fun s => decide ((0 : Float) ≤ s.2)
  let below := (valid.filter fun s => isBelow s.2).length
  let changed := match r.changes with
    | .ok c => changedFiles c.stdout
    | .error _ => []
  let judged := judge (!changed.isEmpty) (checked.field "semcheck")
  let unfit := (judged.filter fun b => !b.verdict.isFine).length
  let entries := logEntries r.files
  let number := entries.length + 1
  let benches := benchCount ((r.files.find? "microbench.py").getD "")
  let counted : Option Nat := if valid.isEmpty then none else some below
  let counts := entries.filterMap (fun e => (e.field "n_below_repo_time").literal?.bind String.toNat?)
  let summary := s!"[round {number}: {benches} benches, " ++
    Decimal.fixed 1 (floatOf percent) ++ "% covered, " ++
    (if shares.isEmpty then "" else s!"{below}/{valid.length} below repo_time 45%, ") ++
    (if judged.isEmpty then "" else s!"{unfit}/{judged.length} not self-checking, ") ++
    "measured in " ++ Decimal.fixed 1 (floatOf r.ended - floatOf r.started) ++ "s]"
  let entry := Json.object [
    ("round", .nat number),
    ("ts", r.now),
    ("wall_since_prev_s", match entries.getLast? with
      | some e => difference 2 r.now (e.field "ts")
      | none => .number "0.0"),
    ("coverage_pct", percent),
    ("covered_lines", whole "covered_lines"),
    ("num_statements", whole "num_statements"),
    ("n_bench_fns", .nat benches),
    ("n_bench_errors", .nat errors.length),
    ("cov_measure_s", difference 3 r.ended r.started),
    ("repo_time_pct", .object shareFields),
    ("n_below_repo_time", counted.elim .null .nat),
    ("semcheck", .object (judged.map fun b => (b.name, .text b.verdict.word))),
    ("n_not_self_checking", .nat unfit)]
  let reason := counted.bind fun n => stop? (floatOf percent) (counts ++ [n])
  { exit := 0
    stdout := unlines (coverageLines report ++ errorLines errors ++
      shareLines shares (timed.field "hot_ext") ++ changeLines changed ++ checkLines judged ++
      ["", summary] ++ stopLines reason)
    stderr := stderr ++ timedErr ++ checkedErr
    log := if r.writable then [entry] else [] }

/-- A round of measurement. Without coverage there is nothing to report. -/
def Round.run (r : Round) : Measured :=
  match r.coverage with
  | .error _ => ⟨1, "", "", []⟩
  | .ok c =>
    match (r.files.find? "_pti_coverage.json").bind Json.parse?, c.exit with
    | some report, 0 => r.finish report c.stderr
    | _, code =>
      ⟨if code == 0 then 1 else code,
        s!"coverage measurement failed (exit {code})\n{c.stdout}\n", c.stderr, []⟩

end Justfile.Survey
