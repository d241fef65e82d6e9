import Justfile.Survey.Bench
import Justfile.Survey.Verdict

/-!
# Coverage runs

All benches are run once while a coverage tool records. The tool's report is then completed by how
many benches there were and which of them failed, and one line sums it up.

* `Coverage.run`: the calls made to the tool, the completed report, and the line.
-/

namespace Justfile

/-- An object with a field set to a value, in its place or at the end. -/
def Json.withField (j : Json) (key : String) (value : Json) : Json :=
  match j with
  | .object fields => .object ((Table.mk fields).put key value).entries
  | j => j

namespace Survey

/-- The outcome of a coverage run. -/
structure Coverage where
  calls : List Json
  report : Json
  stdout : String

namespace Coverage

/-- The number in a field of the totals of a report. -/
def total? (report : Json) (key : String) : Option Json := do
  (← report.field? "totals").field? key

/-- How many benches a module has, and the failures while it was loaded or run. -/
def failures (m : Module) : Nat × List (String × String) :=
  match m with
  | .error f => (0, [("<import>", f.text)])
  | .ok benches => (benches.size, benches.entries.filterMap fun (name, b) =>
      match b.run 1 [] with
      | .error (.fault f) => some (name, f.text)
      | _ => none)

/-- The calls to the coverage tool, in order. -/
def toolCalls (skipped : List String) : List Json := [
  .array [.text "Coverage", .object [
    ("branch", .bool false), ("config_file", .bool false), ("data_file", .null),
    ("omit", .texts skipped), ("source", .texts [repository])]],
  .array [.text "start"],
  .array [.text "stop"],
  .array [.text "json_report", .bool true]]

/-- A coverage run over a module, where the tool writes `report`. -/
def run (m : Module) (skipped : List String) (report : Json) : Coverage :=
  let (count, errors) := failures m
  let marked := ((report.field? "meta").getD (.object []))
    |>.withField "_pti_bench_errors" (.object (errors.map fun (name, s) => (name, .text s)))
    |>.withField "_pti_n_benches" (.nat count)
  let percent := ((total? report "percent_covered").bind Json.float?).getD 0
  let covered := ((total? report "covered_lines").bind Json.literal?).getD "0"
  let statements := ((total? report "num_statements").bind Json.literal?).getD "0"
  { calls := toolCalls skipped
    report := report.withField "meta" marked
    stdout := "coverage: " ++ Decimal.fixed 1 percent ++ s!"% ({covered}/{statements} stmts, " ++
      s!"{count} benches, {errors.length} errors)\n" }

end Coverage

end Survey

end Justfile
