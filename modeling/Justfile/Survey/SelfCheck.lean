import Justfile.Survey.Bench
import Justfile.Survey.Fingerprint

/-!
# Self-checks

Each bench is run twice as it is and once with each of its choices of parameters. The check
records the fingerprints of the results and where the time went.

* `SelfCheck.ofBench`: the check of one bench.
* `SelfCheck.report`: the checks of a module.
-/

namespace Justfile.Survey

/-- What is seen of a bench: the type of its result, the fingerprints of two runs, and for each
choice of parameters the fingerprint of the result and the shares of time. -/
structure SelfCheck where
  resultType : String
  stable : List String
  byParams : List (String × String)
  paramMarks : List String
  profiles : List (String × Profile)

namespace SelfCheck

/-- The check of a bench that gave no result. -/
def stopped (s : Stop) : SelfCheck :=
  ⟨s.mark, [], [], [], []⟩

/-- The label of the runs without parameters of their own. -/
def defaultLabel : String := "<default>"

/-- The check of a bench that gives results. -/
def ofRuns (b : Bench) : Except Stop SelfCheck := do
  let first ← b.run 1 []
  let second ← b.run 2 []
  let more ← b.params.zipIdx.mapM fun (ps, i) => do
    return (Params.label ps, fingerprint (← b.run (i + 3) ps), b.profile (i + 1))
  return {
    resultType := first.typeName
    stable := [fingerprint first, fingerprint second]
    byParams := more.map fun (label, mark, _) => (label, mark)
    paramMarks := b.params.flatMap fun ps => (Params.sorted ps).map fun p => fingerprint p.2
    profiles := (defaultLabel, b.profile 0) :: more.map fun (label, _, profile) => (label, profile) }

/-- The check of a bench. -/
def ofBench (b : Bench) : SelfCheck :=
  match ofRuns b with
  | .ok c => c
  | .error s => stopped s

/-- A number with three places. -/
def placed (x : Float) : Json :=
  .number (Decimal.text (Decimal.roundTo 3 x))

/-- One number for each profile; of two under one label the later counts. -/
def perProfile (c : SelfCheck) (f : Profile → Float) : Json :=
  .object ((c.profiles.foldl (fun t (label, p) => t.put label p) Table.empty).entries.map
    fun (label, p) => (label, placed (f p)))

/-- A check as a JSON document. -/
def toJson (c : SelfCheck) : Json := .object [
  ("ret_type", .text c.resultType),
  ("fp_stable", .texts c.stable),
  ("fp_by_param", .object
    ((c.byParams.foldl (fun t (label, mark) => t.put label mark) Table.empty).entries.map
      fun (label, mark) => (label, .text mark))),
  ("param_fps", .texts c.paramMarks),
  ("repo_frac", c.perProfile fun p => p.share p.ownTime),
  ("ext_frac", c.perProfile fun p => p.share p.compiledTime),
  ("repo_tt_ms", c.perProfile fun p => p.ownTime * 1000)]

/-- The checks of a module. -/
def report (m : Module) : Json :=
  m.report fun benches =>
    .object [("semcheck", .object (benches.entries.map fun (name, b) => (name, (ofBench b).toJson)))]

end SelfCheck

end Justfile.Survey
