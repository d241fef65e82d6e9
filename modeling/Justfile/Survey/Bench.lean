import Justfile.Survey.Profile
import Justfile.Survey.Value
import Justfile.Table

/-!
# Benches

A bench is set up with named parameters and then run. What it does is part of its description, so
that a run is a function of the bench, of the parameters, and of how often it was set up before.

* `Bench.run`: what a run returns, or how it ends without a result.
* `Module`: the benches that are there to be measured, or why there are none.
-/

namespace Justfile.Survey

/-- An exception, by its kind and its message. -/
structure Fault where
  kind : String
  message : String

/-- The text of a fault. The message of a missing key is the key, in quotes. -/
def Fault.text (f : Fault) : String :=
  f.kind ++ ": " ++ if f.kind == "KeyError" then Text.quotedString f.message else f.message

/-- How a run ends without a result. -/
inductive Stop where
  | fault (f : Fault)
  | timeout

/-- The kind of a stop, in place of a type. -/
def Stop.mark : Stop → String
  | .fault f => "<" ++ f.kind ++ ">"
  | .timeout => "<timeout>"

/-- The parameters of a bench. -/
abbrev Params := List (String × Value)

/-- Parameters in the order of their names. -/
def Params.sorted (ps : Params) : Params :=
  ps.mergeSort fun p q => p.1 ≤ q.1

/-- The label of a choice of parameters. -/
def Params.label (ps : Params) : String :=
  if ps.isEmpty then "-"
  else ",".intercalate ((Params.sorted ps).map fun (name, v) => name ++ "=" ++ v.display)

/-- What a bench does. -/
inductive Behaviour where
  | returns (v : Value)
  | countsSetups
  | listsParams
  | echoesParam
  | stops (s : Stop)

/-- A bench: its name, what it does, the parameters it is to be run with, and the profiles of its
runs. -/
structure Bench where
  name : String
  behaviour : Behaviour
  params : List Params
  profiles : List Profile

namespace Bench

/-- The result of a run after so many set-ups, the last one with these parameters. -/
def run (b : Bench) (setups : Nat) (ps : Params) : Except Stop Value :=
  match b.behaviour with
  | .returns v => .ok v
  | .countsSetups => .ok (.int setups)
  | .listsParams => .ok (.list ((Params.sorted ps).map (·.2)))
  | .echoesParam => .ok ((ps.lookup "n").getD (.int 0))
  | .stops s => .error s

/-- The profile of a run, by its number among the profiled runs. -/
def profile (b : Bench) (k : Nat) : Profile :=
  (b.profiles[k % b.profiles.length]?).getD .empty

end Bench

/-- What is there to be measured: benches by name, or the reason why they cannot be loaded. -/
abbrev Module := Except Fault (Table Bench)

/-- Whether a name is that of a bench. -/
def isBenchName (name : String) : Bool :=
  name.startsWith "bench_"

/-- A module of benches; of two with one name the later counts. -/
def Module.ofBenches (bs : List Bench) : Module :=
  .ok ((bs.filter fun b => isBenchName b.name).foldl (fun t b => t.put b.name b) .empty)

/-- A report that holds for a module: one object for its benches, or the reason why it has none. -/
def Module.report (m : Module) (of : Table Bench → Json) : Json :=
  match m with
  | .error f => .object [("_import_error", .text f.text)]
  | .ok benches => of benches

end Justfile.Survey
