import Justfile.Survey.Bench

/-!
# Hot spots

Each bench is run once. The report gives the share of time in the repository's own files and the
two modules outside it that took most time.

* `HotSpots.ofBench`: the shares of one bench.
* `HotSpots.report`: the shares of a module of benches.
-/

namespace Justfile.Survey

/-- Where the time of a bench goes, in percent: in the repository, and in other modules. -/
structure HotSpots where
  own : Float
  others : List (Float × String)

namespace HotSpots

/-- A time in percent of a run's time, with one place. A run that took no time counts as very
short. -/
def percent (p : Profile) (time : Float) : Float :=
  Decimal.roundTo 1 (100 * time / (if p.total == 0 then 1e-9 else p.total))

/-- Whether a module comes before another one: more time, then the later name. -/
def leads (a b : String × Float) : Bool :=
  a.2 > b.2 || (a.2 == b.2 && b.1 ≤ a.1)

/-- Where the time of a run goes. -/
def ofProfile (p : Profile) : HotSpots :=
  ⟨percent p p.ownTime,
    ((p.otherTimes.mergeSort leads).take 2).map fun (name, time) => (percent p time, name)⟩

/-- Where the time of a bench goes; a bench without a result has the share minus one. -/
def ofBench (b : Bench) : HotSpots :=
  match b.run 1 [] with
  | .ok _ => ofProfile (b.profile 0)
  | .error s => ⟨-1, [(0, s.mark)]⟩

/-- A number as a JSON document. -/
def number (x : Float) : Json :=
  .number (Decimal.text x)

/-- The shares of a module of benches. -/
def report (m : Module) : Json :=
  m.report fun benches =>
    let spots := benches.entries.map fun (name, b) => (name, ofBench b)
    .object [
      ("repo_time_pct", .object (spots.map fun (name, s) => (name, number s.own))),
      ("hot_ext", .object (spots.map fun (name, s) =>
        (name, .array (s.others.map fun (share, mod) => .array [number share, .text mod]))))]

end HotSpots

end Justfile.Survey
