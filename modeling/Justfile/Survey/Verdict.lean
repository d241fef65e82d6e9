import Justfile.Decimal.Text
import Justfile.Json
import Justfile.Text.Align

/-!
# Verdicts on benches

A self-check of a bench is judged: whether its results are there, repeatable and derived from the
work that is measured, and whether that work is long enough and in the repository.

* `Findings.ofJson?`: what the document of a self-check says.
* `Findings.verdict`: the verdict.
-/

namespace Justfile

namespace Json

/-- The number that a JSON number writes. -/
def float? : Json → Option Float
  | .number literal => Decimal.read? literal
  | _ => none

/-- The text of a JSON number as it stands. -/
def literal? : Json → Option String
  | .number literal => some literal
  | _ => none

/-- The text that a JSON string writes. -/
def text? : Json → Option String
  | .text s => some s
  | _ => none

/-- The fields of an object; no other document has any. -/
def fields : Json → List (String × Json)
  | .object fs => fs
  | _ => []

/-- The items of an array; no other document has any. -/
def items : Json → List Json
  | .array js => js
  | _ => []

/-- The document in a field, null if there is none. -/
def field (key : String) (j : Json) : Json :=
  (j.field? key).getD .null

end Json

namespace Survey

/-- The verdicts on a bench. -/
inductive Verdict where
  | ok
  | unparametrised
  | repositoryModified
  | failed
  | returnsNothing
  | unstable
  | returnsInput
  | tooFast
  | mostlyElsewhere
  | ignoresParams
  deriving DecidableEq

namespace Verdict

/-- The word for a verdict. -/
def word : Verdict → String
  | .ok => "ok"
  | .unparametrised => "ok-unparam"
  | .repositoryModified => "repo-modified"
  | .failed => "error"
  | .returnsNothing => "returns-none"
  | .unstable => "unstable"
  | .returnsInput => "returns-input"
  | .tooFast => "too-fast"
  | .mostlyElsewhere => "low-repo-time"
  | .ignoresParams => "param-invariant"

/-- Whether nothing has to be mended. -/
def isFine : Verdict → Bool
  | .ok => true
  | .unparametrised => true
  | _ => false

end Verdict

/-- The least of some numbers. -/
def least? : List Float → Option Float
  | [] => none
  | x :: xs => some (xs.foldl (fun a b => if b < a then b else a) x)

/-- The number in the middle of some numbers, or halfway between the two in the middle. -/
def median? (xs : List Float) : Option Float :=
  let ys := xs.mergeSort fun a b => decide (a ≤ b)
  let k := ys.length / 2
  if ys.length % 2 == 1 then ys[k]?
  else do return ((← ys[k - 1]?) + (← ys[k]?)) / 2

/-- What the document of a self-check says. -/
structure Findings where
  resultType : Option String
  stable : List String
  byParams : List String
  paramMarks : List String
  millis : List Float
  shares : List Float

namespace Findings

/-- The findings in the document of a self-check, which has to be an object. -/
def ofJson? : Json → Option Findings
  | .object fs =>
    let j := Json.object fs
    let numbers (key : String) := (j.field key).fields.filterMap fun f => f.2.float?
    some {
      resultType := (j.field "ret_type").text?
      stable := (j.field "fp_stable").items.filterMap Json.text?
      byParams := (j.field "fp_by_param").fields.filterMap fun f => f.2.text?
      paramMarks := (j.field "param_fps").items.filterMap Json.text?
      millis := numbers "repo_tt_ms"
      shares := numbers "repo_frac" }
  | _ => none

/-- Whether the bench gave no result. -/
def hasFailed (f : Findings) : Bool :=
  match f.resultType with
  | none => true
  | some type => type.startsWith "<"

/-- The verdict on a bench. The first complaint that applies counts. -/
def verdict (f : Findings) : Verdict :=
  if f.hasFailed then .failed
  else if f.resultType == some "NoneType" then .returnsNothing
  else if f.stable.eraseDups.length != 1 then .unstable
  else if f.stable.any fun s => f.paramMarks.contains s then .returnsInput
  else if (median? f.millis).any (· < 1) then .tooFast
  else if (least? f.shares).any (· < 0.5) then .mostlyElsewhere
  else if f.byParams.length < 2 then .unparametrised
  else if f.byParams.eraseDups.length == 1 then .ignoresParams
  else .ok

/-- The line for a bench in the list of self-checks. -/
def line (f : Findings) (name : String) (v : Verdict) : String :=
  "  " ++ (if v.isFine then " " else "*") ++ " " ++ Text.left 32 name ++ " " ++
    Text.left 16 v.word ++ " (" ++ f.resultType.getD "?" ++ ", repo " ++
    Decimal.fixed 0 ((least? f.shares).getD 0 * 100) ++ "%) " ++
    Decimal.fixed 1 ((median? f.millis).getD 0) ++ "ms"

end Findings

end Survey

end Justfile
