import Justfile.Datum

/-!
# Traces of a parse

A parser can tell which of its rules succeeded, and with what value, even where the text is later
read in another way. Who listens is a parameter: `Unit` forgets everything, a `Trace` keeps it.
-/

namespace Justfile.Parsing

/-- A rule that succeeded and the value it gave. -/
structure Event where
  rule : String
  value : Datum

/-- The text of an event. -/
def Event.text (e : Event) : String :=
  e.rule ++ " \"" ++ e.value.display ++ "\""

/-- What can listen to a parse. The event is only built if the listener wants it. -/
class Listener (ω : Type) where
  hear : ω → (Unit → Event) → ω

/-- Nobody listens. -/
instance : Listener Unit where
  hear _ _ := ()

/-- The events of a parse, last one first. -/
structure Trace where
  events : List Event

instance : Listener Trace where
  hear t e := ⟨e () :: t.events⟩

/-- The trace before the first event. -/
def Trace.empty : Trace := ⟨[]⟩

/-- The events of a trace in order, one after the other with a line feed after each. -/
def Trace.text (t : Trace) : String :=
  t.events.reverse.foldl (fun out e => out ++ e.text ++ "\n") ""

end Justfile.Parsing
