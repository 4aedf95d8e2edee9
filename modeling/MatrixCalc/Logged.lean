import MatrixCalc.Error
import MatrixCalc.Event

/-!
# Computations with a log

A `Logged` computation returns a value or an error, and in both cases the events that were
recorded on the way.
-/

namespace MatrixCalc

/-- A computation that may fail and records events; the log survives a failure. -/
abbrev Logged (α : Type) := EStateM Error (List Event) α

namespace Logged

/-- Records an event behind the ones recorded so far. -/
def record (e : Event) : Logged Unit := modify (· ++ [e])

/-- A plain result, with nothing recorded. -/
def ofExcept {α : Type} : Except Error α → Logged α
  | .ok value => pure value
  | .error e => throw e

/-- The result and the recorded events. -/
def finish {α : Type} (computation : Logged α) : Except Error α × List Event :=
  match computation.run [] with
  | .ok value log => (.ok value, log)
  | .error e log => (.error e, log)

end Logged

end MatrixCalc
