import SyntaxLowering.SourceUnit

/-!
# Batches of units

`Workbench.processAll` loads, lowers and hands on unit after unit. A unit that cannot be loaded,
or whose result is refused, is recorded in the summary and does not affect the others.
-/

namespace SyntaxLowering

/-- Why a unit could not be loaded. -/
inductive LoadError where
  /-- The file is missing or holds no text. -/
  | unreadable
  /-- The text is not a source unit. -/
  | malformed
deriving DecidableEq, Repr

/-- What failed for one path of a batch. -/
inductive Failure where
  | load (path : String) (error : LoadError)
  | refused (path reason : String)
deriving DecidableEq, Repr

/-- The message for the user. -/
def Failure.message : Failure → String
  | load path .unreadable => "Error processing " ++ path ++ ": Failed to read " ++ path
  | load path .malformed => "Error processing " ++ path ++ ": Failed to parse source unit " ++ path
  | refused path reason => "Error writing " ++ path ++ ": " ++ reason

/-- What became of a batch. -/
structure Summary where
  processed : Nat := 0
  changed : Nat := 0
  /-- The failures in the order of the paths. -/
  failures : List Failure := []
deriving DecidableEq, Repr

namespace Summary

/-- Whether nothing failed. -/
def success (s : Summary) : Bool :=
  s.failures.isEmpty

/-- Counts a lowered unit. -/
def count (s : Summary) (u : LoweredUnit) : Summary :=
  { s with processed := s.processed + 1, changed := s.changed + if u.changed then 1 else 0 }

/-- Records a failure. -/
def fail (s : Summary) (failure : Failure) : Summary :=
  { s with failures := s.failures ++ [failure] }

end Summary

namespace Workbench

variable {m : Type → Type} [Monad m]

/-- Processes the unit at each path in order. `load` finds the unit of a path, and `sink` takes the
result or says why it does not. -/
def processAll (load : String → m (Except LoadError SourceUnit))
    (sink : LoweredUnit → m (Except String Unit)) :
    List String → Workbench → Summary → m (Summary × Workbench)
  | [], w, summary => return (summary, w)
  | path :: paths, w, summary => do
    match ← load path with
    | .error error => processAll load sink paths w (summary.fail (.load path error))
    | .ok unit =>
      let (result, w) := w.process unit
      let summary := summary.count result
      match ← sink result with
      | .ok () => processAll load sink paths w summary
      | .error reason => processAll load sink paths w (summary.fail (.refused path reason))

end Workbench

end SyntaxLowering
