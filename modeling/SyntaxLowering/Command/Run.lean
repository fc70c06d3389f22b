import SyntaxLowering.Codec.Unit
import SyntaxLowering.Command.Arguments
import SyntaxLowering.Path

/-!
# Running the command line

`Command.run` carries out arguments on a `Host`, which gives access to files and the standard
output. It reads the settings, lowers the units one after the other, and writes the results.
-/

namespace SyntaxLowering.Command

/-- Access to files and the standard output. Failures come with a reason. -/
structure Host (m : Type → Type) where
  /-- The text of a file; `none` if it cannot be read. -/
  readText : String → m (Option String)
  /-- Creates a directory with all directories above it. -/
  createDirectories : String → m (Except String Unit)
  writeText : (path content : String) → m (Except String Unit)
  printLine : String → m Unit

/-- How a run ends. -/
structure Exit where
  code : Nat := 0
  /-- What is wrong with the arguments. -/
  usage : Option Stop := none
  /-- What failed for single units. -/
  failures : List Failure := []
  /-- What ended the run. -/
  error : Option String := none
deriving DecidableEq, Repr

/-- The name and version of the program. -/
def versionLine : String := "downlevel 0.1.0"

/-- A text filled up with spaces to some width. -/
def padRight (width : Nat) (s : String) : String :=
  s ++ String.ofList (List.replicate (width - s.length) ' ')

/-- A text whose further lines are indented by twelve spaces. -/
def hanging (s : String) : String :=
  String.join (s.toList.map fun c => if c = '\n' then "\n            " else c.toString)

/-- The lines that describe a rule. -/
def describe (rule : Rule) : List String :=
  (padRight 28 rule.name ++ " " ++ rule.description) ::
    match rule.sample with
    | none => []
    | some sample =>
      ["    before: " ++ hanging sample.before, "    after:  " ++ hanging sample.after]

/-- The output for a unit: its text, or the unit as JSON. -/
def content (asText : Bool) (u : LoweredUnit) : String :=
  if asText then u.render else u.toUnit.toJson.pretty

variable {m : Type → Type} [Monad m]

/-- Writes a result below a directory. -/
def writeBelow (host : Host m) (directory : String) (asText : Bool) (u : LoweredUnit) :
    m (Except String Unit) := do
  let target := Path.outputPath directory u.path asText
  let made ← match Path.parent? target with
    | some parent => host.createDirectories parent
    | none => pure (.ok ())
  match made with
  | .error reason => return .error reason
  | .ok () =>
    match ← host.writeText target (content asText u) with
    | .error reason => return .error ("Failed to write " ++ target ++ ": " ++ reason)
    | .ok () => return .ok ()

/-- Puts a result where the options say. -/
def deliver (host : Host m) (o : Options) (u : LoweredUnit) : m (Except String Unit) := do
  match o.output with
  | some directory => writeBelow host directory o.print u
  | none =>
    host.printLine (content o.print u)
    return .ok ()

/-- The settings to work with. Rules named on the command line take the place of all others. -/
def loadSettings (host : Host m) (o : Options) : m (Except String Settings) := do
  let loaded : Except String Settings ← match o.config with
    | none => pure (.ok {})
    | some path =>
      match Settings.ofFile (← host.readText path) with
      | .error _ => pure (.error ("Failed to load configuration " ++ path))
      | .ok settings => pure (.ok settings)
  return do
    let settings ← loaded
    let settings :=
      if o.rules.isEmpty then settings else { settings with rules := some o.rules }
    match settings.validate with
    | .error e => throw e.message
    | .ok () => return settings

/-- Lowers the units that the options name. -/
def lowerUnits (host : Host m) (o : Options) : m Exit := do
  match (← loadSettings host o) with
  | .error message => return { code := 1, error := some message }
  | .ok settings =>
    match Workbench.ofSettings settings with
    | .error e => return { code := 1, error := some e.message }
    | .ok bench =>
      let load (path : String) : m (Except LoadError SourceUnit) := do
        return SourceUnit.ofFile (← host.readText path)
      let (summary, _) ← bench.processAll load (deliver host o) o.units {}
      if summary.success then return {}
      else
        return {
          code := 1
          failures := summary.failures
          error := some (summary.failures.length.repr ++ " unit(s) failed") }

/-- Carries out arguments. -/
def run (host : Host m) (args : List String) : m Exit := do
  match Options.parse args with
  | .error .version =>
    host.printLine versionLine
    return {}
  | .error stop => return { code := 2, usage := some stop }
  | .ok o =>
    if o.listRules then
      (Settings.catalog {}).forM fun rule => (describe rule).forM host.printLine
      return {}
    else lowerUnits host o

end SyntaxLowering.Command
