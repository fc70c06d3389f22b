import SyntaxLowering.Session
import SyntaxLowering.Rule.Hoist
import SyntaxLowering.Rule.Nullsafe
import SyntaxLowering.Rule.TrailingComma
import SyntaxLowering.Text.Quoted

/-!
# Settings

`Settings` choose the rules of a session and how they name temporaries. `Settings.validate` checks
the stems, and `Settings.selectRules` finds the rules in the catalog.
-/

namespace SyntaxLowering

/-- What a user can choose. -/
structure Settings where
  /-- Stem of the temporaries of nullsafe accesses. -/
  nullsafeStem : String := Nullsafe.defaultStem
  /-- Stem of the temporaries of hoisted objects. -/
  hoistStem : String := Hoist.defaultStem
  /-- Compare with `null` instead of testing for truth. -/
  strictNullCheck : Bool := false
  /-- How many replacements of replacements are visited in a row. -/
  maxRevisits : Nat := 32
  /-- Names of the rules to apply; all of them if absent. -/
  rules : Option (List String) := none
  /-- Copy what was not changed from the source text. -/
  preserveFormatting : Bool := true
deriving DecidableEq, Repr

/-- Why settings are refused. -/
inductive SettingsError where
  /-- The stem given in a field cannot start a variable name. -/
  | invalidStem (field stem : String)
  /-- Both rules would use the same stem. -/
  | equalStems
  /-- No rule has this name. -/
  | unknownRule (name : String)
deriving DecidableEq, Repr

/-- The message for the user. -/
def SettingsError.message : SettingsError → String
  | invalidStem field stem =>
    "Configuration error: " ++ field ++ " must be a valid variable name, got " ++ Text.quoted stem
  | equalStems => "Configuration error: nullsafe and hoisted variable prefixes must differ"
  | unknownRule name => "Unknown rule: " ++ name

/-- Whether a text is a variable name: an ASCII letter or underscore, then ASCII letters, digits
and underscores. -/
def isVariableName (s : String) : Bool :=
  match s.toList with
  | [] => false
  | c :: cs => (c.isAlpha || c == '_') && cs.all fun d => d.isAlphanum || d == '_'

namespace Settings

/-- Checks that temporaries get valid names and the two stems differ. -/
def validate (s : Settings) : Except SettingsError Unit := do
  unless isVariableName s.nullsafeStem do
    throw (.invalidStem "nullsafe_variable_prefix" s.nullsafeStem)
  unless isVariableName s.hoistStem do
    throw (.invalidStem "hoisted_variable_prefix" s.hoistStem)
  if s.nullsafeStem = s.hoistStem then throw .equalStems

/-- All rules, set up as the settings say. -/
def catalog (s : Settings) : List Rule :=
  [Hoist.rule s.hoistStem, Nullsafe.rule s.nullsafeStem s.strictNullCheck, TrailingComma.rule]

/-- The names of all rules. -/
def ruleNames : List String :=
  (catalog {}).map (·.name)

/-- The chosen rules in the order of the catalog, however often and in whatever order they are
chosen. -/
def selectRules (s : Settings) : Except SettingsError (List Rule) :=
  match s.rules with
  | none => .ok s.catalog
  | some chosen =>
    match chosen.find? (!ruleNames.contains ·) with
    | some name => .error (.unknownRule name)
    | none => .ok (s.catalog.filter (chosen.contains ·.name))

/-- A new session with the chosen rules. -/
def session (s : Settings) : Except SettingsError Session := do
  return Session.ofRules (← s.selectRules) s.maxRevisits

end Settings

end SyntaxLowering
