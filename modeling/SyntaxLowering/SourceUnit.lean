import SyntaxLowering.Settings
import SyntaxLowering.Source.Printer
import SyntaxLowering.Token.Scan

/-!
# Source units

A `SourceUnit` is one parsed file. A `Workbench` lowers units one after the other with one
session.
-/

namespace SyntaxLowering

/-- One parsed file. -/
structure SourceUnit where
  path : FileId
  source : Option String := none
  tokens : Option (List Token) := none
  tree : Node
deriving DecidableEq, Repr

/-- The tokens of a unit. If it comes without, its source text is scanned. -/
def SourceUnit.tokenStream (u : SourceUnit) : List Token :=
  match u.tokens, u.source with
  | some tokens, _ => tokens
  | none, some source => scan source
  | none, none => []

/-- A unit after the rules have run over it. -/
structure LoweredUnit where
  path : FileId
  source : Option String
  tokens : List Token
  tree : Node
  /-- Whether the tree differs from the one that was given, in form, spans or marks. -/
  changed : Bool
  /-- Whether to copy source text where it is still valid. -/
  preserveFormatting : Bool
deriving DecidableEq, Repr

namespace LoweredUnit

/-- The text of the unit. -/
def render (u : LoweredUnit) : String :=
  match u.source, u.preserveFormatting with
  | some source, true => (Printer.withSource source u.tokens).print u.tree
  | _, _ => u.tree.toSource

/-- The unit as input for further tools. -/
def toUnit (u : LoweredUnit) : SourceUnit :=
  ⟨u.path, u.source, some u.tokens, u.tree⟩

end LoweredUnit

/-- A session for whole units. -/
structure Workbench where
  session : Session
  preserveFormatting : Bool := true

namespace Workbench

/-- A new workbench as the settings say. -/
def ofSettings (s : Settings) : Except SettingsError Workbench := do
  return ⟨← s.session, s.preserveFormatting⟩

/-- The workbench of the usual settings. -/
def usual : Workbench where
  session :=
    { rules := Settings.catalog {}
      tallies := (Settings.catalog {}).map ({ rule := ·.name }) }

/-- Runs the rules over one unit. -/
def process (w : Workbench) (u : SourceUnit) : LoweredUnit × Workbench :=
  let tokens := u.tokenStream
  let run := w.session.run u.path u.tree tokens
  ({ path := u.path
     source := u.source
     tokens := tokens
     tree := run.tree
     changed := run.tree != u.tree
     preserveFormatting := w.preserveFormatting },
   { w with session := run.session })

end Workbench

end SyntaxLowering
