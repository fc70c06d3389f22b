import SyntaxLowering.Tally

/-!
# Sessions

A `Session` holds the rules in the order in which they are called, their statistics, and the
supply of names, from one tree to the next.
-/

namespace SyntaxLowering

/-- Rules together with what they keep between trees. -/
structure Session where
  rules : List Rule := []
  /-- One tally for each rule name. -/
  tallies : List Tally := []
  names : NameSupply := {}
  /-- How many replacements of replacements are visited in a row. -/
  maxRevisits : Nat := 32

/-- A lowered tree, the calls that led to it, and the session afterwards. -/
structure Run where
  tree : Node
  calls : List Call
  session : Session

namespace Session

/-- Adds a rule after the others. The statistics of its name start again. -/
def add (s : Session) (rule : Rule) : Session :=
  { s with
    rules := s.rules ++ [rule]
    tallies := s.tallies.filter (·.rule != rule.name) ++ [{ rule := rule.name }] }

/-- Orders the rules by descending priority; rules of one priority keep their order. -/
def sortByPriority (s : Session) : Session :=
  { s with rules := s.rules.mergeSort fun a b => b.priority ≤ a.priority }

/-- The session that calls some rules by priority. -/
def ofRules (rules : List Rule) (maxRevisits : Nat) : Session :=
  (rules.foldl add { maxRevisits }).sortByPriority

/-- Sets the statistics back to zero. -/
def clearTallies (s : Session) : Session :=
  { s with tallies := s.tallies.map fun t => { rule := t.rule } }

/-- Lowers a tree. Names that occur in it are not given to new variables. -/
def transform (s : Session) (file : Option FileId) (tree : Node) (tokens : Option (List Token)) :
    Run :=
  let ctx : Context := ⟨file, tokens, tree.variableNames⟩
  let progress := Pass.visit s.rules ctx s.maxRevisits tree s.names
  { tree := progress.value
    calls := progress.calls
    session := { s with
      tallies := s.tallies.map (·.count progress.calls)
      names := progress.names } }

/-- Lowers the tree of a file. -/
def run (s : Session) (file : FileId) (tree : Node) (tokens : List Token) : Run :=
  s.transform (some file) tree (some tokens)

/-- Lowers a tree of no file. Rules that need new names leave it alone. -/
def runDetached (s : Session) (tree : Node) (tokens : Option (List Token)) : Run :=
  s.transform none tree tokens

/-- The tallies in the order of rule names. -/
def report (s : Session) : List Tally :=
  s.tallies.mergeSort fun a b => a.rule ≤ b.rule

end Session

end SyntaxLowering
