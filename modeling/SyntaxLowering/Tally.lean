import SyntaxLowering.Pass

/-!
# Statistics of rules

A `Tally` counts what became of the calls of one rule name.
-/

namespace SyntaxLowering

/-- How often rules of one name were called and what the calls did. -/
structure Tally where
  rule : String
  applications : Nat := 0
  mutations : Nat := 0
  replacements : Nat := 0
deriving DecidableEq, Repr

namespace Tally

/-- The calls that changed anything. -/
def changes (t : Tally) : Nat :=
  t.mutations + t.replacements

/-- The share of calls that changed anything, 0 without calls. -/
def changeRate (t : Tally) : Float :=
  if t.applications = 0 then 0.0 else Float.ofNat t.changes / Float.ofNat t.applications

/-- The tally after some more calls; those of other names do not count. -/
def count (t : Tally) (calls : List Call) : Tally :=
  let own := calls.filter (·.rule.name == t.rule)
  { t with
    applications := t.applications + own.length
    mutations := t.mutations + own.countP (·.outcome == .mutated)
    replacements := t.replacements + own.countP (·.outcome == .replaced) }

end Tally

end SyntaxLowering
