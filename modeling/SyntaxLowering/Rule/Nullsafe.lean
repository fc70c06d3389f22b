import SyntaxLowering.Rule.Basic

/-!
# Lowering the nullsafe operator

`o?->m(args)` becomes `(T = o) ? T->m(args) : null` with a new variable `T`, and likewise for
properties. The strict form compares `(T = o) !== null` instead of testing for truth.
-/

namespace SyntaxLowering.Nullsafe

/-- The stem of the temporaries if nothing else is asked for. -/
def defaultStem : String := "nullsafeVariable"

/-- A nullsafe access, as its object and the plain access to another object. -/
def access? : Form Node → Option (Node × (Node → Form Node))
  | .nullsafeMethodCall object method args => some (object, fun o => .methodCall o method args)
  | .nullsafePropertyFetch object property => some (object, fun o => .propertyFetch o property)
  | _ => none

/-- The condition under which the access is made. -/
def guard (strict : Bool) (temp object : Node) : Node :=
  let assigned := Node.synthesized (.assign temp object)
  if strict then Node.synthesized (.notIdentical assigned Node.null) else assigned

/-- The ternary that evaluates the object once and makes the access only if it is not null. -/
def lowered (strict : Bool) (temp object : Node) (plain : Node → Form Node) : Node :=
  Node.synthesized
    (.ternary (guard strict temp object) (Node.synthesized (plain temp)) Node.null)

/-- The rule with a given stem and form of the test. -/
def rule (stem : String) (strict : Bool) : Rule where
  name := "NullsafeToTernary"
  description := "Change nullsafe operator to ternary operator"
  kinds := [.nullsafeMethodCall, .nullsafePropertyFetch]
  sample := some {
    before := "$dateAsString = $booking->getStartDate()?->asDateTimeString();"
    after := "$dateAsString = ($nullsafeVariable1 = $booking->getStartDate()) ? " ++
      "$nullsafeVariable1->asDateTimeString() : null;" }
  call ctx node names :=
    match access? node.form with
    | none => .none node names
    | some (object, plain) =>
      match ctx.freshVariable names stem with
      | none => .none node names
      | some (temp, names) => .replace (lowered strict temp object plain) names

end SyntaxLowering.Nullsafe
