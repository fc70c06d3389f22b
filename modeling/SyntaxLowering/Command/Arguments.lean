/-!
# Command line arguments

`Options.parse` reads the arguments from left to right and stops at the first that is wrong, or at
a question for the version. Options may stand before, between and after units; after `--` all
arguments are units.
-/

namespace SyntaxLowering.Command

/-- What the arguments ask for. -/
structure Options where
  units : List String := []
  config : Option String := none
  /-- The rules to run, in the order given. -/
  rules : List String := []
  /-- Write source text instead of JSON. -/
  print : Bool := false
  /-- The directory to write to instead of standard output. -/
  output : Option String := none
  listRules : Bool := false
  debug : Bool := false
deriving DecidableEq, Repr

/-- Why arguments are not carried out. -/
inductive Stop where
  /-- The version is asked for. -/
  | version
  | unknownOption (name : String)
  | missingValue (name : String)
  /-- A flag was given a value. -/
  | unexpectedValue (name : String)
  /-- An option that may be given once was given again. -/
  | repeated (name : String)
  | noUnits
deriving DecidableEq, Repr

/-- The message for the user. -/
def Stop.message : Stop → String
  | version => "the version is asked for"
  | unknownOption name => "unexpected argument " ++ name
  | missingValue name => "a value is required for " ++ name
  | unexpectedValue name => "no value is expected for " ++ name
  | repeated name => name ++ " cannot be used multiple times"
  | noUnits => "no units are given"

/-- Options that stand alone. -/
inductive Flag where
  | print | listRules | debug | version
deriving DecidableEq, Repr

/-- Options with a value. -/
inductive Setting where
  | config | rule | output
deriving DecidableEq, Repr

/-- The name of an option with a value. -/
def Setting.name : Setting → String
  | config => "--config"
  | rule => "--rule"
  | output => "--output"

/-- The option with a long name. -/
def longOption? (name : String) : Option (Flag ⊕ Setting) :=
  match name with
  | "print" => some (.inl .print)
  | "list-rules" => some (.inl .listRules)
  | "debug" => some (.inl .debug)
  | "version" => some (.inl .version)
  | "config" => some (.inr .config)
  | "rule" => some (.inr .rule)
  | "output" => some (.inr .output)
  | _ => none

/-- The option with a short name. -/
def shortOption? : Char → Option (Flag ⊕ Setting)
  | 'V' => some (.inl .version)
  | 'o' => some (.inr .output)
  | _ => none

/-- An argument by its shape. -/
inductive Argument where
  | unit (path : String)
  /-- The mark after which all arguments are units. -/
  | endOfOptions
  /-- A long option and the value that is attached to it. -/
  | long (name : String) (value : Option String)
  /-- Short options in a row. -/
  | short (first : Char) (rest : List Char)
deriving DecidableEq, Repr

/-- The shape of an argument. A single hyphen is a unit. -/
def Argument.ofText (s : String) : Argument :=
  match s.toList with
  | ['-', '-'] => endOfOptions
  | '-' :: '-' :: cs =>
    match cs.dropWhile (· != '=') with
    | [] => long (String.ofList cs) none
    | _ :: value => long (String.ofList (cs.takeWhile (· != '='))) (some (String.ofList value))
  | '-' :: c :: cs => short c cs
  | _ => unit s

namespace Options

/-- Adds a unit. -/
def addUnit (o : Options) (path : String) : Options :=
  { o with units := o.units ++ [path] }

/-- Sets a flag. -/
def setFlag (o : Options) : Flag → Except Stop Options
  | .version => .error .version
  | .print => if o.print then .error (.repeated "--print") else .ok { o with print := true }
  | .listRules =>
    if o.listRules then .error (.repeated "--list-rules") else .ok { o with listRules := true }
  | .debug => if o.debug then .error (.repeated "--debug") else .ok { o with debug := true }

/-- Gives an option its value. -/
def setValue (o : Options) (value : String) : Setting → Except Stop Options
  | .config =>
    if o.config.isSome then .error (.repeated "--config") else .ok { o with config := some value }
  | .output =>
    if o.output.isSome then .error (.repeated "--output") else .ok { o with output := some value }
  | .rule => .ok { o with rules := o.rules ++ [value] }

/-- Reads short options in a row. The first one with a value takes the rest as its value, after
an equals sign or not; it is returned if nothing is left for it. -/
def setShort (o : Options) : Char → List Char → Except Stop (Options × Option Setting)
  | c, cs =>
    match shortOption? c, cs with
    | none, _ => .error (.unknownOption (String.ofList ['-', c]))
    | some (.inr setting), [] => .ok (o, some setting)
    | some (.inr setting), '=' :: value => (o.setValue (String.ofList value) setting).map (·, none)
    | some (.inr setting), value => (o.setValue (String.ofList value) setting).map (·, none)
    | some (.inl flag), [] => (o.setFlag flag).map (·, none)
    | some (.inl flag), next :: rest =>
      match o.setFlag flag with
      | .error stop => .error stop
      | .ok o => o.setShort next rest
termination_by _ cs => cs.length

/-- Reads a long option. It is returned if it still needs a value. -/
def setLong (o : Options) (name : String) (value : Option String) :
    Except Stop (Options × Option Setting) :=
  match longOption? name, value with
  | none, _ => .error (.unknownOption ("--" ++ name))
  | some (.inl _), some _ => .error (.unexpectedValue ("--" ++ name))
  | some (.inl flag), none => (o.setFlag flag).map (·, none)
  | some (.inr setting), some value => (o.setValue value setting).map (·, none)
  | some (.inr setting), none => .ok (o, some setting)

/-- Reads one argument; `pending` is an option that waits for its value. -/
def read (o : Options) (pending : Option Setting) (arg : String) :
    Except Stop (Options × Option Setting) :=
  match Argument.ofText arg, pending with
  | .unit value, some setting => (o.setValue value setting).map (·, none)
  | _, some setting => .error (.missingValue setting.name)
  | .unit path, none => .ok (o.addUnit path, none)
  | .long name value, none => o.setLong name value
  | .short c cs, none => o.setShort c cs
  | .endOfOptions, none => .ok (o, none)

/-- Reads arguments one after the other. -/
def readAll : (args : List String) → (pending : Option Setting) → Options → Except Stop Options
  | [], some setting, _ => .error (.missingValue setting.name)
  | [], none, o => .ok o
  | arg :: args, pending, o =>
    match o.read pending arg with
    | .error stop => .error stop
    | .ok (o, pending) =>
      if arg = "--" then .ok (args.foldl addUnit o) else readAll args pending o

/-- Reads all arguments. There must be a unit unless the rules are asked for. -/
def parse (args : List String) : Except Stop Options :=
  match readAll args none {} with
  | .error stop => .error stop
  | .ok o => if o.units.isEmpty && !o.listRules then .error .noUnits else .ok o

end Options

end SyntaxLowering.Command
