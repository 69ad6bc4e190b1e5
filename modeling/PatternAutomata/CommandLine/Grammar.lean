/-!
# Command lines

A command takes switches and positional values.  A switch has a letter or a long name and may take a
value, which stands behind it or is attached to it; letters of switches without values can be put
together.  Two hyphens end the switches.  A value is looked at when the argument after it is read,
so of two mistakes the one that is noticed first is reported.
-/

namespace PatternAutomata.CommandLine

/-- Why a command line is not run. -/
inductive UsageError where
  | helpWanted
  | commandMissing
  | unknownCommand
  | unknownArgument
  | repeated        -- given twice
  | surplusValue    -- a value attached to a switch that takes none
  | invalidValue
  | argumentMissing
deriving DecidableEq, Repr

/-- What can be given on a command line. -/
inductive Parameter where
  | patternPath
  | patternText
  | inputText
  | input
  | inputsFile
  | kind
  | closure
  | format
  | color
  | verbose
  | output
  | compact
  | snapshotPath
  | help
deriving DecidableEq, Repr

/-- What happens when a switch is given. -/
inductive Action where
  | single     -- it takes a value and may be given once
  | repeatable -- it takes a value each time
  | flag       -- it takes no value and may be given once
  | counted    -- it takes no value and is counted
  | showHelp   -- it ends the reading
deriving DecidableEq, Repr

def Action.takesValue : Action → Bool
  | single | repeatable => true
  | flag | counted | showHelp => false

/-- A parameter of a command: a switch with its names, or a positional value, which has none. -/
structure Slot where
  parameter : Parameter
  short : Option Char := none
  long : Option String := none
  action : Action := .single
  /-- Whether its values may begin with a hyphen. -/
  hyphens : Bool := false
  /-- Which values it takes. -/
  allowed : String → Bool := fun _ => true

/-- The parameters of a command. -/
structure Grammar where
  switches : List Slot
  positionals : List Slot
  /-- The parameters that have to be given. -/
  required : List Parameter := []

/-- What was read of a command line. -/
structure Reading where
  /-- The values given, in order; what takes no value has the empty one. -/
  given : List (Parameter × String) := []
  /-- The parameter read last, and its value if that was read. -/
  pending : Option (Slot × Option String) := none
  /-- The number of positional values read. -/
  position : Nat := 0
  /-- Whether the switches have ended. -/
  ended : Bool := false

namespace Reading

def values (reading : Reading) (parameter : Parameter) : List String :=
  reading.given.filterMap fun entry => if entry.1 = parameter then some entry.2 else none

def value? (reading : Reading) (parameter : Parameter) : Option String :=
  (reading.values parameter).head?

def has (reading : Reading) (parameter : Parameter) : Bool :=
  (reading.value? parameter).isSome

def give (reading : Reading) (slot : Slot) (value : String) : Except UsageError Reading :=
  if slot.action = .showHelp then .error .helpWanted
  else if (slot.action = .single || slot.action = .flag) && reading.has slot.parameter then
    .error .repeated
  else if !slot.allowed value then .error .invalidValue
  else .ok { reading with given := reading.given ++ [(slot.parameter, value)] }

def settle (reading : Reading) : Except UsageError Reading :=
  match reading.pending with
  | none => .ok reading
  | some (_, none) => .error .invalidValue
  | some (slot, some value) => { reading with pending := none }.give slot value

def waiting? (reading : Reading) : Option Slot :=
  match reading.pending with
  | some (slot, none) => some slot
  | _ => none

end Reading

namespace Grammar

def nextPositional? (grammar : Grammar) (reading : Reading) : Option Slot :=
  grammar.positionals[reading.position]?

def readPositional (grammar : Grammar) (reading : Reading) (arg : String) :
    Except UsageError Reading :=
  match grammar.nextPositional? reading with
  | none => .error .unknownArgument
  | some slot => do
    let settled ← reading.settle
    return { settled with pending := some (slot, some arg), position := settled.position + 1 }

/-- Reads a value: that of the switch that waits for one, or else a positional one. -/
def readValue (grammar : Grammar) (reading : Reading) (arg : String) :
    Except UsageError Reading :=
  match reading.waiting? with
  | some slot => .ok { reading with pending := some (slot, some arg) }
  | none => grammar.readPositional reading arg

/-- Reads a switch with the value that is attached to it, if there is one. -/
def readSwitch (reading : Reading) (slot : Slot) (attached : Option String) :
    Except UsageError Reading :=
  match slot.action.takesValue, attached with
  | true, some value => do
    let settled ← reading.settle
    settled.give slot value
  | true, none => do
    let settled ← reading.settle
    return { settled with pending := some (slot, none) }
  | false, some _ => .error .surplusValue
  | false, none => do
    let settled ← reading.settle
    settled.give slot ""

def hyphensWanted (grammar : Grammar) (reading : Reading) : Bool :=
  (grammar.nextPositional? reading).any fun slot => slot.hyphens

def splitLong (text : List Char) : String × Option String :=
  match text.dropWhile (· ≠ '=') with
  | _ :: value => (String.ofList (text.takeWhile (· ≠ '=')), some (String.ofList value))
  | [] => (String.ofList text, none)

def readLong (grammar : Grammar) (reading : Reading) (arg : String) (text : List Char) :
    Except UsageError Reading :=
  let (name, attached) := splitLong text
  match grammar.switches.find? fun slot => slot.long = some name with
  | some slot => readSwitch reading slot attached
  | none =>
    if grammar.hyphensWanted reading then grammar.readValue reading arg
    else .error .unknownArgument

def short? (grammar : Grammar) (c : Char) : Option Slot :=
  grammar.switches.find? fun slot => slot.short = some c

/-- The value attached to a letter; an equals sign in front of it does not belong to it. -/
def attachedValue : List Char → Option String
  | [] => none
  | '=' :: value => some (String.ofList value)
  | value => some (String.ofList value)

def readShorts (grammar : Grammar) (reading : Reading) : List Char → Except UsageError Reading
  | [] => .ok reading
  | c :: rest =>
    match grammar.short? c with
    | none => .error .unknownArgument
    | some slot =>
      if slot.action.takesValue then readSwitch reading slot (attachedValue rest)
      else do
        let next ← readSwitch reading slot none
        grammar.readShorts next rest

def readArgument (grammar : Grammar) (reading : Reading) (arg : String) :
    Except UsageError Reading :=
  let taken := reading.waiting?.any fun slot => slot.hyphens
  if reading.ended then grammar.readPositional reading arg
  else if taken then grammar.readValue reading arg
  else
    match arg.toList with
    | ['-', '-'] => .ok { reading with ended := true }
    | '-' :: '-' :: text => grammar.readLong reading arg text
    | '-' :: c :: rest =>
      let letters := c :: rest
      if grammar.hyphensWanted reading && letters.any fun c => (grammar.short? c).isNone then
        grammar.readValue reading arg
      else grammar.readShorts reading letters
    | _ => grammar.readValue reading arg

def read (grammar : Grammar) (args : List String) : Except UsageError Reading := do
  let reading ← args.foldlM grammar.readArgument {}
  let settled ← reading.settle
  if grammar.required.all settled.has then return settled
  else throw .argumentMissing

end Grammar

end PatternAutomata.CommandLine
