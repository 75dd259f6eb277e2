import ObjectCatalog.Text.Integer
import ObjectCatalog.Text.Utf8

/-!
# The command line

The words of a command line set options and switches. An option takes its value from behind an
equals sign or from the next word; a value is only read once the next option, switch or the end is
reached, so a word that is not known is reported before a bad value in front of it.

* `Parameter`, `Switch`: options with a value and without.
* `Arguments.read`: the arguments of a command line, or why there are none.
-/

namespace ObjectCatalog

/-- An option with a value. -/
inductive Parameter
  | host
  | tcpPort
  | databaseUrl
  | minPartSize
  | maxParts
  | loopBatchSize
  deriving DecidableEq

namespace Parameter

/-- All options with a value. -/
def all : List Parameter := [host, tcpPort, databaseUrl, minPartSize, maxParts, loopBatchSize]

/-- The word for an option, after two hyphens. -/
def word : Parameter → String
  | host => "host"
  | tcpPort => "port"
  | databaseUrl => "database-url"
  | minPartSize => "min-part-size"
  | maxParts => "max-number-of-parts"
  | loopBatchSize => "loop-batch-size"

/-- What an option is for. -/
def help : Parameter → String
  | host => "Host of the operations endpoint"
  | tcpPort => "Port of the operations endpoint"
  | databaseUrl => "Database URL"
  | minPartSize => "Least part size in bytes"
  | maxParts => "Greatest number of parts"
  | loopBatchSize => "Rows in a batch of the segment loop"

end Parameter

/-- An option without a value. -/
inductive Switch
  | disableServerSideCopy
  | validatePlainSize
  | migrate
  | runLoop
  | cleanup
  | help
  | version
  deriving DecidableEq

namespace Switch

/-- All options without a value. -/
def all : List Switch :=
  [disableServerSideCopy, validatePlainSize, migrate, runLoop, cleanup, help, version]

/-- The word for an option, after two hyphens. -/
def word : Switch → String
  | disableServerSideCopy => "disable-server-side-copy"
  | validatePlainSize => "validate-plain-size"
  | migrate => "migrate"
  | runLoop => "run-loop"
  | cleanup => "cleanup"
  | help => "help"
  | version => "version"

/-- What an option is for. -/
def purpose : Switch → String
  | disableServerSideCopy => "Do not read the segments of copies through their ancestors"
  | validatePlainSize => "Refuse remote segments without a plain size"
  | migrate => "Create the tables and exit"
  | runLoop => "Run the segment loop once with the tally and exit"
  | cleanup => "Delete expired objects and abandoned uploads and exit"
  | help => "Print help"
  | version => "Print version"

end Switch

/-- Why a command line yields no arguments. The last two are requests and no mistakes. -/
inductive UsageError
  | unknownArgument
  | tooManyValues
  | invalidValue
  | argumentConflict
  | valueValidation
  | invalidText
  | displayHelp
  | displayVersion
  deriving DecidableEq

namespace UsageError

/-- The name of a kind of usage error. -/
def kind : UsageError → String
  | unknownArgument => "UnknownArgument"
  | tooManyValues => "TooManyValues"
  | invalidValue => "InvalidValue"
  | argumentConflict => "ArgumentConflict"
  | valueValidation => "ValueValidation"
  | invalidText => "InvalidUtf8"
  | displayHelp => "DisplayHelp"
  | displayVersion => "DisplayVersion"

/-- Whether a command line only asks for information. -/
def isRequest (e : UsageError) : Bool := e = displayHelp || e = displayVersion

end UsageError

/-- The arguments of a command line. -/
structure Arguments where
  host : Option String := none
  tcpPort : Option Int := none
  databaseUrl : Option String := none
  minPartSize : Option Int := none
  maxParts : Option Int := none
  loopBatchSize : Option Int := none
  switches : List Switch := []
  deriving DecidableEq

namespace Arguments

/-- Whether an option has a value. -/
def has (a : Arguments) : Parameter → Bool
  | .host => a.host.isSome
  | .tcpPort => a.tcpPort.isSome
  | .databaseUrl => a.databaseUrl.isSome
  | .minPartSize => a.minPartSize.isSome
  | .maxParts => a.maxParts.isSome
  | .loopBatchSize => a.loopBatchSize.isSome

/-- Whether a switch is given. -/
def isOn (a : Arguments) (s : Switch) : Bool := a.switches.contains s

/-- Reads the value of a number. -/
def number (r : IntegerRange) (text : String) : Except UsageError Int :=
  match r.read text with
  | .ok n => pure n
  | .error _ => throw .valueValidation

/-- Reads the number an endpoint is bound to: a signed number that has to fit 16 bits without a
sign. -/
def portNumber (text : String) : Except UsageError Int := do
  let n ← number .signed64 text
  if IntegerRange.unsigned16.holds n then pure n else throw .valueValidation

/-- Gives an option its value, once. -/
def assign (a : Arguments) (p : Parameter) (value : Bytes) : Except UsageError Arguments := do
  if a.has p then throw .argumentConflict
  match Utf8.decode? value with
  | none => throw .invalidText
  | some text =>
    match p with
    | .host => return { a with host := some text }
    | .databaseUrl => return { a with databaseUrl := some text }
    | .tcpPort => return { a with tcpPort := some (← portNumber text) }
    | .minPartSize => return { a with minPartSize := some (← number .signed64 text) }
    | .maxParts => return { a with maxParts := some (← number .unsigned64 text) }
    | .loopBatchSize => return { a with loopBatchSize := some (← number .unsigned64 text) }

/-- Turns a switch on, once. -/
def turnOn (a : Arguments) : Switch → Except UsageError Arguments
  | .help => throw .displayHelp
  | .version => throw .displayVersion
  | s => if a.isOn s then throw .argumentConflict else pure { a with switches := a.switches ++ [s] }

/-- The number of switches that choose what to do. -/
def modeCount (a : Arguments) : Nat :=
  [Switch.migrate, .runLoop, .cleanup].countP a.isOn

end Arguments

/-- A command line under way. -/
structure CommandLine where
  given : Arguments := {}
  /-- The option named last, with its value if there was one. -/
  pending : Option (Parameter × Option Bytes) := none
  deriving DecidableEq

namespace CommandLine

/-- Reads the value of the option named last. -/
def settle (l : CommandLine) : Except UsageError Arguments :=
  match l.pending with
  | none => pure l.given
  | some (_, none) => throw .invalidValue
  | some (p, some value) => l.given.assign p value

/-- Reads a switch. -/
def readSwitch (l : CommandLine) (s : Switch) : Except UsageError CommandLine := do
  let given ← l.settle
  return { given := ← given.turnOn s }

/-- The part before the first equals sign, and the part after it. -/
def splitValue : Bytes → Bytes × Option Bytes
  | [] => ([], none)
  | b :: rest =>
    if b = 0x3d then ([], some rest)
    else
      let (name, value) := splitValue rest
      (b :: name, value)

/-- Reads a word that begins with two hyphens. -/
def readLong (l : CommandLine) (rest : Bytes) : Except UsageError CommandLine := do
  let (name, value) := splitValue rest
  match Parameter.all.find? fun p => Utf8.encode p.word = name, value with
  | some p, none => return ⟨← l.settle, some (p, none)⟩
  | some p, some value => return { given := ← (← l.settle).assign p value }
  | none, value =>
    match Switch.all.find? fun s => Utf8.encode s.word = name, value with
    | some s, none => l.readSwitch s
    | some _, some _ => throw .tooManyValues
    | none, _ => throw .unknownArgument

/-- Reads a word that begins with one hyphen and a letter. -/
def readShort (l : CommandLine) (letter : UInt8) : Except UsageError CommandLine :=
  if letter = 0x68 then l.readSwitch .help
  else if letter = 0x56 then l.readSwitch .version
  else throw .unknownArgument

/-- Reads a word. A word that is neither option nor switch is the value of the option named last. -/
def readWord (l : CommandLine) : Bytes → Except UsageError CommandLine
  | 0x2d :: 0x2d :: rest => l.readLong rest
  | 0x2d :: letter :: _ => l.readShort letter
  | value =>
    match l.pending with
    | some (p, none) => pure { l with pending := some (p, some value) }
    | _ => throw .unknownArgument

/-- The word after which there are no options. -/
def endOfOptions : Bytes := [0x2d, 0x2d]

/-- Reads words up to the end. -/
def readWords : CommandLine → List Bytes → Except UsageError Arguments
  | l, [] => l.settle
  | l, w :: rest =>
    if w = endOfOptions then
      if rest.isEmpty then l.settle else throw .unknownArgument
    else do readWords (← l.readWord w) rest

end CommandLine

/-- Reads the words of a command line. -/
def Arguments.read (words : List Bytes) : Except UsageError Arguments := do
  let given ← CommandLine.readWords {} words
  if 1 < given.modeCount then throw .argumentConflict
  return given

end ObjectCatalog
