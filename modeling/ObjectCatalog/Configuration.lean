import ObjectCatalog.Catalog
import ObjectCatalog.Options
import ObjectCatalog.Text.Escaped

/-!
# Configuration

A program gets its configuration from the command line and from environment variables; the command
line wins. Every variable of a number has to be one, also when the command line gives the number.

* `Environment.read`: what the variables say.
* `Configuration.ofArguments`: the configuration that arguments and variables give.
* `Configuration.read`: the configuration and the mode of a program, or what is wrong.
-/

namespace ObjectCatalog

/-- The name of the variable behind an option. -/
def Parameter.variableName : Parameter → String
  | host => "METABASE_HOST"
  | tcpPort => "METABASE_PORT"
  | databaseUrl => "METABASE_DATABASE_URL"
  | minPartSize => "METABASE_MIN_PART_SIZE"
  | maxParts => "METABASE_MAX_NUMBER_OF_PARTS"
  | loopBatchSize => "METABASE_LOOP_BATCH_SIZE"

/-- The environment variables that are set. -/
abbrev Environment := Parameter → Option Bytes

/-- What is wrong with a variable. -/
inductive VariableFault
  | notText (name : Parameter) (value : Bytes)
  | notInteger (name : Parameter) (value : String) (fault : IntegerFault)
  deriving DecidableEq

/-- The wording of a fault. -/
def VariableFault.text : VariableFault → String
  | notText v value =>
    let shown := Escaped.quote value
    s!"reading {v.variableName}: environment variable was not valid unicode: {shown}"
  | notInteger v value fault =>
    let shown := String.ofList ('\x60' :: value.toList ++ ['\x60'])
    s!"parsing {v.variableName} value {shown}: {fault.text}"

namespace Environment

/-- The text of a variable, or a default when it is not set or no text. -/
def text (env : Environment) (v : Parameter) (default : String) : String :=
  ((env v).bind Utf8.decode?).getD default

/-- The number of a variable, or a default when it is not set. -/
def number (env : Environment) (v : Parameter) (r : IntegerRange) (default : Int) :
    Except VariableFault Int :=
  match env v with
  | none => pure default
  | some value =>
    match Utf8.decode? value with
    | none => throw (.notText v value)
    | some text =>
      match r.read text with
      | .ok n => pure n
      | .error fault => throw (.notInteger v text fault)

end Environment

/-- What a program does. -/
inductive Mode
  | serve
  | migrate
  | runLoop
  | cleanup
  deriving DecidableEq

/-- The name of a mode. -/
def Mode.name : Mode → String
  | serve => "Serve"
  | migrate => "Migrate"
  | runLoop => "RunLoop"
  | cleanup => "Cleanup"

/-- The mode that arguments choose. -/
def Arguments.mode (a : Arguments) : Mode :=
  if a.isOn .migrate then .migrate
  else if a.isOn .runLoop then .runLoop
  else if a.isOn .cleanup then .cleanup
  else .serve

/-- The configuration of a program. -/
structure Configuration where
  host : String := "0.0.0.0"
  tcpPort : Int := 3000
  databaseUrl : String := "sqlite://./data/meta/metabase.db"
  loopBatchSize : Int := 2500
  settings : Settings := {}
  deriving DecidableEq

namespace Configuration

/-- The address of the operations endpoint. -/
def address (c : Configuration) : String := s!"{c.host}:{c.tcpPort}"

/-- The configuration of an environment. -/
def ofEnvironment (env : Environment) : Except VariableFault Configuration := do
  let c : Configuration := {}
  let host := env.text .host c.host
  let tcpPort ← env.number .tcpPort .unsigned16 c.tcpPort
  let databaseUrl := env.text .databaseUrl c.databaseUrl
  let minPartSize ← env.number .minPartSize .signed64 c.settings.minPartSize
  let maxParts ← env.number .maxParts .unsigned64 c.settings.maxParts
  let loopBatchSize ← env.number .loopBatchSize .unsigned64 c.loopBatchSize
  return {
    host, tcpPort, databaseUrl, loopBatchSize
    settings := { minPartSize, maxParts := maxParts.toNat } }

/-- A configuration with what arguments put in its place. -/
def withArguments (c : Configuration) (a : Arguments) : Configuration where
  host := a.host.getD c.host
  tcpPort := a.tcpPort.getD c.tcpPort
  databaseUrl := a.databaseUrl.getD c.databaseUrl
  loopBatchSize := a.loopBatchSize.getD c.loopBatchSize
  settings := { c.settings with
    minPartSize := a.minPartSize.getD c.settings.minPartSize
    maxParts := (a.maxParts.getD c.settings.maxParts).toNat
    serverSideCopy := !a.isOn .disableServerSideCopy
    validatePlainSize := a.isOn .validatePlainSize }

end Configuration

/-- Why a program does not start. -/
inductive StartFault
  | usage (why : UsageError)
  | environment (fault : VariableFault)
  deriving DecidableEq

/-- The configuration and the mode that arguments and variables give. -/
def Configuration.ofArguments (a : Arguments) (env : Environment) :
    Except VariableFault (Configuration × Mode) := do
  let c ← Configuration.ofEnvironment env
  return (c.withArguments a, a.mode)

/-- The configuration and the mode that words and variables give. The words are read first. -/
def Configuration.read (words : List Bytes) (env : Environment) :
    Except StartFault (Configuration × Mode) := do
  let arguments ← (Arguments.read words).mapError .usage
  (Configuration.ofArguments arguments env).mapError .environment

end ObjectCatalog
