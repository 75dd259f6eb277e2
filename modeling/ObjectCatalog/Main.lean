import Std.Time.DateTime.Timestamp
import ObjectCatalog.Program

/-!
# The command

The command reads its words, its variables and the clock, runs the program on tables in memory, and
prints the report. In operation it answers requests from standard input, a method and a path a line.
-/

namespace ObjectCatalog

/-- The time of the clock. -/
def currentInstant : IO Instant := do
  let stamp ← Std.Time.Timestamp.now
  return .ofNanos stamp.toNanosecondsSinceUnixEpoch.val

/-- The environment variables that are set. -/
def currentEnvironment : IO Environment := do
  let values ← Parameter.all.mapM fun p => do
    return (p, (← IO.getEnv p.variableName).map Utf8.encode)
  return fun p => (values.lookup p).join

/-- The lines of the help text. -/
def helpLines : List String :=
  ["Object and segment metadata engine", "", "Options:"] ++
    (Parameter.all.map fun p => s!"  --{p.word} <VALUE>  {p.help}") ++
    (Switch.all.map fun s => s!"  --{s.word}  {s.purpose}")

/-- Answers requests until the input ends. -/
partial def answerLines (input : IO.FS.Stream) (s : Service) : IO Unit := do
  let line ← input.getLine
  unless line.isEmpty do
    let words := line.trimAscii.toString.splitOn " "
    let (answer, s) := s.answer (← currentInstant) (words.headD "") (words.tail.headD "")
    IO.println s!"{answer.status}"
    if let some body := answer.body then
      IO.println body.pretty
    answerLines input s

/-- Goes into operation. -/
def operate (c : Configuration) (store : Option Store) : IO Unit := do
  IO.eprintln s!"operations endpoint of {c.address} on standard input"
  answerLines (← IO.getStdin) {
    catalog := .openOn c.settings store
    registry := .empty
    loopBatchSize := c.loopBatchSize.toNat }

/-- Prints what a run that failed has to say. -/
def printFailure : Failure → IO Unit
  | .start (.usage .displayHelp) => helpLines.forM fun l => IO.println l
  | .start (.usage .displayVersion) => IO.println "metabase 0.1.0"
  | failure => IO.eprintln s!"error: {failure.text}"

end ObjectCatalog

open ObjectCatalog in
/-- Runs the program once. -/
def main (args : List String) : IO UInt32 := do
  let words := args.map Utf8.encode
  let env ← currentEnvironment
  let run := Program.run (← currentInstant) words env none
  match run.outcome with
  | .error failure => printFailure failure
  | .ok report =>
    if let some json := report then
      IO.println json.pretty
    if let .ok (c, .serve) := Configuration.read words env then
      operate c run.store
  return run.exitCode
