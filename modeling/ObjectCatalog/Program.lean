import ObjectCatalog.Configuration
import ObjectCatalog.Deletion.Sweep
import ObjectCatalog.Operations

/-!
# The program

One run of the program: it reads its configuration and then creates the tables, runs the segment
loop, cleans up, or goes into operation.

* `Catalog.perform`: what a mode does.
* `Program.run`: a run on tables, with its exit code and what it prints.
-/

namespace ObjectCatalog

/-- What a mode does before the program exits or goes into operation, and what it reports. -/
def Catalog.perform (now : Instant) (c : Configuration) : Mode → Catalog.Action (Option Json)
  | .serve => return none
  | .migrate => do
    createTables
    return none
  | .runLoop => do
    let (_, registry) ← runTally now c.loopBatchSize.toNat .empty
    return some registry.toJson
  | .cleanup => do
    let _ ← deleteExpired now c.loopBatchSize.toNat
    let inactiveSince := now.addMinutes (-c.settings.zombieDeadlineMinutes)
    let _ ← deleteZombies now (some inactiveSince) c.loopBatchSize.toNat
    return none

/-- Why a program ends without having done its work. -/
inductive Failure
  | start (fault : StartFault)
  | work (error : Error)
  deriving DecidableEq

namespace Failure

/-- The exit code of a program that fails: 2 for a wrong command line, 101 for a panic, 1 for all
else. A command line that asks for information is not wrong. -/
def exitCode : Failure → UInt32
  | start (.usage why) => if why.isRequest then 0 else 2
  | work .capacityOverflow => 101
  | start (.environment _) | work _ => 1

/-- The wording of a failure. -/
def text : Failure → String
  | start (.usage why) => why.kind
  | start (.environment fault) => fault.text
  | work error => error.message

end Failure

/-- The end of a run. -/
structure Run where
  /-- What was reported, or why the run failed. -/
  outcome : Except Failure (Option Json)
  /-- The tables that the run leaves. -/
  store : Option Store

namespace Run

/-- The exit code of a run. -/
def exitCode (r : Run) : UInt32 :=
  match r.outcome with
  | .ok _ => 0
  | .error failure => failure.exitCode

/-- What a run reported. -/
def report? (r : Run) : Option Json := r.outcome.toOption.join

end Run

/-- A run of the program on tables. -/
def Program.run (now : Instant) (words : List Bytes) (env : Environment) (store : Option Store) :
    Run :=
  match Configuration.read words env with
  | .error fault => ⟨.error (.start fault), store⟩
  | .ok (c, mode) =>
    let (outcome, catalog) := (Catalog.openOn c.settings store).run (Catalog.perform now c mode)
    ⟨outcome.mapError .work, catalog.store⟩

end ObjectCatalog
