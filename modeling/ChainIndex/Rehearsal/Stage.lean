import ChainIndex.Following
import ChainIndex.Rehearsal.Scene

/-!
# The stage

What a rehearsal has set up: the scene, one table, the parts on the bench, and at
most one engine, which is either at hand or left to run.

A handle is what callers hold of an engine.  As long as the engine is there, the
engine's own inbox says whether its handle is still held; once the engine has
gone, a handle that is still held knows only the phase published last.
-/

namespace ChainIndex

namespace Rehearsal

inductive Engine where
  | absent
  | idle (follower : Follower)
  /-- Left to run; the run may not have begun yet. -/
  | running (follower : Follower) (begun : Bool)

namespace Engine

def follower? : Engine → Option Follower
  | .absent => none
  | .idle follower | .running follower _ => some follower

def idle? : Engine → Option Follower
  | .idle follower => some follower
  | _ => none

def map (f : Follower → Follower) : Engine → Engine
  | .absent => .absent
  | .idle follower => .idle (f follower)
  | .running follower begun => .running (f follower) begun

end Engine

structure Bench where
  /-- Absent until the tips have been set. -/
  frontier : Option Frontier
  intake : Intake
  inbox : Inbox

/-- Who is listened to, and how many events are kept until they are read. -/
structure Listener where
  party : Party
  capacity : Nat

structure Stage where
  scene : Scene
  table : Table
  catalogue : Catalogue
  /-- The settings of the next engine. -/
  settings : Settings
  bench : Bench
  /-- How many events of the bench are kept. -/
  benchCapacity : Nat
  /-- The switch planned last. -/
  planned : Option Switch
  engine : Engine
  /-- The phase that a handle without an engine knows. -/
  orphan : Option Phase
  listener : Listener
  /-- What the listener has heard and not read, newest first. -/
  heard : List Event

namespace Stage

/-- The stage before the first step.  The bench is listened to from the start, so
there must be room for its events. -/
def begin (chain : Chain) (catalogue : Catalogue) (settings : Settings) : Except Halt Stage := do
  Feed.allot settings.eventCapacity
  return {
    scene := .ofChain chain
    table := .empty
    catalogue := catalogue
    settings := settings
    bench := ⟨none, .idle settings.groupSize settings.highWater, .ofCapacity 0⟩
    benchCapacity := settings.eventCapacity
    planned := none
    engine := .absent
    orphan := none
    listener := ⟨.bench, settings.eventCapacity⟩
    heard := [] }

/-!
# Events
-/

def read (stage : Stage) : List Feed.Heard × Stage :=
  (Feed.read stage.listener.capacity stage.heard.reverse, { stage with heard := [] })

def adopt (stage : Stage) (party : Party) (world : World Scene) : Stage :=
  let events := world.course.filterMap Entry.event?
  { stage with
    scene := world.outside
    table := world.table
    heard := if stage.listener.party = party then events ++ stage.heard else stage.heard }

def world (stage : Stage) (follower : Follower) : World Scene :=
  { toFollower := follower, outside := stage.scene, table := stage.table, course := [] }

def host (stage : Stage) (party : Party) : Host Scene :=
  Scene.host party stage.catalogue

/-!
# Letting a party act
-/

def onBench (stage : Stage) (frontier : Frontier) (act : Act Scene α) :
    Except Halt α × Stage :=
  let follower := ⟨frontier, stage.bench.intake, stage.bench.inbox, .idle⟩
  let (result, after) := act.perform (stage.world follower)
  let bench :=
    { frontier := stage.bench.frontier.map fun _ => after.frontier
      intake := after.intake
      inbox := after.inbox }
  (result, { stage.adopt .bench after with bench := bench })

def onEngine (stage : Stage) (follower : Follower) (act : Act Scene α) :
    Except Halt α × Follower × Stage :=
  let (result, after) := act.perform (stage.world follower)
  (result, after.toFollower, stage.adopt .engine after)

/-- The engine goes; its handle, if held, keeps the phase published last. -/
def dismiss (stage : Stage) (follower : Follower) : Stage :=
  { stage with
    engine := .absent
    orphan := if follower.inbox.attached then some follower.phase else none }

def dismissEngine (stage : Stage) : Stage :=
  match stage.engine.follower? with
  | some follower => stage.dismiss follower
  | none => stage

/-- Drops what engine there is and starts another.  While it is being started,
signals to the engine find nobody, but the old handle may be let go. -/
def openEngine (stage : Stage) (settings : Option Settings) : Except Halt Unit × Stage :=
  let stage := stage.dismissEngine
  let stage := { stage with settings := settings.getD stage.settings }
  let nobody : Follower :=
    { Follower.fresh stage.settings default with
      inbox := { Inbox.ofCapacity 0 with attached := stage.orphan.isSome } }
  match stage.onEngine nobody (Following.start (stage.host .engine) stage.settings) with
  | (.ok (), follower, after) =>
      (.ok (), { after with
        engine := .idle follower
        orphan := none
        listener := ⟨.engine, stage.settings.eventCapacity⟩
        heard := [] })
  | (.error cause, follower, after) =>
      (.error cause, { after with orphan := after.orphan.filter fun _ => follower.inbox.attached })

/-!
# The running engine
-/

inductive Finish where
  | ended (phase : Phase)
  | halted (cause : Halt)

def settle (outcome : Except Halt Following.Rest × Follower × Stage) : Option Finish × Stage :=
  match outcome with
  | (.ok .waiting, follower, stage) => (none, { stage with engine := .running follower true })
  | (.ok (.ended phase), follower, stage) => (some (.ended phase), stage.dismiss follower)
  | (.error cause, follower, stage) => (some (.halted cause), stage.dismiss follower)

def proceed (stage : Stage) : Option Finish × Stage :=
  match stage.engine with
  | .running follower false =>
      settle (stage.onEngine follower (Following.run (stage.host .engine)))
  | .running follower true =>
      settle (stage.onEngine follower (Following.resume (stage.host .engine)))
  | _ => (none, stage)

/-!
# Mail
-/

def deliverTo (stage : Stage) (letter : Party × Signal) : Stage :=
  match letter with
  | (.bench, signal) =>
      { stage with bench := { stage.bench with inbox := stage.bench.inbox.receive signal } }
  | (.engine, signal) =>
      { stage with
        engine := stage.engine.map fun f => { f with inbox := f.inbox.receive signal }
        orphan := if signal = .release then none else stage.orphan }

def deliver (stage : Stage) : Stage :=
  stage.scene.mail.foldl deliverTo { stage with scene := { stage.scene with mail := [] } }

def handlePhase? (stage : Stage) : Option Phase :=
  match stage.engine.follower? with
  | some follower => if follower.inbox.attached then some follower.phase else none
  | none => stage.orphan

end Stage

end Rehearsal

end ChainIndex
