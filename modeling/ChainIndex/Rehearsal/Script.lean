import ChainIndex.Index.Times
import ChainIndex.Rehearsal.Part
import ChainIndex.Rehearsal.Stage

/-!
# Scripts

A script is a list of steps, each of which asks one thing of the stage.  After
each step a running engine goes on for as long as it can, and then the stage is
looked at: what the listener has heard, what the journal has noted, where the
tips are and which phase is shown.

A step that fails does not end the script; one that is cut short does.
-/

namespace ChainIndex

namespace Rehearsal

inductive Step where
  | act (action : Action)
  | hook (hook : Hook)
  -- the chain
  | bestChain
  | getBlock (place : Lookup)
  | getHeader (hash : BlockHash)
  | bestHash
  | bestHeight
  | hashAt (height : UInt64)
  -- the table
  | batch (edits : List Edit)
  | get (key : Bytes)
  | scan (start : Bytes) (stop : Option Bytes)
  | scanStem (stem : Bytes)
  | snapshot
  | size
  -- the indexes
  | catalogue
  | edits (track : Track) (block : Block) (direction : Direction)
  | applyEdits (track : Track) (block : Block) (direction : Direction)
  | heightOf (hash : BlockHash)
  | blockAt (height : UInt64)
  | timeOf (hash : BlockHash)
  | between (first final : Int64)
  -- the bench
  | tipsGenesis (pointer : Pointer)
  | tipsLoad (genesis : Pointer)
  | tipEdit (track : Track) (pointer : Pointer)
  | tipsCommit (track : Track) (edits : List Edit) (pointer : Pointer)
  | ancestor (old new : BlockHash)
  | trackCommit (track : Track) (block : Block) (direction : Direction)
  | rewind (track : Track) (ancestor : BlockHash)
  | replay (track : Track) (hashes : List BlockHash)
  | align
  | plan (forkSeen : Bool)
  | carryOut (switch : Option Switch)
  | forward
  | inFlight
  | announce (block : Block)
  -- the engine
  | start (settings : Option Settings)
  | sync
  | engineShutdown
  | settings
  | dropEngine
  | subscribe
  | waitFor (phase : Phase)
  | run
  /-- A step whose settings cannot be read. -/
  | unreadable

inductive Finding where
  | nothing
  | text (text : String)
  | texts (texts : List String)
  | height (height : UInt64)
  | time (time : Int64)
  | count (count : Nat)
  | bytes (bytes : Bytes)
  | block (block : Block)
  | header (header : Header)
  | pointer (pointer : Pointer)
  | entries (entries : Entries)
  | edits (edits : List Edit)
  | size (entries : Nat)
  | catalogue (concurrent serial : List String)
  | trackTip (track : Track) (tip : Pointer)
  | switch (switch : Switch)
  | outcome (outcome : Forward.Outcome) (inFlight : Nat)
  | settings (settings : Settings)

def Finding.ofOption (f : α → Finding) : Option α → Finding
  | none => .nothing
  | some a => f a

inductive Trouble where
  | halt (cause : Halt)
  /-- The step needs a part that is not there. -/
  | missing (part : String)
  | unreadable

abbrev Result := Except Trouble Finding

namespace Stage

def resultOf (f : α → Finding) : Except Halt α → Result
  | .ok a => .ok (f a)
  | .error cause => .error (.halt cause)

/-!
# Steps on the scene and the table
-/

/-- An action as a step of its own.  Signals to the engine go through the handle,
which may be missing or outlive the engine. -/
def act (stage : Stage) (action : Action) : Result × Stage :=
  let done (stage : Stage) : Result × Stage :=
    let (answer, scene) := stage.scene.act action
    (resultOf (fun _ => .nothing) answer, { stage with scene })
  match action with
  | .notify _ =>
      match stage.handlePhase?, stage.engine.follower? with
      | none, _ => (.error (.missing "handle"), stage)
      | some _, none => (.error (.halt (.fault (.aborted "engine stopped"))), stage)
      | some _, some _ => done stage
  | .shutdown =>
      if stage.handlePhase?.isSome then done stage else (.error (.missing "handle"), stage)
  | _ => done stage

def ask (stage : Stage) (f : α → Finding) (outcome : Except Halt α × Scene) : Result × Stage :=
  (resultOf f outcome.1, { stage with scene := outcome.2 })

def hashAt (stage : Stage) (height : UInt64) : Result × Stage :=
  match stage.scene.blockAt (.byHeight height) with
  | (.error (.fault (.notFound _)), scene) => (.ok .nothing, { stage with scene := scene })
  | outcome => stage.ask (fun block => .text block.hash) outcome

def batch (stage : Stage) (edits : List Edit) (finding : Finding) : Result × Stage :=
  match stage.scene.accept edits with
  | (.ok (), scene) =>
      (.ok finding, { stage with scene := scene, table := stage.table.commit edits })
  | (.error cause, scene) => (.error (.halt cause), { stage with scene := scene })

def view (stage : Stage) : View :=
  ⟨stage.table, stage.scene.outages⟩

def read? (stage : Stage) (f : α → Finding) (answer : Except Fault α) : Result × Stage :=
  (resultOf f (ofFault answer), stage)

def editsFor (stage : Stage) (track : Track) (block : Block) (direction : Direction) :
    Except Halt (List Edit) :=
  stage.catalogue.edits track block direction stage.view

/-!
# Steps on the bench
-/

def bareBench (stage : Stage) (f : α → Finding) (act : Act Scene α) : Result × Stage :=
  let (result, stage) := stage.onBench (stage.bench.frontier.getD default) act
  (resultOf f result, stage)

def withTips (stage : Stage) (f : α → Finding) (act : Act Scene α) : Result × Stage :=
  match stage.bench.frontier with
  | none => (.error (.missing "tips"), stage)
  | some _ => stage.bareBench f act

def setTips (stage : Stage) (frontier : Frontier) : Stage :=
  { stage with bench := { stage.bench with frontier := some frontier } }

def planSwitch (stage : Stage) (forkSeen : Bool) : Result × Stage :=
  match stage.bench.frontier with
  | none => (.error (.missing "tips"), stage)
  | some frontier =>
      match stage.onBench frontier (Switching.plan (stage.host .bench) forkSeen) with
      | (.ok planned, stage) => (.ok (.ofOption .switch planned), { stage with planned := planned })
      | (.error cause, stage) => (.error (.halt cause), stage)

def forwardSync (stage : Stage) : Result × Stage :=
  match stage.bench.frontier with
  | none => (.error (.missing "tips"), stage)
  | some frontier =>
      match stage.onBench frontier (Forward.run (stage.host .bench)) with
      | (.ok outcome, stage) =>
          (.ok (.outcome outcome stage.bench.intake.inFlight.length), stage)
      | (.error cause, stage) => (.error (.halt cause), stage)

/-!
# Steps on the engine
-/

def withEngine (stage : Stage) (f : Follower → Result × Stage) : Result × Stage :=
  match stage.engine.idle? with
  | some follower => f follower
  | none => (.error (.missing "engine"), stage)

def syncEngine (stage : Stage) (follower : Follower) : Result × Stage :=
  let (result, follower, stage) := stage.onEngine follower (Following.sync (stage.host .engine))
  (resultOf .pointer result, { stage with engine := .idle follower })

def announce (stage : Stage) (block : Block) : Stage :=
  match stage.engine with
  | .idle follower =>
      { stage with engine := .idle { follower with intake := follower.intake.announce block } }
  | _ => { stage with bench := { stage.bench with intake := stage.bench.intake.announce block } }

def subscribe (stage : Stage) : Stage :=
  match stage.engine.idle? with
  | some _ => { stage with listener := ⟨.engine, stage.settings.eventCapacity⟩ }
  | none => { stage with listener := ⟨.bench, stage.benchCapacity⟩ }

/-- Whether the phase is the one shown, will have to be waited for, or can no
longer come. -/
def waitFor (stage : Stage) (phase : Phase) : Result :=
  match stage.handlePhase? with
  | none => .error (.missing "handle")
  | some shown =>
      if shown = phase then .ok (.text "reached")
      else if stage.engine.follower?.isSome then .ok (.text "pending")
      else .error (.halt (.fault (.aborted "engine dropped")))

/-!
# All steps
-/

def perform (stage : Stage) : Step → Result × Stage
  | .act action => stage.act action
  | .hook hook =>
      (.ok .nothing, { stage with
        scene := { stage.scene with hooks := stage.scene.hooks ++ [hook] } })
  | .bestChain => (.ok (.texts stage.scene.chain.best), stage)
  | .getBlock place => stage.ask .block (stage.scene.blockAt place)
  | .getHeader hash => stage.ask .header (stage.scene.headerOf hash)
  | .bestHash => stage.ask .text stage.scene.bestHash
  | .bestHeight => stage.ask .height stage.scene.bestHeight
  | .hashAt height => stage.hashAt height
  | .batch edits => stage.batch edits .nothing
  | .get key => stage.read? (.ofOption .bytes) (stage.view.get? key)
  | .scan start stop => stage.read? .entries (stage.view.scan start stop)
  | .scanStem stem => stage.read? .entries (stage.view.scanStem stem)
  | .snapshot => (.ok (.entries stage.table.entries), stage)
  | .size => (.ok (.size stage.table.entries.length), stage)
  | .catalogue =>
      let names := fun track => (stage.catalogue.on track).map Index.name
      (.ok (.catalogue (names .concurrent) (names .serial)), stage)
  | .edits track block direction =>
      (resultOf .edits (stage.editsFor track block direction), stage)
  | .applyEdits track block direction =>
      match stage.editsFor track block direction with
      | .ok edits => stage.batch edits (.edits edits)
      | .error cause => (.error (.halt cause), stage)
  | .heightOf hash => stage.read? (.ofOption .height) (Heights.heightOf stage.view hash)
  | .blockAt height => stage.read? (.ofOption .text) (Heights.hashAt stage.view height)
  | .timeOf hash => stage.read? (.ofOption .time) (Times.timeOf stage.view hash)
  | .between first final => stage.read? .texts (Times.between stage.view first final)
  | .tipsGenesis pointer => (.ok .nothing, stage.setTips (.level pointer))
  | .tipsLoad genesis =>
      match Frontier.load stage.view genesis with
      | .ok frontier => (.ok .nothing, stage.setTips frontier)
      | .error cause => (.error (.halt (.fault cause)), stage)
  | .tipEdit track pointer => (.ok (.edits [Frontier.edit track pointer]), stage)
  | .tipsCommit track edits pointer =>
      stage.withTips (fun _ => .nothing) (Act.commit (stage.host .bench) track edits pointer)
  | .ancestor old new => stage.bareBench .switch (Ancestry.find (stage.host .bench) old new)
  | .trackCommit track block direction =>
      stage.withTips (.trackTip track) do
        Act.stepBlock (stage.host .bench) track block direction
        Act.tip track
  | .rewind track ancestor =>
      stage.withTips .count (Switching.rewind (stage.host .bench) track ancestor)
  | .replay track hashes =>
      stage.withTips .count (Switching.replay (stage.host .bench) track hashes)
  | .align => stage.withTips (.ofOption .switch) (Switching.align (stage.host .bench))
  | .plan forkSeen => stage.planSwitch forkSeen
  | .carryOut switch =>
      match stage.bench.frontier, switch <|> stage.planned with
      | none, _ => (.error (.missing "tips"), stage)
      | some _, none => (.error (.missing "plan"), stage)
      | some _, some switch =>
          stage.bareBench (fun _ => .nothing) (Switching.carryOut (stage.host .bench) switch)
  | .forward => stage.forwardSync
  | .inFlight => (.ok (.count stage.bench.intake.inFlight.length), stage)
  | .announce block => (.ok .nothing, stage.announce block)
  | .start settings =>
      let (result, stage) := stage.openEngine settings
      (resultOf (fun _ => .nothing) result, stage)
  | .sync => stage.withEngine stage.syncEngine
  | .engineShutdown => stage.withEngine fun follower =>
      (.ok .nothing, { stage with
        engine := .idle { follower with inbox := { follower.inbox with stopWanted := true } } })
  | .settings => stage.withEngine fun _ => (.ok (.settings stage.settings), stage)
  | .dropEngine =>
      match stage.engine with
      | .idle follower => (.ok .nothing, stage.dismiss follower)
      | _ => (.ok .nothing, stage)
  | .subscribe => (.ok .nothing, stage.subscribe)
  | .waitFor phase => (stage.waitFor phase, stage)
  | .run => stage.withEngine fun follower =>
      (.ok .nothing, { stage with engine := .running follower false })
  | .unreadable => (.error .unreadable, stage)

end Stage

/-!
# Answers
-/

structure Answer where
  result : Result
  events : List Feed.Heard
  journal : List Line
  tips : Option Frontier
  phase : Option Phase
  finish : Option Stage.Finish

namespace Stage

def tips? (stage : Stage) : Option Frontier :=
  match stage.engine.idle? with
  | some follower => some follower.frontier
  | none => stage.bench.frontier

def phase? (stage : Stage) : Option Phase :=
  match stage.engine.idle? with
  | some follower => some follower.phase
  | none => stage.handlePhase?

def play (stage : Stage) (step : Step) : Answer × Stage :=
  let (result, stage) := stage.perform step
  let (finish, stage) := stage.deliver.proceed
  let stage := stage.deliver
  let (events, stage) := stage.read
  let journal := stage.scene.journal.reverse
  let stage := { stage with scene := { stage.scene with journal := [] } }
  ({ result, events, journal, finish, tips := stage.tips?, phase := stage.phase? }, stage)

def cutShort? : Result → Option Halt
  | .error (.halt (.fault _)) => none
  | .error (.halt cause) => some cause
  | _ => none

def playAll (stage : Stage) : List Step → List Answer
  | [] => []
  | step :: rest =>
      let (answer, stage) := stage.play step
      match cutShort? answer.result with
      | some _ => [answer]
      | none => answer :: stage.playAll rest

end Stage

end Rehearsal

end ChainIndex
