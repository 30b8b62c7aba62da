import ChainIndex.Chain
import ChainIndex.Rehearsal.Lossy
import ChainIndex.World.Basic

/-!
# Scenes

A rehearsal tries an indexer out against a scripted host.  The scene is that
host's state: a chain in memory, faults that have been put in the way, and hooks
that act at a chosen call.

Every call goes through the same gate.  First the hooks that are due act, then
the call is noted in the journal, then a fault may answer in place of the chain
or the table.

Two parties may use the scene: an engine that follows the chain as a whole, and a
bench on which its parts are tried one by one.  What a hook sends to the party
that is calling reaches it with the reply; what it sends to the other one waits
as mail.
-/

namespace ChainIndex

namespace Rehearsal

inductive Party where
  | bench
  | engine
deriving DecidableEq

/-- What a step or a hook may do to the scene or to a party. -/
inductive Action where
  | insert (block : Block)
  | push (block : Block)
  | setBest (hash : BlockHash)
  | forget (hash : BlockHash)
  | offline (wanted : Bool)
  | detach (hash : Option BlockHash)
  | failSource (call : String) (cause : Fault)
  | poison (key : Bytes)
  | failGet (key : Bytes)
  | heal
  | stop (wanted : Bool)
  | notify (block : Block)
  | shutdown
  | dropHandle

def Action.name : Action → String
  | .insert _ => "insert"
  | .push _ => "push"
  | .setBest _ => "set_best"
  | .forget _ => "forget"
  | .offline _ => "offline"
  | .detach _ => "detach"
  | .failSource _ _ => "fail_source"
  | .poison _ => "poison"
  | .failGet _ => "fail_get"
  | .heal => "heal"
  | .stop _ => "stop"
  | .notify _ => "notify"
  | .shutdown => "shutdown"
  | .dropHandle => "drop_handle"

inductive Call where
  | source
  | batch
deriving DecidableEq

structure Hook where
  on : Call
  /-- The hook acts just before this call of its kind, the coming one being the
  first.  At zero its call is past, and it never acts. -/
  countdown : Nat
  actions : List Action

inductive Line where
  | asked (call : String)
  /-- A batch, with the tips that it records. -/
  | batch (size : Nat) (tips : List (Track × Bytes)) (rejected : Bool)
  | hook (name : String)

def Line.text : Line → String
  | .asked call => call
  | .batch size tips rejected =>
      let recorded := tips.map fun tip => s!" {tip.1.text}={tip.2.toTextLossy}"
      let verdict := if rejected then " rejected" else ""
      s!"batch {size}{String.join recorded}{verdict}"
  | .hook name => s!"hook {name}"

structure Scene where
  chain : Chain
  hooks : List Hook
  isOffline : Bool
  detached : Option BlockHash
  /-- Faults that answer in place of the chain, by the text of the call. -/
  failing : List (String × Fault)
  poisoned : List Bytes
  unreadable : List Bytes
  /-- Newest first. -/
  journal : List Line
  /-- Signals for parties that are not calling, oldest first. -/
  mail : List (Party × Signal)

namespace Scene

def ofChain (chain : Chain) : Scene :=
  ⟨chain, [], false, none, [], [], [], [], []⟩

def note (scene : Scene) (line : Line) : Scene :=
  { scene with journal := line :: scene.journal }

def send (scene : Scene) (party : Party) (signal : Signal) : Scene :=
  { scene with mail := scene.mail ++ [(party, signal)] }

/-!
# Actions
-/

def act (scene : Scene) : Action → Except Halt Unit × Scene
  | .insert block => (.ok (), { scene with chain := scene.chain.insert block })
  | .push block =>
      let (answer, chain) := (Chain.extend block).run.run scene.chain
      (ofFault answer, { scene with chain })
  | .setBest hash =>
      let (answer, chain) := (Chain.setBest hash).run.run scene.chain
      (answer, { scene with chain })
  | .forget hash => (.ok (), { scene with chain := scene.chain.forget hash })
  | .offline wanted => (.ok (), { scene with isOffline := wanted })
  | .detach hash => (.ok (), { scene with detached := hash })
  | .failSource call cause => (.ok (), { scene with failing := (call, cause) :: scene.failing })
  | .poison key => (.ok (), { scene with poisoned := key :: scene.poisoned })
  | .failGet key => (.ok (), { scene with unreadable := key :: scene.unreadable })
  | .heal =>
      (.ok (), { scene with
        hooks := []
        isOffline := false
        detached := none
        failing := []
        poisoned := []
        unreadable := [] })
  | .stop wanted => (.ok (), scene.send .bench (.stop wanted))
  | .notify block => (.ok (), scene.send .engine (.notify block))
  | .shutdown => (.ok (), scene.send .engine (.stop true))
  | .dropHandle => (.ok (), scene.send .engine .release)

/-- A hook notes each action and does it, and does not care whether it fails. -/
def actHooked (scene : Scene) (action : Action) : Scene :=
  ((scene.note (.hook action.name)).act action).2

/-- Counts a call, and lets the hooks act that are due at it. -/
def fire (scene : Scene) (call : Call) : Scene :=
  let isDue := fun hook : Hook => hook.on = call && hook.countdown = 1
  let waiting := (scene.hooks.filter (!isDue ·)).map fun hook =>
    if hook.on = call then { hook with countdown := hook.countdown - 1 } else hook
  ((scene.hooks.filter isDue).flatMap Hook.actions).foldl actHooked { scene with hooks := waiting }

/-!
# Calls
-/

/-- Passes a question to the chain through the gate. -/
def ask (scene : Scene) (call : String) (answer : Scene → Except Fault α) :
    Except Halt α × Scene :=
  let scene := (scene.fire .source).note (.asked call)
  if scene.isOffline then (.error (.fault (.chain "connection refused")), scene)
  else
    match scene.failing.find? (·.1 = call) with
    | some (_, cause) => (.error (.fault cause), scene)
    | none => (ofFault (answer scene), scene)

def blockAt (scene : Scene) (place : Lookup) : Except Halt Block × Scene :=
  scene.ask place.text fun scene => scene.chain.blockAt place

def headerOf (scene : Scene) (hash : BlockHash) : Except Halt Header × Scene :=
  scene.ask s!"header {hash}" fun scene => scene.chain.headerOf hash

def bestHash (scene : Scene) : Except Halt BlockHash × Scene :=
  scene.ask "best hash" fun scene =>
    match scene.detached with
    | some hash => .ok hash
    | none => scene.chain.bestHash

def bestHeight (scene : Scene) : Except Halt UInt64 × Scene :=
  scene.ask "best height" fun scene => .ok scene.chain.bestHeight

def recordedTips (edits : List Edit) : List (Track × Bytes) :=
  edits.filterMap fun
    | .put key value =>
        if key = Frontier.key .concurrent then some (.concurrent, value)
        else if key = Frontier.key .serial then some (.serial, value)
        else none
    | .erase _ => none

def accept (scene : Scene) (edits : List Edit) : Except Halt Unit × Scene :=
  let scene := scene.fire .batch
  let rejected := edits.any fun edit => scene.poisoned.contains edit.key
  let scene := scene.note (.batch edits.length (recordedTips edits) rejected)
  if rejected then (.error (.fault (.storage "write rejected")), scene) else (.ok (), scene)

def outages (scene : Scene) : Outages :=
  let failing := fun (reason : String) (key : Bytes) =>
    if scene.unreadable.contains key then some (Fault.storage reason) else none
  ⟨failing "read rejected", failing "scan rejected"⟩

/-!
# The scene as a host
-/

/-- The reply to a party, which takes its own mail with it. -/
def reply (party : Party) (outcome : Except Halt α × Scene) : Reply Scene α :=
  let own := fun letter : Party × Signal => letter.1 = party
  { answer := outcome.1
    outside := { outcome.2 with mail := outcome.2.mail.filter (!own ·) }
    signals := (outcome.2.mail.filter own).map (·.2) }

def host (party : Party) (catalogue : Catalogue) : Host Scene where
  blockAt place scene := reply party (scene.blockAt place)
  headerOf hash scene := reply party (scene.headerOf hash)
  bestHash scene := reply party scene.bestHash
  accept edits scene := reply party (scene.accept edits)
  outages scene := ⟨.ok scene.outages, scene, []⟩
  outages_ne_fault := nofun
  catalogue := catalogue
  patience := 1000000

end Scene

end Rehearsal

end ChainIndex
