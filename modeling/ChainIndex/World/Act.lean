import ChainIndex.World.Basic

/-!
# Acts

An act changes the world and yields a value or halts.  What it did to the world
before it halted stays done: the table keeps its batches and the indexer its
memory.

The first acts here are the only ones that reach the host or write the course of
events; all others are made of them.
-/

namespace ChainIndex

abbrev Act (σ α : Type) := ExceptT Halt (StateM (World σ)) α

namespace Act

def perform (act : Act σ α) (world : World σ) : Except Halt α × World σ :=
  act.run.run world

def ofFunction (f : World σ → Except Halt α × World σ) : Act σ α :=
  ExceptT.mk (fun world => f world)

def see (f : World σ → α) : Act σ α :=
  ofFunction fun world => (.ok (f world), world)

def change (f : World σ → World σ) : Act σ Unit :=
  ofFunction fun world => (.ok (), f world)

def halt (cause : Halt) : Act σ α :=
  ofFunction fun world => (.error cause, world)

def fail (cause : Fault) : Act σ α :=
  halt (.fault cause)

def ofExcept (result : Except Halt α) : Act σ α :=
  ofFunction fun world => (result, world)

/-- The value of an act, or the fault that stopped it; other halts go on. -/
def attempt (act : Act σ α) : Act σ (Except Fault α) :=
  ofFunction fun world =>
    match act.perform world with
    | (.ok a, after) => (.ok (.ok a), after)
    | (.error (.fault cause), after) => (.ok (.error cause), after)
    | (.error cause, after) => (.error cause, after)

/-!
# Performing

What an act does is read off from the acts it is made of.
-/

theorem perform_bind (act : Act σ α) (next : α → Act σ β) (world : World σ) :
    (act >>= next).perform world =
      match act.perform world with
      | (.ok a, after) => (next a).perform after
      | (.error cause, after) => (.error cause, after) := by
  change (match act.perform world with
    | (result, after) => (ExceptT.bindCont next result).run after) = _
  cases act.perform world with
  | mk result after => cases result <;> rfl

@[simp] theorem perform_see (f : World σ → α) (world : World σ) :
    (see f).perform world = (.ok (f world), world) := rfl

theorem perform_attempt (act : Act σ α) (world : World σ) :
    (attempt act).perform world =
      match act.perform world with
      | (.ok a, after) => (.ok (.ok a), after)
      | (.error (.fault cause), after) => (.ok (.error cause), after)
      | (.error cause, after) => (.error cause, after) := rfl

/-!
# Asking the host
-/

variable (host : Host σ)

def blockAt (place : Lookup) : Act σ Block :=
  ofFunction fun world =>
    let reply := host.blockAt place world.outside
    (reply.answer, world.take reply (.askedBlock place))

def headerOf (hash : BlockHash) : Act σ Header :=
  ofFunction fun world =>
    let reply := host.headerOf hash world.outside
    (reply.answer, world.take reply (.askedHeader hash))

def bestHash : Act σ BlockHash :=
  ofFunction fun world =>
    let reply := host.bestHash world.outside
    (reply.answer, world.take reply .askedBest)

def hashAt (height : UInt64) : Act σ (Option BlockHash) := do
  match ← attempt (blockAt host (.byHeight height)) with
  | .ok block => pure (some block.hash)
  | .error (.notFound _) => pure none
  | .error cause => fail cause

def parentOf (hash : BlockHash) : Act σ (Option BlockHash) := do
  match ← attempt (headerOf host hash) with
  | .ok header => pure header.parent
  | .error (.notFound _) => pure none
  | .error cause => fail cause

def view : Act σ View :=
  ofFunction fun world =>
    let reply := host.outages world.outside
    let after := world.take reply .viewed
    match reply.answer with
    | .ok outages => (.ok ⟨world.table, outages⟩, after)
    | .error cause => (.error cause, after)

/-- Offers a batch to the table.  It lands as a whole or not at all. -/
def write (edits : List Edit) : Act σ Unit :=
  ofFunction fun world =>
    let reply := host.accept edits world.outside
    let after := world.take reply (.batch edits)
    match reply.answer with
    | .ok () => (.ok (), { after with table := world.table.commit edits })
    | .error cause => (.error cause, after)

/-!
# Reports
-/

def emit (event : Event) : Act σ Unit :=
  change fun world => world.record (.emitted event)

def enter (phase : Phase) : Act σ Unit :=
  change fun world => { world.record (.entered phase) with phase := phase }

/-!
# The indexer's memory
-/

def stopWanted : Act σ Bool :=
  see fun world => world.inbox.stopWanted

def tip (track : Track) : Act σ Pointer :=
  see fun world => world.frontier.tip track

def intake : Act σ Intake :=
  see fun world => world.intake

def changeIntake (f : Intake → Intake) : Act σ Unit :=
  change fun world => { world with intake := f world.intake }

/-!
# Loops
-/

end Act

inductive Turn (β α : Type) where
  | again (state : β)
  | done (result : α)

namespace Act

/-- Takes turns until one is the last, or until as many turns as allowed are over. -/
def turns (turn : β → Act σ (Turn β α)) : (allowed : Nat) → β → Act σ α
  | 0, _ => halt .abandoned
  | allowed + 1, state => do
      match ← turn state with
      | .again next => turns turn allowed next
      | .done result => pure result

theorem perform_turns_succ (turn : β → Act σ (Turn β α)) (allowed : Nat) (state : β)
    (world : World σ) :
    (turns turn (allowed + 1) state).perform world =
      match (turn state).perform world with
      | (.ok (.again next), after) => (turns turn allowed next).perform after
      | (.ok (.done result), after) => (.ok result, after)
      | (.error cause, after) => (.error cause, after) := by
  rw [turns, perform_bind]
  rcases (turn state).perform world with ⟨result, after⟩
  cases result with
  | error cause => rfl
  | ok next => cases next <;> rfl

def loop (host : Host σ) (turn : β → Act σ (Turn β α)) (start : β) : Act σ α :=
  turns turn host.patience start

/-!
# Commits
-/

variable (host : Host σ)

def consult (track : Track) (block : Block) (direction : Direction) : Act σ (List Edit) := do
  let seen ← view host
  change fun world => world.record (.consulted track block direction seen)
  ofExcept (host.catalogue.edits track block direction seen)

/-- Commits edits together with the move of a tip in one batch, and then moves
the tip in memory.  If the batch fails nothing moves. -/
def commit (track : Track) (edits : List Edit) (pointer : Pointer) : Act σ Unit := do
  write host (edits ++ [Frontier.edit track pointer])
  change fun world => { world with frontier := world.frontier.move track pointer }

def destination (block : Block) : Direction → Except Fault Pointer
  | .apply => .ok block.pointer
  | .undo =>
      match block.parent with
      | some parent => .ok ⟨parent, if block.height = 0 then 0 else block.height - 1⟩
      | none => .error (.genesisUndone block.hash)

def report (block : Block) : Direction → Event
  | .apply => .added block.hash block.height
  | .undo => .removed block.hash block.height

def commitBlock (track : Track) (edits : List Edit) (block : Block) (direction : Direction) :
    Act σ Unit := do
  let pointer ← ofExcept (ofFault (destination block direction))
  commit host track edits pointer
  match track with
  | .serial => emit (report block direction)
  | .concurrent => pure ()

def stepBlock (track : Track) (block : Block) (direction : Direction) : Act σ Unit := do
  let edits ← consult host track block direction
  commitBlock host track edits block direction

end Act

end ChainIndex
