import ChainIndex.Following
import ChainIndex.Proofs.SwitchSteps

/-!
# Turns of a run

A round of a sync takes in what has been announced and then goes through a cycle, whose parts
follow one another.  A turn of a run begins with a sync, unless a stop is wanted.  If the sync
returns a fault the run says so; then it ends, or it looks at its inbox.

This module says once what a round asks of its cycle and a cycle of its parts, what a turn can
do in terms of what its sync does, and what holds of a whole run because it holds of its syncs.
-/

namespace ChainIndex

namespace World

def entered (world : World σ) (phase : Phase) : World σ :=
  { world.record (.entered phase) with phase := phase }

def drained (world : World σ) : World σ :=
  { world with
    intake := Following.drain world.inbox world.intake
    inbox := { world.inbox with queue := [] } }

def wound (world : World σ) : World σ :=
  { (world.record (.entered .stopping)).record (.entered .stopped) with phase := .stopped }

def noticed (world : World σ) (block : Block) (rest : List Block) : World σ :=
  { world with
    intake := world.intake.announce block
    inbox := { world.inbox with queue := rest } }

end World

namespace Following

/-!
# Rounds
-/

def setOut (switch : Switch) (world : World σ) : World σ :=
  if switch.isForward then world else world.entered .reorging

theorem setOut_of_back {switch : Switch} (h : switch.isForward = false) (world : World σ) :
    setOut switch world = world.entered .reorging := by
  rw [setOut, h, if_neg Bool.false_ne_true]

theorem past_setOut (switch : Switch) (world : World σ) :
    world.course <:+ (setOut switch world).course := by
  unfold setOut
  split
  · exact List.suffix_refl _
  · exact List.suffix_cons _ _

def IsStop (cause : Halt) (world : World σ) : Prop :=
  world.inbox.stopWanted = true ∧ ∃ reason, cause = .fault (.aborted reason)

section

variable {host : Host σ} {world : World σ} {halted : Halt → World σ → Prop} {forkSeen : Bool}

theorem switchIfNeeded_of_parts {ended : Unit → World σ → Prop}
    (h : (Switching.plan host forkSeen).Yields world (fun found planned =>
      match found with
      | none => ended () planned
      | some switch =>
          (Switching.carryOut host switch).Yields (setOut switch planned) ended halted) halted) :
    (switchIfNeeded host forkSeen).Yields world ended halted := by
  rw [switchIfNeeded, Act.yields_bind]
  refine h.imp ?_
  intro found planned hfound
  cases found with
  | none => exact hfound
  | some switch =>
      dsimp only at hfound ⊢
      unfold setOut at hfound
      cases hforward : switch.isForward with
      | true =>
          rw [hforward] at hfound
          exact hfound
      | false =>
          rw [hforward] at hfound
          exact hfound

theorem cycle_of_parts {ended : Forward.Outcome → World σ → Prop}
    (h : (Switching.align host).Yields
      (world.entered (if world.frontier.isLevel then .syncing else .reorging))
      (fun _ aligned => (switchIfNeeded host forkSeen).Yields aligned
        (fun _ switched => (Forward.run host).Yields (switched.entered .syncing) ended halted)
        halted) halted) :
    (cycle host forkSeen).Yields world ended halted := by
  rw [cycle, Act.yields_bind, Act.yields_see, Act.yields_bind, Act.enter, Act.yields_change,
    Act.yields_bind]
  refine h.imp fun _ aligned haligned => ?_
  rw [Act.yields_bind]
  refine haligned.imp fun _ switched hswitched => ?_
  rw [Act.yields_bind, Act.enter, Act.yields_change]
  exact hswitched

theorem syncTurn_of_cycle {ended : Turn Bool Pointer → World σ → Prop}
    (hstopped : world.inbox.stopWanted = true →
      ended (.done world.frontier.serial) (world.drained.entered .stopping))
    (hcycle : world.inbox.stopWanted = false → (cycle host forkSeen).Yields world.drained
      (fun outcome after =>
        match outcome with
        | .synced tip => ended (.done tip) (after.entered .synced)
        | .forked _ => ended (.again true) after
        | .stopped tip => ended (.done tip) (after.entered .stopping))
      (fun cause after =>
        (IsStop cause after → ended (.done after.frontier.serial) (after.entered .stopping)) ∧
        (¬ IsStop cause after → halted cause after))) :
    (syncTurn host forkSeen).Yields world ended halted := by
  rw [syncTurn, Act.yields_bind, takeNotices, Act.yields_change, Act.yields_bind, Act.stopWanted,
    Act.yields_see]
  cases hwanted : world.inbox.stopWanted with
  | true => exact hstopped hwanted
  | false =>
      rw [if_neg Bool.false_ne_true, Act.yields_bind, Act.yields_attempt]
      refine (hcycle hwanted).mono ?_ ?_
      · intro outcome after hended
        cases outcome <;> exact hended
      · intro cause after hhalted
        cases cause with
        | fault fault =>
            cases fault with
            | aborted reason =>
                show (Act.stopWanted >>= _).Yields after _ _
                rw [Act.yields_bind, Act.stopWanted, Act.yields_see]
                cases hstop : after.inbox.stopWanted with
                | true => exact hhalted.1 ⟨hstop, reason, rfl⟩
                | false => exact hhalted.2 (by simp [IsStop, hstop])
            | _ => exact hhalted.2 (by simp [IsStop])
        | _ => exact hhalted.2 (by simp [IsStop])

end

/-!
# What a sync keeps
-/

structure SyncKeeps (host : Host σ) (kept : World σ → Prop) (halted : Halt → World σ → Prop) :
    Prop extends Switching.Keeps host kept halted where
  entered {phase : Phase} {world : World σ} : kept world → kept (world.entered phase)
  drained {world : World σ} : kept world → kept world.drained
  forward {world : World σ} : kept world →
    (Forward.run host).Yields world (fun _ => kept) halted
  stopped {cause : Halt} {world : World σ} : IsStop cause world → halted cause world → kept world

namespace SyncKeeps

variable {host : Host σ} {kept : World σ → Prop} {halted : Halt → World σ → Prop}
variable (hkeeps : SyncKeeps host kept halted) {world : World σ}
include hkeeps

theorem switchIfNeeded (h : kept world) (forkSeen : Bool) :
    (Following.switchIfNeeded host forkSeen).Yields world (fun _ => kept) halted := by
  refine switchIfNeeded_of_parts ((hkeeps.plan h forkSeen).imp ?_)
  intro found planned hplanned
  cases found with
  | none => exact hplanned
  | some switch =>
      refine hkeeps.carryOut (?_ : kept (setOut switch planned)) switch
      unfold setOut
      split
      · exact hplanned
      · exact hkeeps.entered hplanned

theorem cycle (h : kept world) (forkSeen : Bool) :
    (Following.cycle host forkSeen).Yields world (fun _ => kept) halted :=
  cycle_of_parts <|
    (hkeeps.align (hkeeps.entered h)).imp fun _ _ haligned =>
    (hkeeps.switchIfNeeded haligned forkSeen).imp fun _ _ hswitched =>
    hkeeps.forward (hkeeps.entered hswitched)

theorem syncTurn (h : kept world) (forkSeen : Bool) :
    (Following.syncTurn host forkSeen).Yields world (fun _ => kept) halted := by
  refine syncTurn_of_cycle (fun _ => hkeeps.entered (hkeeps.drained h)) fun _ => ?_
  refine (hkeeps.cycle (hkeeps.drained h) forkSeen).mono ?_ ?_
  · intro outcome after hafter
    cases outcome with
    | forked _ => exact hafter
    | _ => exact hkeeps.entered hafter
  · intro cause after hhalted
    exact ⟨fun hstop => hkeeps.entered (hkeeps.stopped hstop hhalted), fun _ => hhalted⟩

theorem sync (h : kept world) : (Following.sync host).Yields world (fun _ => kept) halted := by
  refine Act.yields_turns (fun _ _ => kept) ?_ (fun _ _ => hkeeps.halts) h
  intro _ forkSeen now hnow
  refine (hkeeps.syncTurn hnow forkSeen).imp ?_
  intro result after hafter
  cases result <;> exact hafter

end SyncKeeps

/-!
# Turns
-/

def settle (result : Except Fault Pointer) : Act σ (Turn Unit Rest) := do
  match ← afterSync result with
  | some rest => pure (.done rest)
  | none => do
      if ← Act.stopWanted then do
        let rest ← wind
        pure (.done rest)
      else wake

/-- The fault that a sync from this world returns, if it returns one. -/
def fault? (host : Host σ) (world : World σ) : Option Fault :=
  match ((sync host).perform world).1 with
  | .error (.fault cause) => some cause
  | _ => none

def left (host : Host σ) (world : World σ) : World σ :=
  ((sync host).perform world).2

def phaseAfter (cause : Fault) : Phase :=
  if cause.isFatal then .error else .idle

def told (world : World σ) (cause : Fault) : World σ :=
  { (world.record (.emitted (.failed cause))).record (.entered (phaseAfter cause)) with
    phase := phaseAfter cause }

def reported (host : Host σ) (world : World σ) : World σ :=
  (fault? host world).elim (left host world) (told (left host world))

/-- The sync from this world comes to its end, or returns a fault that is not fatal. -/
def Harmless (host : Host σ) (world : World σ) : Prop :=
  ∀ halt, ((sync host).perform world).1 = .error halt →
    ∃ cause, halt = .fault cause ∧ cause.isFatal = false

inductive Wakes (world : World σ) : Turn Unit Rest → World σ → Prop where
  | noticed {block : Block} {rest : List Block} :
      world.inbox.queue = block :: rest → Wakes world (.again ()) (world.noticed block rest)
  | deserted : world.inbox.queue = [] → world.inbox.attached = false →
      Wakes world (.done (.ended .stopped)) world.wound
  | stopping : world.inbox.queue = [] → world.inbox.stopWanted = true →
      Wakes world (.again ()) world
  | waiting : world.inbox.queue = [] → world.inbox.attached = true →
      world.inbox.stopWanted = false → Wakes world (.done .waiting) world

inductive Takes (host : Host σ) (world : World σ) : Turn Unit Rest → World σ → Prop where
  | fatal {cause : Fault} : fault? host world = some cause → cause.isFatal = true →
      Takes host world (.done (.ended .error)) (reported host world)
  | stopping : Harmless host world → (reported host world).inbox.stopWanted = true →
      Takes host world (.done (.ended .stopped)) (reported host world).wound
  | woken {result : Turn Unit Rest} {after : World σ} : Harmless host world →
      (reported host world).inbox.stopWanted = false →
      Wakes (reported host world) result after → Takes host world result after

section

variable {host : Host σ} {world : World σ} {halted : Halt → World σ → Prop}

/-!
# What a turn does
-/

theorem wake_wakes (world : World σ) :
    (wake : Act σ (Turn Unit Rest)).Yields world (Wakes world) halted := by
  rw [wake, Act.yields_bind, Act.yields_see]
  cases hqueue : world.inbox.queue with
  | cons block rest => exact .noticed hqueue
  | nil =>
      dsimp only
      cases hattached : world.inbox.attached with
      | false => exact .deserted hqueue hattached
      | true =>
          rw [if_neg (by simp)]
          cases hwanted : world.inbox.stopWanted with
          | true => exact .stopping hqueue hwanted
          | false => exact .waiting hqueue hattached hwanted

theorem Harmless.takes (h : Harmless host world) :
    (Act.stopWanted >>= fun wanted =>
      if wanted = true then wind >>= fun rest => pure (.done rest) else wake :
        Act σ (Turn Unit Rest)).Yields (reported host world) (Takes host world) halted := by
  rw [Act.yields_bind, Act.stopWanted, Act.yields_see]
  cases hwanted : (reported host world).inbox.stopWanted with
  | true => exact .stopping h hwanted
  | false => exact (wake_wakes _).imp fun _ _ hwakes => .woken h hwanted hwakes

theorem settle_takes_of_ok {tip : Pointer} {after : World σ}
    (hperform : (sync host).perform world = (.ok tip, after)) :
    (settle (.ok tip)).Yields after (Takes host world) halted := by
  have hreported : reported host world = after := by
    rw [reported, fault?, left, hperform, Option.elim_none]
  have hharmless : Harmless host world := by
    intro halt hhalt
    rw [hperform] at hhalt
    cases hhalt
  rw [← hreported]
  exact hharmless.takes

theorem afterSync_tells (cause : Fault) (world : World σ) :
    (afterSync (.error cause) : Act σ (Option Rest)).Yields world
      (fun rest after => after = told world cause ∧
        rest = if cause.isFatal then some (.ended .error) else none) halted := by
  rw [afterSync, Act.yields_bind, Act.emit, Act.yields_change, told, phaseAfter]
  cases cause.isFatal with
  | true => exact ⟨rfl, rfl⟩
  | false => exact ⟨rfl, rfl⟩

theorem settle_takes_of_fault {cause : Fault} {after : World σ}
    (hperform : (sync host).perform world = (.error (.fault cause), after)) :
    (settle (.error cause)).Yields after (Takes host world) halted := by
  have hfault : fault? host world = some cause := by rw [fault?, hperform]
  have hreported : told after cause = reported host world := by
    rw [reported, hfault, left, hperform, Option.elim_some]
  rw [settle, Act.yields_bind]
  refine (afterSync_tells cause after).imp ?_
  rintro rest now ⟨rfl, rfl⟩
  rw [hreported]
  cases hfatal : cause.isFatal with
  | true => exact .fatal hfault hfatal
  | false =>
      have hharmless : Harmless host world := by
        intro halt hhalt
        rw [hperform] at hhalt
        cases hhalt
        exact ⟨cause, rfl, hfatal⟩
      exact hharmless.takes

theorem perform_of_fault? {cause : Fault} (h : fault? host world = some cause) :
    (sync host).perform world = (.error (.fault cause), left host world) := by
  unfold fault? at h
  unfold left
  generalize (sync host).perform world = outcome at h ⊢
  rcases outcome with ⟨result, after⟩
  cases result with
  | ok tip => cases h
  | error halt =>
      cases halt with
      | fault raised =>
          cases h
          rfl
      | _ => cases h

theorem Harmless.mild (h : Harmless host world) :
    ∀ cause ∈ fault? host world, cause.isFatal = false := by
  intro cause hcause
  rcases h _ (congrArg Prod.fst (perform_of_fault? hcause)) with ⟨_, hsame, hmild⟩
  cases hsame
  exact hmild

theorem Harmless.exists_perform (h : Harmless host world) (hnone : fault? host world = none) :
    ∃ tip, (sync host).perform world = (.ok tip, left host world) := by
  unfold Harmless at h
  unfold fault? at hnone
  unfold left
  generalize (sync host).perform world = outcome at h hnone ⊢
  rcases outcome with ⟨result, after⟩
  cases result with
  | ok tip => exact ⟨tip, rfl⟩
  | error halt =>
      rcases h halt rfl with ⟨cause, rfl, _⟩
      cases hnone

theorem runTurn_of_stopWanted (hwanted : world.inbox.stopWanted = true) :
    (runTurn host ()).perform world = (.ok (.done (.ended .stopped)), world.wound) := by
  rw [runTurn, Act.perform_bind, Act.stopWanted, Act.perform_see, hwanted]
  rfl

theorem runTurn_takes (hgoing : world.inbox.stopWanted = false) :
    (runTurn host ()).Yields world (Takes host world) fun halt after =>
      (sync host).perform world = (.error halt, after) ∧ ∀ cause, halt ≠ .fault cause := by
  rw [runTurn, Act.yields_bind, Act.stopWanted, Act.yields_see, hgoing,
    if_neg Bool.false_ne_true, Act.yields_bind, Act.yields_attempt]
  unfold Act.Yields
  cases hperform : (sync host).perform world with
  | mk result after =>
      cases result with
      | ok tip => exact settle_takes_of_ok hperform
      | error halt =>
          cases halt with
          | fault cause => exact settle_takes_of_fault hperform
          | _ => exact ⟨rfl, by simp⟩

end

/-!
# What a run keeps
-/

structure RunKeeps (kept : World σ → Prop) : Prop where
  enter {world : World σ} (phase : Phase) :
    kept world → kept { world.record (.entered phase) with phase := phase }
  failed {world : World σ} (cause : Fault) :
    kept world → kept (world.record (.emitted (.failed cause)))
  noticed {world : World σ} {block : Block} {rest : List Block} :
    world.inbox.queue = block :: rest → kept world → kept (world.noticed block rest)

namespace RunKeeps

variable {kept : World σ → Prop} (hkeeps : RunKeeps kept) {host : Host σ} {world after : World σ}
include hkeeps

theorem wound (h : kept world) : kept world.wound := by
  have hstopped := hkeeps.enter .stopped (hkeeps.enter .stopping h)
  exact hstopped

theorem reported (h : kept (left host world)) : kept (Following.reported host world) := by
  unfold Following.reported
  cases fault? host world with
  | none => exact h
  | some cause =>
      have htold := hkeeps.enter (phaseAfter cause) (hkeeps.failed cause h)
      exact htold

theorem wakes (h : kept world) {result : Turn Unit Rest} (hwakes : Wakes world result after) :
    kept after := by
  cases hwakes with
  | noticed hqueue => exact hkeeps.noticed hqueue h
  | deserted _ _ => exact hkeeps.wound h
  | _ => exact h

theorem takes (h : kept (left host world)) {result : Turn Unit Rest}
    (htakes : Takes host world result after) : kept after := by
  cases htakes with
  | fatal _ _ => exact hkeeps.reported h
  | stopping _ _ => exact hkeeps.wound (hkeeps.reported h)
  | woken _ _ hwakes => exact hkeeps.wakes (hkeeps.reported h) hwakes

section

variable {halted : Halt → World σ → Prop}
variable (hsync : ∀ world, kept world → (sync host).Yields world (fun _ => kept) halted)
variable (hhalted : ∀ cause world, halted cause world → kept world)
include hsync hhalted

theorem runTurn (h : kept world) : (runTurn host ()).Yields world (fun _ => kept) halted := by
  have hsynced := hsync world h
  cases hwanted : world.inbox.stopWanted with
  | true =>
      unfold Act.Yields
      rw [runTurn_of_stopWanted hwanted]
      exact hkeeps.wound h
  | false =>
      have hleft : kept (left host world) :=
        (hsynced.mono (fun _ _ hafter => hafter) hhalted).left
      refine (runTurn_takes hwanted).mono (fun _ _ htakes => hkeeps.takes hleft htakes) ?_
      rintro cause after ⟨hperform, _⟩
      unfold Act.Yields at hsynced
      rw [hperform] at hsynced
      exact hsynced

variable (hout : ∀ world, kept world → halted .abandoned world)
include hout

theorem run (h : kept world) : (run host).Yields world (fun _ => kept) halted := by
  refine Act.yields_turns (fun _ _ => kept) ?_ (fun _ => hout) h
  intro _ _ now hnow
  refine (hkeeps.runTurn hsync hhalted hnow).imp ?_
  intro result after hafter
  cases result <;> exact hafter

theorem resume (h : kept world) : (resume host).Yields world (fun _ => kept) halted := by
  rw [Following.resume, Act.yields_bind]
  refine (wake_wakes world).imp ?_
  intro result woken hwakes
  have hwoken := hkeeps.wakes h hwakes
  cases result with
  | again _ => exact hkeeps.run hsync hhalted hout hwoken
  | done rest => exact hwoken

end

end RunKeeps

end Following

end ChainIndex
