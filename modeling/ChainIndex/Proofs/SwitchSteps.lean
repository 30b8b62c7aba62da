import ChainIndex.Proofs.Lulls
import ChainIndex.Switching

/-!
# The steps of a switch

What a switch of branches is made of: searches of the tree, which only ask, and single
blocks that are taken off a track or put on it.  A step takes one of a few forms, or is cut
short for one of a few reasons, whoever the host is.

Planning, aligning and carrying out put these together.  What they yield is asked of their
parts here, one after the other, and nowhere else are they taken apart.
-/

namespace ChainIndex

/-!
# Searches

What is asked in a search of the tree is blocks and headers only.
-/

theorem Ancestry.turn_of_parts {host : Host σ} {old new : BlockHash} {walks : Walks}
    {world : World σ} {ended : Turn Walks Switch → World σ → Prop}
    {halted : Halt → World σ → Prop}
    (hmet : ∀ ancestor, meeting? walks = some ancestor →
      match above ancestor walks.newSeen with
      | some chain => ended (.done ⟨ancestor, old, chain⟩) world
      | none => halted (.fault (.noCommonAncestor old new)) world)
    (hover : meeting? walks = none → walks.oldAt = none → walks.newAt = none →
      halted (.fault (.noCommonAncestor old new)) world)
    (hdown : meeting? walks = none → ¬ (walks.oldAt = none ∧ walks.newAt = none) →
      (descend host walks.oldAt).Yields world (fun oldAt middle =>
        (descend host walks.newAt).Yields middle (fun newAt after =>
          ended (.again ⟨oldAt, newAt, oldAt.toList ++ walks.oldSeen,
            newAt.toList ++ walks.newSeen⟩) after) halted) halted) :
    (turn host old new walks).Yields world ended halted := by
  unfold turn
  cases hmeeting : meeting? walks with
  | some ancestor =>
      have hmet := hmet ancestor hmeeting
      dsimp only
      cases habove : above ancestor walks.newSeen with
      | some chain =>
          rw [habove] at hmet
          exact hmet
      | none =>
          rw [habove] at hmet
          exact hmet
  | none =>
      dsimp only
      have hboth : (walks.oldAt.isNone && walks.newAt.isNone) = true ↔
          walks.oldAt = none ∧ walks.newAt = none := by
        rw [Bool.and_eq_true_iff, Option.isNone_iff_eq_none, Option.isNone_iff_eq_none]
      by_cases hended : walks.oldAt = none ∧ walks.newAt = none
      · rw [if_pos (hboth.mpr hended), Act.yields_fail]
        exact hover hmeeting hended.1 hended.2
      · rw [if_neg fun h => hended (hboth.mp h), Act.yields_bind]
        refine (hdown hmeeting hended).imp fun oldAt middle hmiddle => ?_
        rw [Act.yields_bind]
        exact hmiddle

def Entry.isSearch : Entry → Bool
  | .askedBlock _ _ => true
  | .askedHeader _ _ => true
  | _ => false

theorem Entry.isQuestion_of_isSearch {entry : Entry} (h : entry.isSearch = true) :
    entry.isQuestion = true := by
  cases entry <;> first | rfl | cases h

def Searches (host : Host σ) (asked : List Entry) (world after : World σ) : Prop :=
  ∃ more, (∀ entry ∈ more, entry.isSearch = true) ∧ Asks host (more ++ asked) world after

namespace Searches

variable {host : Host σ} {start world after : World σ} {asked : List Entry}

theorem begin (h : Asks host asked start world) : Searches host asked start world :=
  ⟨[], by simp, h⟩

theorem parentOf (h : Searches host asked start world) (hash : BlockHash) :
    (Act.parentOf host hash).Yields world (fun _ after => Searches host asked start after)
      (fun _ after => Searches host asked start after) := by
  rcases h with ⟨more, hmore, hasks⟩
  refine (hasks.parentOf hash).mono ?_ ?_
  · intro found after hended
    rcases hended with ⟨answer, _, hafter, _⟩
    exact ⟨.askedHeader hash answer :: more, List.forall_mem_cons.mpr ⟨rfl, hmore⟩, hafter⟩
  · intro cause after hhalted
    exact ⟨.askedHeader hash (.error cause) :: more, List.forall_mem_cons.mpr ⟨rfl, hmore⟩,
      hhalted.2.1⟩

theorem descend (h : Searches host asked start world) (place : Option BlockHash) :
    (Ancestry.descend host place).Yields world (fun _ after => Searches host asked start after)
      (fun _ after => Searches host asked start after) := by
  cases place with
  | none => exact h
  | some hash => exact h.parentOf hash

theorem find (h : Searches host asked start world) (old new : BlockHash) :
    (Ancestry.find host old new).Yields world (fun _ after => Searches host asked start after)
      (fun _ after => Searches host asked start after) := by
  refine Act.yields_turns (fun _ _ world => Searches host asked start world) ?_ (fun _ _ h => h) h
  intro left walks world h
  refine Ancestry.turn_of_parts ?_ (fun _ _ _ => h) fun _ _ => ?_
  · intro ancestor _
    cases Ancestry.above ancestor walks.newSeen <;> exact h
  · exact (h.descend walks.oldAt).imp fun _ _ h => h.descend walks.newAt

end Searches

namespace Switching

/-!
# Planning
-/

section

variable {host : Host σ} {world : World σ} {halted : Halt → World σ → Prop}

theorem plan_of_parts {forkSeen : Bool} {ended : Option Switch → World σ → Prop}
    (h : (Act.bestHash host).Yields world (fun best asked =>
      (best = world.frontier.serial.hash → ended none asked) ∧
      (best ≠ world.frontier.serial.hash → forkSeen = true →
        (Ancestry.find host world.frontier.serial.hash best).Yields asked
          (fun switch after => ended (some switch) after) halted) ∧
      (best ≠ world.frontier.serial.hash → forkSeen = false →
        (Act.hashAt host world.frontier.serial.height).Yields asked (fun found looked =>
          (found = some world.frontier.serial.hash → ended none looked) ∧
          (found ≠ some world.frontier.serial.hash →
            (Ancestry.find host world.frontier.serial.hash best).Yields looked
              (fun switch after => ended (some switch) after) halted)) halted)) halted) :
    (plan host forkSeen).Yields world ended halted := by
  rw [plan, Act.yields_bind, Act.tip, Act.yields_see, Act.yields_bind]
  refine h.imp ?_
  intro best asked hasked
  rcases hasked with ⟨hbest, hfork, hlook⟩
  show (if best = world.frontier.serial.hash then _ else _ : Act σ (Option Switch)).Yields
    asked _ _
  by_cases hat : best = world.frontier.serial.hash
  · rw [if_pos hat]
    exact hbest hat
  · rw [if_neg hat]
    cases forkSeen with
    | true =>
        rw [if_pos rfl, Act.yields_bind]
        exact hfork hat rfl
    | false =>
        rw [if_neg Bool.false_ne_true, Act.yields_bind]
        refine (hlook hat rfl).imp ?_
        intro found looked hlooked
        show (if found = some world.frontier.serial.hash then _ else _ :
          Act σ (Option Switch)).Yields looked _ _
        by_cases hsame : found = some world.frontier.serial.hash
        · rw [if_pos hsame]
          exact hlooked.1 hsame
        · rw [if_neg hsame, Act.yields_bind]
          exact hlooked.2 hsame

end

def Plans (host : Host σ) (world after : World σ) : Prop :=
  ∃ best, Searches host [.askedBest best] world after

theorem plan_plans (host : Host σ) (forkSeen : Bool) (world : World σ) :
    (plan host forkSeen).Yields world (fun _ after => Plans host world after)
      (fun _ after => Plans host world after) := by
  have hfind {best : Except Halt BlockHash} {now : World σ}
      (h : Searches host [.askedBest best] world now) (old new : BlockHash) :
      (Ancestry.find host old new).Yields now (fun _ after => Plans host world after)
        (fun _ after => Plans host world after) :=
    (h.find old new).mono (fun _ _ hafter => ⟨_, hafter⟩) fun _ _ hafter => ⟨_, hafter⟩
  refine plan_of_parts ((Asks.refl host world).bestHash.mono ?_ ?_)
  · intro best asked hended
    have hasked := Searches.begin hended.1
    refine ⟨fun _ => ⟨_, hasked⟩, fun _ _ => hfind hasked _ _, fun _ _ => ?_⟩
    refine (hended.1.hashAt _).mono ?_ ?_
    · intro found looked hlooked
      rcases hlooked with ⟨answer, _, hlooked, _⟩
      have hsearch : Searches host [.askedBest (.ok best)] world looked :=
        ⟨[_], List.forall_mem_singleton.mpr rfl, hlooked⟩
      exact ⟨fun _ => ⟨_, hsearch⟩, fun _ => hfind hsearch _ _⟩
    · intro cause looked hlooked
      exact ⟨_, [_], List.forall_mem_singleton.mpr rfl, hlooked.2.1⟩
  · intro cause asked hhalted
    exact ⟨_, .begin hhalted.1⟩

/-!
# Single blocks
-/

theorem checkStop_yields (world : World σ) :
    (checkStop : Act σ Unit).Yields world
      (fun _ after => after = world ∧ world.inbox.stopWanted = false)
      (fun cause after => after = world ∧ world.inbox.stopWanted = true ∧
        cause = .fault (.aborted "shutdown requested")) := by
  rw [checkStop, Act.yields_bind, Act.stopWanted, Act.yields_see]
  cases hstop : world.inbox.stopWanted with
  | true => exact ⟨rfl, rfl, rfl⟩
  | false => exact ⟨rfl, rfl⟩

inductive RewindStep (host : Host σ) (track : Track) (ancestor : BlockHash) (undone : Nat)
    (world : World σ) : Turn Nat Nat → World σ → Prop where
  | arrived : (world.frontier.tip track).hash = ancestor →
      RewindStep host track ancestor undone world (.done undone) world
  | undone {block : Block} {after : World σ} :
      (world.frontier.tip track).hash ≠ ancestor → (world.frontier.tip track).height ≠ 0 →
      world.inbox.stopWanted = false →
      host.Finds (.byHash (world.frontier.tip track).hash) (.ok block) →
      Stepped host [.askedBlock (.byHash (world.frontier.tip track).hash) (.ok block)] track block
        .undo world after →
      RewindStep host track ancestor undone world (.again (undone + 1)) after

inductive RewindHalt (host : Host σ) (track : Track) (ancestor : BlockHash) (world : World σ) :
    Halt → World σ → Prop where
  | bottom : (world.frontier.tip track).hash ≠ ancestor → (world.frontier.tip track).height = 0 →
      RewindHalt host track ancestor world
        (.fault (.noCommonAncestor (world.frontier.tip track).hash ancestor)) world
  | stopped : (world.frontier.tip track).hash ≠ ancestor →
      (world.frontier.tip track).height ≠ 0 → world.inbox.stopWanted = true →
      RewindHalt host track ancestor world (.fault (.aborted "shutdown requested")) world
  | lost {cause : Halt} {after : World σ} :
      (world.frontier.tip track).hash ≠ ancestor → (world.frontier.tip track).height ≠ 0 →
      world.inbox.stopWanted = false →
      host.Finds (.byHash (world.frontier.tip track).hash) (.error cause) →
      Asks host [.askedBlock (.byHash (world.frontier.tip track).hash) (.error cause)] world
        after →
      RewindHalt host track ancestor world cause after
  | hindered {block : Block} {cause : Halt} {more : List Entry} {after : World σ} :
      (world.frontier.tip track).hash ≠ ancestor → (world.frontier.tip track).height ≠ 0 →
      world.inbox.stopWanted = false →
      host.Finds (.byHash (world.frontier.tip track).hash) (.ok block) →
      Asks host (more ++ [.askedBlock (.byHash (world.frontier.tip track).hash) (.ok block)]) world
        after →
      host.Hinders track block .undo world cause more after →
      RewindHalt host track ancestor world cause after

theorem RewindHalt.ne {host : Host σ} {track : Track} {ancestor : BlockHash}
    {world after : World σ} {cause : Halt} (h : RewindHalt host track ancestor world cause after) :
    (world.frontier.tip track).hash ≠ ancestor := by
  cases h <;> assumption

theorem rewindTurn_yields (host : Host σ) (track : Track) (ancestor : BlockHash) (undone : Nat)
    (world : World σ) :
    (rewindTurn host track ancestor undone).Yields world
      (RewindStep host track ancestor undone world) (RewindHalt host track ancestor world) := by
  rw [rewindTurn, Act.yields_bind, Act.tip, Act.yields_see]
  by_cases hat : (world.frontier.tip track).hash = ancestor
  · rw [if_pos hat]
    exact RewindStep.arrived hat
  · rw [if_neg hat]
    by_cases hzero : (world.frontier.tip track).height = 0
    · rw [if_pos hzero]
      exact RewindHalt.bottom hat hzero
    · rw [if_neg hzero, Act.yields_bind]
      refine (checkStop_yields world).mono ?_ ?_
      · intro _ going hgoing
        rcases hgoing with ⟨rfl, hgoing⟩
        rw [Act.yields_bind]
        refine ((Asks.refl host going).blockAt _).mono ?_ fun cause after hhalted =>
          .lost hat hzero hgoing hhalted.2 hhalted.1
        intro block found hended
        rw [Act.yields_bind]
        refine (hended.1.stepBlock track block .undo).mono ?_ ?_
        · intro _ after hstepped
          exact RewindStep.undone hat hzero hgoing hended.2 hstepped
        · intro cause after hhalted
          rcases hhalted with ⟨more, hafter, hhinders⟩
          exact .hindered hat hzero hgoing hended.2 hafter hhinders
      · intro cause after hhalted
        rcases hhalted with ⟨rfl, hwanted, rfl⟩
        exact .stopped hat hzero hwanted

inductive ReplayStep (host : Host σ) (track : Track) (hash : BlockHash) (world : World σ) :
    World σ → Prop where
  | applied {block : Block} {after : World σ} : world.inbox.stopWanted = false →
      host.Finds (.byHash hash) (.ok block) →
      block.extends? (world.frontier.tip track) = some true →
      Stepped host [.askedBlock (.byHash hash) (.ok block)] track block .apply world after →
      ReplayStep host track hash world after

inductive ReplayHalt (host : Host σ) (track : Track) (hash : BlockHash) (world : World σ) :
    Halt → World σ → Prop where
  | stopped : world.inbox.stopWanted = true →
      ReplayHalt host track hash world (.fault (.aborted "shutdown requested")) world
  | lost {cause : Halt} {after : World σ} : world.inbox.stopWanted = false →
      host.Finds (.byHash hash) (.error cause) →
      Asks host [.askedBlock (.byHash hash) (.error cause)] world after →
      ReplayHalt host track hash world cause after
  | apart {block : Block} {cause : Halt} {after : World σ} : world.inbox.stopWanted = false →
      host.Finds (.byHash hash) (.ok block) →
      block.extends? (world.frontier.tip track) ≠ some true →
      Asks host [.askedBlock (.byHash hash) (.ok block)] world after →
      ReplayHalt host track hash world cause after
  | hindered {block : Block} {cause : Halt} {more : List Entry} {after : World σ} :
      world.inbox.stopWanted = false → host.Finds (.byHash hash) (.ok block) →
      block.extends? (world.frontier.tip track) = some true →
      Asks host (more ++ [.askedBlock (.byHash hash) (.ok block)]) world after →
      host.Hinders track block .apply world cause more after →
      ReplayHalt host track hash world cause after

theorem replayOne_yields (host : Host σ) (track : Track) (hash : BlockHash) (world : World σ) :
    (replayOne host track hash).Yields world (fun _ after => ReplayStep host track hash world after)
      (ReplayHalt host track hash world) := by
  rw [replayOne, Act.yields_bind]
  refine (checkStop_yields world).mono ?_ ?_
  · intro _ going hgoing
    rcases hgoing with ⟨rfl, hgoing⟩
    rw [Act.yields_bind]
    refine ((Asks.refl host going).blockAt _).mono ?_ fun cause after hhalted =>
      .lost hgoing hhalted.2 hhalted.1
    intro block found hended
    rcases hended with ⟨hfound, hfinds⟩
    rw [Act.yields_bind, Act.tip, Act.yields_see, hfound.frontier, Act.yields_bind,
      Act.yields_ofExcept]
    cases hextends : block.extends? (going.frontier.tip track) with
    | none => exact .apart hgoing hfinds (by rw [hextends]; simp) hfound
    | some fits =>
        cases fits with
        | false => exact .apart hgoing hfinds (by rw [hextends]; simp) hfound
        | true =>
            refine (hfound.stepBlock track block .apply).mono ?_ ?_
            · intro _ after hstepped
              exact .applied hgoing hfinds hextends hstepped
            · intro cause after hhalted
              rcases hhalted with ⟨more, hafter, hhinders⟩
              exact .hindered hgoing hfinds hextends hafter hhinders
  · intro cause after hhalted
    rcases hhalted with ⟨rfl, hwanted, rfl⟩
    exact .stopped hwanted

/-!
# Whole branches
-/

section

variable {host : Host σ} {world : World σ} {halted : Halt → World σ → Prop}

theorem replay_of_steps {track : Track} (kept : List BlockHash → World σ → Prop)
    (hstep : ∀ hash rest now, kept (hash :: rest) now →
      (replayOne host track hash).Yields now (fun _ after => kept rest after) halted)
    {hashes : List BlockHash} (h : kept hashes world) :
    (replay host track hashes).Yields world (fun _ after => kept [] after) halted := by
  induction hashes generalizing world with
  | nil => exact h
  | cons hash rest ih =>
      rw [replay, Act.yields_bind]
      refine (hstep hash rest world h).imp ?_
      intro _ now hnow
      rw [Act.yields_bind]
      exact ih hnow

theorem align_of_parts {ended : Option Switch → World σ → Prop}
    (hlevel : world.frontier.concurrent = world.frontier.serial → ended none world)
    (hapart : world.frontier.concurrent ≠ world.frontier.serial →
      (Ancestry.find host world.frontier.concurrent.hash world.frontier.serial.hash).Yields world
        (fun switch found => (rewind host .concurrent switch.ancestor).Yields found
          (fun _ rewound => (replay host .concurrent switch.chain).Yields rewound
            (fun _ after => ended (some switch) after) halted) halted) halted) :
    (align host).Yields world ended halted := by
  rw [align, Act.yields_bind, Act.tip, Act.yields_see, Act.yields_bind, Act.tip, Act.yields_see]
  by_cases heq : world.frontier.concurrent = world.frontier.serial
  · rw [if_pos (show world.frontier.tip .concurrent = world.frontier.tip .serial from heq)]
    exact hlevel heq
  · rw [if_neg (show world.frontier.tip .concurrent ≠ world.frontier.tip .serial from heq),
      Act.yields_bind]
    refine (hapart heq).imp fun switch found hfound => ?_
    rw [Act.yields_bind]
    refine hfound.imp fun _ rewound hrewound => ?_
    rw [Act.yields_bind]
    exact hrewound

theorem align_of_level {ended : Option Switch → World σ → Prop}
    (hlevel : world.frontier.concurrent = world.frontier.serial) (h : ended none world) :
    (align host).Yields world ended halted :=
  align_of_parts (fun _ => h) fun hapart => absurd hlevel hapart

def begun (switch : Switch) (world : World σ) : World σ :=
  if switch.isForward then world else world.record (.emitted (.switched switch.ancestor))

theorem begun_of_back {switch : Switch} (h : switch.isForward = false) (world : World σ) :
    begun switch world = world.record (.emitted (.switched switch.ancestor)) := by
  rw [begun, h, if_neg Bool.false_ne_true]

theorem begun_of_forward {switch : Switch} (h : switch.isForward = true) (world : World σ) :
    begun switch world = world := by
  rw [begun, h, if_pos rfl]

theorem past_begun (switch : Switch) (world : World σ) :
    world.course <:+ (begun switch world).course := by
  unfold begun
  split
  · exact List.suffix_refl _
  · exact List.suffix_cons _ _

theorem carryOut_of_parts {switch : Switch} {ended : Unit → World σ → Prop}
    (h : (rewind host .serial switch.ancestor).Yields (begun switch world)
      (fun _ first => (rewind host .concurrent switch.ancestor).Yields first
        (fun _ second => (replay host .concurrent switch.chain).Yields second
          (fun _ third => (replay host .serial switch.chain).Yields third
            (fun _ after => ended () after) halted) halted) halted) halted) :
    (carryOut host switch).Yields world ended halted := by
  have hwork : (do
      let _ ← rewind host .serial switch.ancestor
      let _ ← rewind host .concurrent switch.ancestor
      let _ ← replay host .concurrent switch.chain
      let _ ← replay host .serial switch.chain
      pure () : Act σ Unit).Yields (begun switch world) ended halted := by
    rw [Act.yields_bind]
    refine h.imp fun _ first hfirst => ?_
    rw [Act.yields_bind]
    refine hfirst.imp fun _ second hsecond => ?_
    rw [Act.yields_bind]
    refine hsecond.imp fun _ third hthird => ?_
    rw [Act.yields_bind]
    exact hthird
  unfold carryOut
  unfold begun at hwork
  cases hforward : switch.isForward with
  | true =>
      rw [hforward] at hwork
      exact hwork
  | false =>
      rw [hforward] at hwork
      exact hwork

end

/-!
# What a switch keeps

A switch asks, tells and moves the tracks by single blocks.  What is kept by each of these is
kept by the whole of it.
-/

def Fits (hash : BlockHash) (block : Block) (tip : Pointer) : Direction → Prop
  | .undo => hash = tip.hash
  | .apply => block.extends? tip = some true

structure Keeps (host : Host σ) (kept : World σ → Prop) (halted : Halt → World σ → Prop) :
    Prop where
  halts {cause : Halt} {world : World σ} : kept world → halted cause world
  asks {asked : List Entry} {world after : World σ} :
    (∀ entry ∈ asked, entry.isQuestion = true) → Asks host asked world after →
      kept world → kept after
  step {track : Track} {hash : BlockHash} {block : Block} {direction : Direction}
    {world after : World σ} :
    world.inbox.stopWanted = false → host.Finds (.byHash hash) (.ok block) →
      Fits hash block (world.frontier.tip track) direction →
      Stepped host [.askedBlock (.byHash hash) (.ok block)] track block direction world after →
      kept world → kept after
  hinder {track : Track} {hash : BlockHash} {block : Block} {direction : Direction}
    {cause : Halt} {more : List Entry} {world after : World σ} :
    world.inbox.stopWanted = false →
      Asks host (more ++ [.askedBlock (.byHash hash) (.ok block)]) world after →
      host.Hinders track block direction world cause more after →
      kept world → halted cause after
  switched {ancestor : BlockHash} {world : World σ} :
    kept world → kept (world.record (.emitted (.switched ancestor)))

namespace Keeps

variable {host : Host σ} {kept : World σ → Prop} {halted : Halt → World σ → Prop}
variable (hkeeps : Keeps host kept halted) {world : World σ}
include hkeeps

theorem find (h : kept world) (old new : BlockHash) :
    (Ancestry.find host old new).Yields world (fun _ => kept) halted := by
  have hsearches {after : World σ} (hafter : Searches host [] world after) : kept after := by
    rcases hafter with ⟨more, hmore, hasks⟩
    rw [List.append_nil] at hasks
    exact hkeeps.asks (fun entry hentry => Entry.isQuestion_of_isSearch (hmore entry hentry))
      hasks h
  exact (Searches.begin (.refl host world)).find old new |>.mono
    (fun _ _ hafter => hsearches hafter) fun _ _ hafter => hkeeps.halts (hsearches hafter)

theorem rewind (h : kept world) (track : Track) (ancestor : BlockHash) :
    (Switching.rewind host track ancestor).Yields world (fun _ => kept) halted := by
  refine Act.yields_turns (fun _ _ => kept) ?_ (fun _ _ => hkeeps.halts) h
  intro _ undone now hnow
  refine (rewindTurn_yields host track ancestor undone now).mono ?_ ?_
  · intro result after hstep
    cases hstep with
    | arrived _ => exact hnow
    | undone _ _ hgoing hfinds hstepped =>
        exact hkeeps.step hgoing hfinds (show Fits _ _ _ .undo from rfl) hstepped hnow
  · intro cause after hhalt
    cases hhalt with
    | lost _ _ _ _ hasks =>
        exact hkeeps.halts (hkeeps.asks (List.forall_mem_singleton.mpr rfl) hasks hnow)
    | hindered _ _ hgoing _ hasks hhinders => exact hkeeps.hinder hgoing hasks hhinders hnow
    | _ => exact hkeeps.halts hnow

theorem replayOne (h : kept world) (track : Track) (hash : BlockHash) :
    (Switching.replayOne host track hash).Yields world (fun _ => kept) halted := by
  refine (replayOne_yields host track hash world).mono ?_ ?_
  · intro _ after hstep
    cases hstep with
    | applied hgoing hfinds hextends hstepped =>
        exact hkeeps.step hgoing hfinds (show Fits _ _ _ .apply from hextends) hstepped h
  · intro cause after hhalt
    cases hhalt with
    | stopped _ => exact hkeeps.halts h
    | lost _ _ hasks | apart _ _ _ hasks =>
        exact hkeeps.halts (hkeeps.asks (List.forall_mem_singleton.mpr rfl) hasks h)
    | hindered hgoing _ _ hasks hhinders => exact hkeeps.hinder hgoing hasks hhinders h

theorem replay (h : kept world) (track : Track) (hashes : List BlockHash) :
    (Switching.replay host track hashes).Yields world (fun _ => kept) halted :=
  replay_of_steps (fun _ => kept) (fun hash _ _ hnow => hkeeps.replayOne hnow track hash) h

theorem align (h : kept world) : (Switching.align host).Yields world (fun _ => kept) halted :=
  align_of_parts (fun _ => h) fun _ => (hkeeps.find h _ _).imp fun _ _ hfound =>
    (hkeeps.rewind hfound _ _).imp fun _ _ hrewound => hkeeps.replay hrewound _ _

theorem plan (h : kept world) (forkSeen : Bool) :
    (Switching.plan host forkSeen).Yields world (fun _ => kept) halted := by
  have hplans {after : World σ} (hafter : Plans host world after) : kept after := by
    rcases hafter with ⟨best, more, hmore, hasks⟩
    refine hkeeps.asks (List.forall_mem_append.mpr ⟨?_, List.forall_mem_singleton.mpr rfl⟩) hasks h
    exact fun entry hentry => Entry.isQuestion_of_isSearch (hmore entry hentry)
  exact (plan_plans host forkSeen world).mono (fun _ _ hafter => hplans hafter)
    fun _ _ hafter => hkeeps.halts (hplans hafter)

theorem begun (h : kept world) (switch : Switch) : kept (Switching.begun switch world) := by
  unfold Switching.begun
  split
  · exact h
  · exact hkeeps.switched h

theorem carryOut (h : kept world) (switch : Switch) :
    (Switching.carryOut host switch).Yields world (fun _ => kept) halted :=
  carryOut_of_parts <|
    (hkeeps.rewind (hkeeps.begun h switch) _ _).imp fun _ _ hfirst =>
    (hkeeps.rewind hfirst _ _).imp fun _ _ hsecond =>
    (hkeeps.replay hsecond _ _).imp fun _ _ hthird => hkeeps.replay hthird _ _

end Keeps

theorem keeps_past (host : Host σ) (past : List Entry) :
    Keeps host (past <:+ ·.course) fun _ => (past <:+ ·.course) where
  halts h := h
  asks _ hasks h := h.trans hasks.past
  step _ _ _ hstepped h := h.trans hstepped.past
  hinder _ hasks _ h := h.trans hasks.past
  switched h := h.trans (List.suffix_cons _ _)

end Switching

end ChainIndex
