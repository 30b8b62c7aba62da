import ChainIndex.Proofs.Flight
import ChainIndex.Proofs.RunTurns

/-!
# Rounds of a sync

A round takes in what has been announced, aligns the tracks, switches branches if
the serial tip has left the best chain, and syncs forward.  On firm terms it ends
at the best block, or short of it with a fork ahead; after a fork the next round
begins with a switch to the best block, and nothing is left for it to fetch.
-/

namespace ChainIndex

/-- The block that was announced last, be it still queued. -/
def Follower.hint? (follower : Follower) : Option Block :=
  follower.inbox.queue.getLast?.or follower.intake.announced

open Classical in
/-- Where a round begins to fetch, once it has switched if need be. -/
noncomputable def BlockTree.startFrom (tree : BlockTree) (best : Block) (forkSeen : Bool)
    (serial : Block) : Block :=
  if forkSeen = false ∧ tree.Below serial best then serial else best

theorem BlockTree.startFrom_below (tree : BlockTree) (best : Block) (forkSeen : Bool)
    (serial : Block) : tree.Below (tree.startFrom best forkSeen serial) best := by
  unfold startFrom
  split
  · rename_i hstart
    exact hstart.2
  · exact Below.refl best

def Forked (terms : Terms) (start goal : Block) (world : World σ) : Prop :=
  ∃ standing intake, Stands terms standing intake world ∧
    standing.concurrent = standing.serial ∧
      (terms.firm → terms.tree.Below start standing.serial ∧ standing.serial ≠ terms.best ∧
        (standing.serial = goal ∨
          (goal = terms.best ∧ terms.tree.Below standing.serial terms.best)))

def Finished (terms : Terms) (goal : Block) (tip : Pointer) (world : World σ) : Prop :=
  ∃ standing intake, Stands terms standing intake world ∧ tip = standing.serial.pointer ∧
    (terms.firm → standing.concurrent = terms.best ∧ standing.serial = terms.best ∧
      goal = terms.best)

section

variable {terms : Terms} {goal : Block} {standing : Standing} {intake : Intake}
variable {world : World σ} {host : Host σ}

theorem drain_eq (inbox : Inbox) (intake : Intake) :
    Following.drain inbox intake =
      { intake with announced := inbox.queue.getLast?.or intake.announced } := by
  unfold Following.drain
  induction inbox.queue generalizing intake with
  | nil => rfl
  | cons block rest ih =>
      rw [List.foldl_cons, ih]
      cases rest with
      | nil => rfl
      | cons next more =>
          rw [List.getLast?_cons_cons, List.getLast?_eq_some_getLast (List.cons_ne_nil next more)]
          rfl

theorem Stands.hint_mem (h : Stands terms standing intake world) :
    ∀ hint ∈ world.hint?, hint ∈ terms.tree := by
  intro hint hhint
  unfold Follower.hint? at hhint
  rcases Option.or_eq_some_iff.mp hhint with hlast | ⟨_, hkept⟩
  · exact h.queued hint (List.mem_of_getLast? hlast)
  · rw [h.memory] at hkept
    exact h.announced hint hkept

theorem Stands.drained (h : Stands terms standing intake world) :
    Stands terms standing { intake with announced := world.hint? } world.drained := by
  refine { h with
    memory := ?_
    announced := h.hint_mem
    queued := ?_
    going := h.going }
  · show Following.drain world.inbox world.intake = _
    rw [drain_eq, h.memory]
    unfold Follower.hint?
    rw [h.memory]
  · intro block hblock
    cases hblock

theorem Stands.setOut (h : Stands terms standing intake world) (switch : Switch) :
    Stands terms standing intake (Following.setOut switch world) := by
  unfold Following.setOut
  split
  · exact h
  · exact h.enter .reorging

/-!
# One round
-/

theorem Stands.switchIfNeeded (h : Stands terms standing intake world)
    (hhost : host.Honours terms) (hlevel : standing.concurrent = standing.serial)
    (forkSeen : Bool) (hserved : terms.firm → terms.served standing.serial) :
    (Following.switchIfNeeded host forkSeen).Yields world
      (fun _ after => ∃ last, Stands terms last intake after ∧ last.concurrent = last.serial ∧
        (terms.firm → last.serial = terms.tree.startFrom terms.best forkSeen standing.serial))
      (Cut terms) := by
  refine Following.switchIfNeeded_of_parts ((h.plan hhost forkSeen fun hfirm =>
    terms.served_charted hfirm (hserved hfirm)).mono ?_ fun _ _ hstuck => hstuck.cut)
  intro found planned hended
  rcases hended with ⟨hplanned, hfound⟩
  cases found with
  | none =>
      refine ⟨standing, hplanned, hlevel, fun hfirm => ?_⟩
      rcases hfound hfirm with ⟨hbelow, hbest⟩
      unfold BlockTree.startFrom
      cases forkSeen with
      | false => rw [if_pos ⟨rfl, hbelow⟩]
      | true =>
          rw [if_neg (by simp)]
          exact hbest rfl
  | some switch =>
      rcases hfound with ⟨hfork, high, _, hbest, base, blocks, hjoins⟩
      refine ((hplanned.setOut switch).carryOut hhost hlevel hjoins hserved hbest).imp ?_
      intro _ after hended
      rcases hended with ⟨last, hlast, hconcurrent, hserial⟩
      refine ⟨last, hlast, hconcurrent.trans hserial.symm, fun hfirm => ?_⟩
      rw [hserial, hbest hfirm]
      unfold BlockTree.startFrom
      rw [if_neg]
      intro hboth
      rcases hboth with ⟨hfresh, hbelow⟩
      rw [hfork hfirm hbelow] at hfresh
      cases hfresh

theorem Stands.cycle (h : Stands terms standing intake world) (hhost : host.Honours terms)
    (forkSeen : Bool) (hserved : terms.firm → terms.served standing.concurrent)
    (hheading : terms.firm →
      Heading terms (terms.tree.startFrom terms.best forkSeen standing.serial) goal
        (terms.tree.startFrom terms.best forkSeen standing.serial) intake.announced)
    (heligible : terms.firm → ∀ block, terms.tree.Below block goal → terms.eligible block) :
    (Following.cycle host forkSeen).Yields world
      (Landed terms (terms.tree.startFrom terms.best forkSeen standing.serial) goal)
      (Cut terms) := by
  have hserialServed : terms.firm → terms.served standing.serial := fun hfirm =>
    Terms.served_below hfirm h.chronicle.order.2 (hserved hfirm)
  refine Following.cycle_of_parts (((h.enter _).align hhost hserved).mono ?_
    fun _ _ hhalted => hhalted.cut)
  intro _ aligned hended
  rcases hended with ⟨level, haligned, hshifts, hlevel, _⟩
  have hserial : level.serial = standing.serial := hshifts.other .serial (by decide)
  refine (haligned.switchIfNeeded hhost hlevel forkSeen (hserial ▸ hserialServed)).imp ?_
  intro _ switched hended
  rcases hended with ⟨last, hlast, hlastLevel, hstart⟩
  refine (hlast.enter .syncing).forward hhost hlastLevel (fun hfirm => ?_) heligible
  rw [hstart hfirm, hserial]
  exact hheading hfirm

theorem Stands.syncTurn (h : Stands terms standing intake world) (hhost : host.Honours terms)
    (forkSeen : Bool) (hserved : terms.firm → terms.served standing.concurrent)
    (hheading : terms.firm →
      Heading terms (terms.tree.startFrom terms.best forkSeen standing.serial) goal
        (terms.tree.startFrom terms.best forkSeen standing.serial) world.hint?)
    (heligible : terms.firm → ∀ block, terms.tree.Below block goal → terms.eligible block) :
    (Following.syncTurn host forkSeen).Yields world
      (fun result after => result.Is
        (fun again => again = true ∧
          Forked terms (terms.tree.startFrom terms.best forkSeen standing.serial) goal after)
        (Finished terms goal · after))
      (Cut terms) := by
  have hstop {stopped : World σ} {last : Standing} {kept : Intake}
      (hstands : Stands terms last kept stopped) (hloose : ¬ terms.firm) :
      Finished terms goal stopped.frontier.serial (stopped.entered .stopping) :=
    ⟨last, kept, hstands.enter .stopping, hstands.tip .serial, fun hfirm => absurd hfirm hloose⟩
  have hdrained := h.drained
  refine Following.syncTurn_of_cycle ?_ fun _ => ?_
  · intro hwanted
    refine hstop hdrained fun hfirm => ?_
    rw [h.going hfirm] at hwanted
    cases hwanted
  · refine (hdrained.cycle hhost forkSeen hserved hheading heligible).mono ?_ ?_
    · intro outcome after hended
      rcases hended with ⟨last, kept, hlast, houtcome⟩
      cases outcome with
      | synced tip =>
          rcases houtcome with ⟨hlevel, htip, hbest⟩
          refine ⟨last, kept, hlast.enter .synced, htip, fun hfirm => ?_⟩
          exact ⟨hlevel.trans (hbest hfirm).1, hbest hfirm⟩
      | forked height => exact ⟨rfl, last, kept, hlast, houtcome⟩
      | stopped tip =>
          exact ⟨last, kept, hlast.enter .stopping, houtcome.1,
            fun hfirm => absurd hfirm houtcome.2⟩
    · intro cause after hhalted
      rcases hhalted with ⟨hloose, last, kept, hlast⟩
      exact ⟨fun _ => hstop hlast hloose, fun _ => ⟨hloose, last, kept, hlast⟩⟩

/-!
# Whole calls on loose terms

However a call comes out, the world it leaves is sound.
-/

theorem Sound.syncTurn (h : Sound terms world) (hhost : host.Honours terms)
    (hloose : ¬ terms.firm) (forkSeen : Bool) :
    (Following.syncTurn host forkSeen).Yields world (fun _ after => Sound terms after)
      (Cut terms) := by
  rcases h with ⟨standing, intake, hstands⟩
  have hheading : terms.firm →
      Heading terms (terms.tree.startFrom terms.best forkSeen standing.serial) terms.best
        (terms.tree.startFrom terms.best forkSeen standing.serial) world.hint? := fun hfirm =>
    absurd hfirm hloose
  refine (hstands.syncTurn hhost forkSeen (fun hfirm => absurd hfirm hloose) hheading
    fun hfirm => absurd hfirm hloose).imp ?_
  intro result after hresult
  cases result with
  | again forkSeen =>
      rcases hresult.2 with ⟨last, kept, hlast, _⟩
      exact ⟨last, kept, hlast⟩
  | done tip =>
      rcases hresult with ⟨last, kept, hlast, _⟩
      exact ⟨last, kept, hlast⟩

theorem Sound.sync (h : Sound terms world) (hhost : host.Honours terms) (hloose : ¬ terms.firm) :
    (Following.sync host).Yields world (fun _ after => Sound terms after) (Cut terms) := by
  refine Act.yields_turns (fun _ _ world => Sound terms world) ?_ ?_ h
  · intro left forkSeen world hsound
    refine (hsound.syncTurn hhost hloose forkSeen).imp ?_
    intro result after hafter
    cases result with
    | again _ => exact hafter
    | done tip => exact hafter
  · intro forkSeen world hsound
    exact ⟨hloose, hsound⟩

theorem Sound.enter (h : Sound terms world) (phase : Phase) :
    Sound terms { world.record (.entered phase) with phase := phase } := by
  rcases h with ⟨standing, intake, hstands⟩
  exact ⟨standing, intake, hstands.enter phase⟩

theorem Sound.keepsRun (terms : Terms) :
    Following.RunKeeps fun world : World σ => Sound terms world where
  enter phase h := h.enter phase
  failed := by
    rintro world cause ⟨standing, intake, hstands⟩
    exact ⟨standing, intake, hstands.emit trivial⟩
  noticed := by
    rintro world block rest hqueue ⟨standing, intake, hstands⟩
    have hqueued := hstands.queued
    rw [hqueue] at hqueued
    refine ⟨standing, intake.announce block, { hstands with
      memory := congrArg (Intake.announce · block) hstands.memory
      groupSize := hstands.groupSize
      highWater := hstands.highWater
      announced := ?_
      queued := ?_
      going := hstands.going }⟩
    · intro other hother
      cases hother
      exact hqueued block List.mem_cons_self
    · intro other hother
      exact hqueued other (List.mem_cons_of_mem _ hother)

theorem Sound.run (h : Sound terms world) (hhost : host.Honours terms) (hloose : ¬ terms.firm) :
    (Following.run host).Yields world (fun _ after => Sound terms after) (Cut terms) :=
  (Sound.keepsRun terms).run (fun _ hsound => hsound.sync hhost hloose) (fun _ _ hcut => hcut.2)
    (fun _ hsound => ⟨hloose, hsound⟩) h

theorem Sound.resume (h : Sound terms world) (hhost : host.Honours terms)
    (hloose : ¬ terms.firm) :
    (Following.resume host).Yields world (fun _ after => Sound terms after) (Cut terms) :=
  (Sound.keepsRun terms).resume (fun _ hsound => hsound.sync hhost hloose)
    (fun _ _ hcut => hcut.2) (fun _ hsound => ⟨hloose, hsound⟩) h

end

end ChainIndex
