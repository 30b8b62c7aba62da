import ChainIndex.Proofs.Attention

/-!
# Blocks in flight

Whatever a host answers, and whatever comes of it, the blocks in flight lie between the tips and
the newest block at the beginning of every turn of forward sync.  They are linked from the serial
tip to the newest block, and the concurrent tip is the last of those that its track has passed.
A run that ends without being told to stop leaves nothing in flight, and so both tips are at one
block.
-/

namespace ChainIndex

theorem Linked.high_eq {low high : BlockHash} {blocks : List Block} (h : Linked low blocks high) :
    high = (blocks.getLast?.map Block.hash).getD low := by
  induction h with
  | stay _ => rfl
  | @up low high block rest _ _ ih =>
      rw [List.getLast?_cons, ih]
      cases rest.getLast? <;> rfl

namespace Forward

/-- Forward sync that was started in the first world begins a turn in the second one. -/
inductive TurnBegins (host : Host σ) (start : World σ) : World σ → Prop where
  | first {next : UInt64} : start.frontier.concurrent = start.frontier.serial →
      heightAbove? start.frontier.serial.height = some next →
      TurnBegins host start
        { start with intake := reset start.intake start.frontier.serial next }
  | again {world after : World σ} : TurnBegins host start world →
      (turn host ()).perform world = (.ok (.again ()), after) → TurnBegins host start after

def passed (serial : Pointer) (intake : Intake) : Pointer :=
  ((intake.inFlight.take intake.grouped).getLast?.map Block.pointer).getD serial

/-- The blocks in flight lie between the tips and the newest block. -/
structure InOrder (start world : World σ) : Prop where
  highWater : world.intake.highWater = start.intake.highWater
  grouped : world.intake.grouped ≤ world.intake.inFlight.length
  fits : world.intake.inFlight.length ≤ world.intake.highWater
  linked : Links world
  concurrent : world.frontier.concurrent = passed world.frontier.serial world.intake

def Leaves (outcome : Outcome) (after : World σ) : Prop :=
  match outcome with
  | .stopped tip => tip = after.frontier.serial
  | .forked _ => after.intake.inFlight = [] ∧ after.frontier.concurrent = after.frontier.serial
  | .synced tip => after.intake.inFlight = [] ∧
      after.frontier.concurrent = after.frontier.serial ∧ tip = after.frontier.serial

namespace InOrder

variable {host : Host σ} {start world after : World σ}

theorem fetchStep {asked : List Entry} {kept : Intake}
    (hstep : FetchStep host world.intake asked kept)
    (hasks : Asks host asked { world with intake := kept } after) (h : InOrder start world) :
    InOrder start after := by
  have hgrouped := h.grouped
  constructor
  · rw [hasks.intake]
    exact hstep.sizes.2.trans h.highWater
  · rw [hasks.intake]
    cases hstep with
    | taken _ _ _ _ _ _ =>
        show world.intake.grouped ≤ (world.intake.inFlight ++ [_]).length
        rw [List.length_append]
        omega
    | _ => exact hgrouped
  · rw [hasks.intake]
    cases hstep with
    | taken hopen _ _ _ _ _ =>
        have hroom : isFull world.intake = false := (Bool.or_eq_false_iff.mp hopen).2
        rw [isFull, decide_eq_false_iff_not, Nat.not_le] at hroom
        show (world.intake.inFlight ++ [_]).length ≤ world.intake.highWater
        rw [List.length_append]
        exact hroom
    | _ => exact h.fits
  · exact h.linked.fetched hstep hasks
  · rw [hasks.frontier, hasks.intake]
    refine h.concurrent.trans ?_
    cases hstep with
    | @taken block _ _ _ _ _ _ _ _ _ _ _ =>
        have htake : (world.intake.inFlight ++ [block]).take world.intake.grouped =
            world.intake.inFlight.take world.intake.grouped :=
          List.take_append_of_le_length hgrouped
        unfold passed
        rw [htake]
    | _ => rfl

theorem groupStep (hstep : GroupStep host world after) (h : InOrder start world) :
    InOrder start after := by
  have hlinked := h.linked.grouped hstep
  cases hstep with
  | idle _ => exact h
  | @grouped last edits _ heard _ hlast _ _ hasks =>
      have hgrouped := h.grouped
      have hlength := Flight.length_nextGroup world.intake
      have hpending : pending world.intake =
          world.intake.inFlight.length - world.intake.grouped := rfl
      refine ⟨h.highWater, ?_, h.fits, hlinked, ?_⟩
      · show world.intake.grouped + (nextGroup world.intake).length ≤ world.intake.inFlight.length
        omega
      · show last.pointer = ((world.intake.inFlight.take
          (world.intake.grouped + (nextGroup world.intake).length)).getLast?.map
            Block.pointer).getD _
        rw [Flight.take_nextGroup, List.getLast?_append, hlast]
        rfl

theorem serialStep (hstep : SerialStep host world after) (h : InOrder start world) :
    InOrder start after := by
  have hlinked := h.linked.committed hstep
  cases hstep with
  | idle _ => exact h
  | @committed block moved hnext hstepped =>
      rcases nextSerial?_eq_some hnext with ⟨hpositive, rest, hrest⟩
      cases hstepped with
      | @step heard outages own pointer hasks _ _ hpointer =>
          have hintake : heard.intake = world.intake := hasks.intake
          have hfits := h.fits
          have hgrouped := h.grouped
          have hconcurrent := h.concurrent
          rw [hrest] at hfits hgrouped
          rw [List.length_cons] at hfits hgrouped
          obtain rfl := Except.ok.inj hpointer
          constructor
          · exact (congrArg Intake.highWater hintake).trans h.highWater
          · show heard.intake.grouped - 1 ≤ heard.intake.inFlight.tail.length
            rw [hintake, hrest, List.tail_cons]
            omega
          · show heard.intake.inFlight.tail.length ≤ heard.intake.highWater
            rw [hintake, hrest, List.tail_cons]
            omega
          · exact hlinked
          · show heard.frontier.concurrent = ((heard.intake.inFlight.tail.take
              (heard.intake.grouped - 1)).getLast?.map Block.pointer).getD block.pointer
            have hfrontier : heard.frontier = world.frontier := hasks.frontier
            -- The block is the first of those that the concurrent track has passed.
            have htake : world.intake.inFlight.take world.intake.grouped =
                block :: rest.take (world.intake.grouped - 1) := by
              rw [hrest, ← List.take_succ_cons, Nat.sub_add_cancel hpositive]
            unfold passed at hconcurrent
            rw [htake, List.getLast?_cons] at hconcurrent
            rw [hfrontier, hintake, hrest, List.tail_cons, hconcurrent]
            cases (rest.take (world.intake.grouped - 1)).getLast? <;> rfl

theorem keeps (host : Host σ) (start : World σ) :
    StagesKeep host (InOrder start) fun _ _ => True where
  fetched := fetchStep
  grouped := groupStep
  committed := serialStep
  fetchHalt _ _ _ _ := trivial
  groupHalt _ _ := trivial
  serialHalt _ _ := trivial

theorem level (h : InOrder start world) (hempty : world.intake.inFlight = []) :
    world.frontier.concurrent = world.frontier.serial := by
  rw [h.concurrent, passed, hempty, List.take_nil]
  rfl

theorem finished (h : InOrder start world) (hover : isOver world.intake = true) {outcome : Outcome}
    (hfinishes : Finishes world outcome after) : Leaves outcome after := by
  rw [isOver, Bool.and_eq_true, List.isEmpty_iff] at hover
  cases hfinishes with
  | forked _ => exact ⟨hover.2, h.level hover.2⟩
  | synced _ => exact ⟨hover.2, h.level hover.2, rfl⟩

theorem leaves {outcome : Outcome}
    (hends : TurnEnds (InOrder start) world (.done outcome) after) : Leaves outcome after := by
  cases hends with
  | stopped _ => exact (rfl : world.frontier.serial = world.frontier.serial)
  | finished hover hleft hfinishes => exact hleft.finished hover hfinishes

theorem begin (start : World σ) (next : UInt64)
    (hlevel : start.frontier.concurrent = start.frontier.serial) :
    InOrder start { start with intake := reset start.intake start.frontier.serial next } :=
  ⟨rfl, Nat.le_refl 0, Nat.zero_le _, .stay _, hlevel⟩

end InOrder

theorem TurnBegins.inOrder {host : Host σ} {start world : World σ}
    (h : TurnBegins host start world) : InOrder start world := by
  induction h with
  | first hlevel _ => exact .begin start _ hlevel
  | @again world after _ hturn ih =>
      have hnext : (turn host ()).Yields world (TurnEnds (InOrder start) world) fun _ _ => True :=
        (InOrder.keeps host start).turn ih
      unfold Act.Yields at hnext
      rw [hturn] at hnext
      cases hnext with
      | again _ hafter => exact hafter

theorem run_leaves (host : Host σ) (start : World σ) :
    (run host).Yields start (fun outcome after => Leaves outcome after) fun _ _ => True := by
  refine run_of_turns (fun _ => trivial) (fun _ _ => trivial) fun next hlevel _ => ?_
  exact (InOrder.keeps host start).turns (.begin start next hlevel)
    (fun _ _ _ _ hends => InOrder.leaves hends) (fun _ _ => trivial) _

end Forward

/-- At the beginning of every turn of forward sync the blocks in flight are no fewer than those
that the concurrent track has passed and no more than the high water mark allows; they are linked
from the serial tip on to the newest block; and the concurrent tip is at the last of those that
its track has passed, or at the serial tip if there are none.  A run that reports a fork, or that
it is in sync, leaves nothing in flight and the tips at one block, and what it reports as synced
has the hash that the host named last. -/
theorem flight_spans_the_tips (host : Host σ) (start : World σ) :
    (∀ world, Forward.TurnBegins host start world →
      world.intake.grouped ≤ world.intake.inFlight.length ∧
      world.intake.inFlight.length ≤ start.intake.highWater ∧
      Linked world.frontier.serial.hash world.intake.inFlight world.intake.lastHash ∧
      world.intake.lastHash =
        (world.intake.inFlight.getLast?.map Block.hash).getD world.frontier.serial.hash ∧
      world.frontier.concurrent =
        ((world.intake.inFlight.take world.intake.grouped).getLast?.map Block.pointer).getD
          world.frontier.serial) ∧
    ∀ outcome after, (Forward.run host).perform start = (.ok outcome, after) →
      ((∀ tip, outcome ≠ .stopped tip) →
        after.intake.inFlight = [] ∧ after.frontier.concurrent = after.frontier.serial) ∧
      ∀ tip, outcome = .synced tip → tip = after.frontier.serial ∧
        ∃ said, after.course = said ++ start.course ∧ Heeded tip.hash said := by
  constructor
  · intro world hbegins
    have horder := hbegins.inOrder
    refine ⟨horder.grouped, ?_, horder.linked, horder.linked.high_eq, horder.concurrent⟩
    rw [← horder.highWater]
    exact horder.fits
  · intro outcome after hrun
    have hboth := (Forward.run_leaves host start).and (Forward.run_heeds host start)
    unfold Act.Yields at hboth
    rw [hrun] at hboth
    rcases hboth with ⟨hleaves, hheeds⟩
    constructor
    · intro hgoing
      cases outcome with
      | stopped tip => exact absurd rfl (hgoing tip)
      | forked height => exact hleaves
      | synced tip => exact ⟨hleaves.1, hleaves.2.1⟩
    · intro tip htip
      subst htip
      rcases hheeds tip rfl with ⟨said, hcourse, _, hheeded⟩
      refine ⟨hleaves.2.2, said, hcourse, ?_⟩
      rw [hleaves.2.2]
      exact hheeded

namespace Sample

/-- Groups of two blocks, and no more than two in flight. -/
def paired : World Unit := { blank with intake := .idle 2 2 }

def begun : World Unit :=
  { paired with intake := Forward.reset paired.intake genesis.pointer 1 }

def fetchedOne : World Unit := ((Forward.turn host ()).perform begun).2

def groupedTwo : World Unit := ((Forward.turn host ()).perform fetchedOne).2

theorem begins_begun : Forward.TurnBegins host paired begun :=
  .first rfl (show heightAbove? 0 = some 1 from rfl)

theorem begins_fetchedOne : Forward.TurnBegins host paired fetchedOne :=
  .again begins_begun rfl

theorem begins_groupedTwo : Forward.TurnBegins host paired groupedTwo :=
  .again begins_fetchedOne rfl

end Sample

/-- After two turns both blocks are in the concurrent indexes, and the serial track has yet to
take the second. -/
theorem flight_spans_the_tips_of_sample :
    Forward.TurnBegins Sample.host Sample.paired Sample.groupedTwo ∧
    Sample.groupedTwo.intake.inFlight = [Sample.second] ∧
    Sample.groupedTwo.frontier = ⟨Sample.second.pointer, Sample.first.pointer⟩ ∧
    Linked "a" Sample.groupedTwo.intake.inFlight "b" ∧
    ∃ after, (Forward.run Sample.host).perform Sample.paired =
        (.ok (.synced Sample.second.pointer), after) ∧
      after.intake.inFlight = [] ∧ after.frontier.concurrent = after.frontier.serial ∧
      ∃ said, after.course = said ++ Sample.paired.course ∧ Heeded "b" said := by
  have hflight : Sample.groupedTwo.intake.inFlight = [Sample.second] := by decide +kernel
  have hfrontier : Sample.groupedTwo.frontier = ⟨Sample.second.pointer, Sample.first.pointer⟩ := by
    decide +kernel
  have hserial : Sample.groupedTwo.frontier.serial.hash = "a" := by decide +kernel
  have hnewest : Sample.groupedTwo.intake.lastHash = "b" := by decide +kernel
  rcases flight_spans_the_tips Sample.host Sample.paired with ⟨hturns, hends⟩
  rcases hturns _ Sample.begins_groupedTwo with ⟨_, _, hlinked, _, _⟩
  rw [hserial, hnewest] at hlinked
  refine ⟨Sample.begins_groupedTwo, hflight, hfrontier, hlinked, _, rfl, ?_⟩
  rcases hends _ _ (show (Forward.run Sample.host).perform Sample.paired =
    (.ok (.synced Sample.second.pointer), _) from rfl) with ⟨hempty, hsynced⟩
  rcases hempty (fun tip hstopped => by cases hstopped) with ⟨hnone, hlevel⟩
  rcases hsynced _ rfl with ⟨_, said, hcourse, hheeded⟩
  exact ⟨hnone, hlevel, said, hcourse, hheeded⟩

end ChainIndex
