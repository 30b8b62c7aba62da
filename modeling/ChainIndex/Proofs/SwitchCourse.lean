import ChainIndex.Proofs.Plans
import ChainIndex.Proofs.Rounds
import ChainIndex.Proofs.StandardReplays
import ChainIndex.Proofs.SteadySync
import ChainIndex.Proofs.Strides

/-!
# The course of a switch

On a calm host that stays with one best chain the standard indexes have edits for whatever a
switch asks of them, and no part of it fails.  So the course of a sync that finds its tips off the
best chain is settled to the last batch and the last event.  First the old branch is taken off the
serial track and then off the concurrent one, from the newest block on.  Then the new branch is put
on, and here the concurrent track is first.  Forward sync finds nothing more to do.
-/

namespace ChainIndex

namespace BlockTree.Climb

variable {tree : BlockTree} {low high block : Block} {blocks : List Block}

theorem chained (h : tree.Climb low blocks high) : Chained low.pointer blocks high.pointer := by
  induction h with
  | stay low => exact .stay low.pointer
  | up hchild _ ih => exact .up (extends?_child hchild) ih

theorem hash_ne_low (h : tree.Climb low blocks high) (hlow : low ∈ tree) (hblock : block ∈ blocks) :
    block.hash ≠ low.hash := by
  intro hhash
  rcases (h.bounds hblock).1 with ⟨parent, hparent, hchild⟩
  have hle := hparent.height_le
  have hheight := hchild.height
  rw [BlockTree.eq_of_hash_eq (h.mem hblock) hlow hhash] at hheight
  omega

end BlockTree.Climb

/-!
# Single blocks
-/

namespace Standing.Filled

variable {tree : BlockTree} {standing : Standing} {catalogue : Catalogue}
variable {upper lower : List Block} {low block : Block}

theorem takeOff (h : standing.Filled tree upper lower) (hstandard : catalogue.IsStandard)
    (track : Track) (hchild : tree.Child low (standing.tip track)) :
    ∃ own, catalogue.edits track (standing.tip track) .undo (.clear standing.table) = .ok own ∧
      ∃ upper lower,
        (standing.after (track.off (standing.tip track) low) own).Filled tree upper lower := by
  cases track with
  | concurrent =>
      have hown := hstandard.edits_concurrent (standing.tip .concurrent) .undo
        (.clear standing.table)
      rcases h.shrink hstandard rfl hchild (Gathered.single hown) with ⟨front, hfilled⟩
      exact ⟨_, hown, front, lower, hfilled⟩
  | serial =>
      rcases h.exists_undone hchild.ne_genesis with ⟨own, htimes⟩
      have hown := hstandard.edits_serial_of_ok htimes
      rcases h.fall hstandard rfl hchild (Gathered.single hown) with ⟨front, hfilled⟩
      exact ⟨own, hown, upper, front, hfilled⟩

theorem putOn (h : standing.Filled tree upper lower) (hstandard : catalogue.IsStandard)
    (track : Track) (hchild : tree.Child (standing.tip track) block)
    (hroomy : Times.Roomy tree block) :
    ∃ own, catalogue.edits track block .apply (.clear standing.table) = .ok own ∧
      ∃ upper lower, (standing.after (track.onto block) own).Filled tree upper lower := by
  cases track with
  | concurrent =>
      have hown := hstandard.edits_concurrent block .apply (.clear standing.table)
      exact ⟨_, hown, _, lower,
        h.grow hstandard (.up hchild (.stay block)) (Gathered.single hown)⟩
  | serial =>
      rcases h.exists_applied hchild hroomy with ⟨own, htimes⟩
      have hown := hstandard.edits_serial_of_ok htimes
      exact ⟨own, hown, upper, _, h.rise hstandard hchild (Gathered.single hown)⟩

end Standing.Filled

/-!
# Strides and where they lead
-/

structure Treads (host : Host σ) (tree : BlockTree) (start : Holding) (strides : List Stride)
    (standing : Standing) (holding : Holding) : Prop where
  strides : Strides host start strides holding
  frontier : holding.frontier = ⟨standing.concurrent.pointer, standing.serial.pointer⟩
  table : holding.table = standing.table
  filled : ∃ upper lower, standing.Filled tree upper lower

namespace Treads

variable {host : Host σ} {tree : BlockTree} {start holding : Holding} {strides : List Stride}
variable {standing : Standing} {intake : Intake} {world : World σ} {track : Track}
variable {base high low block : Block} {blocks : List Block}

theorem tip (h : Treads host tree start strides standing holding) (track : Track) :
    holding.frontier.tip track = (standing.tip track).pointer := by
  rw [h.frontier]
  cases track <;> rfl

theorem level (h : Treads host tree start strides standing holding)
    (htips : ∀ track, standing.tip track = block) : holding.frontier = .level block.pointer := by
  rw [h.frontier, show standing.concurrent = block from htips .concurrent,
    show standing.serial = block from htips .serial]
  rfl

theorem tell (h : Treads host tree start strides standing holding) (event : Event) :
    Treads host tree start (strides ++ [.tell event]) standing (holding.tell event) :=
  { h with strides := h.strides.next .tell }

theorem takeOff (h : Treads host tree start strides standing holding)
    (hstandard : host.catalogue.IsStandard) (track : Track)
    (hchild : tree.Child low (standing.tip track)) :
    ∃ own, host.catalogue.edits track (standing.tip track) .undo (.clear holding.table) = .ok own ∧
      Treads host tree start (strides ++ [.step track (standing.tip track) .undo])
        (standing.after (track.off (standing.tip track) low) own)
        (holding.step track own (standing.tip track) .undo low.pointer) := by
  rcases h.filled with ⟨upper, lower, hfilled⟩
  rcases hfilled.takeOff hstandard track hchild with ⟨own, hown, hafter⟩
  rw [← h.table] at hown
  refine ⟨own, hown, ?_⟩
  constructor
  · exact h.strides.next (.step hown (Block.destination_undo (extends?_child hchild)))
  · rw [Holding.frontier_step, h.frontier]
    cases track <;> rfl
  · rw [Holding.table_step, h.table]
    cases track <;> rfl
  · exact hafter

theorem putOn (h : Treads host tree start strides standing holding)
    (hstandard : host.catalogue.IsStandard) (track : Track)
    (hchild : tree.Child (standing.tip track) block) (hroomy : Times.Roomy tree block) :
    ∃ own, host.catalogue.edits track block .apply (.clear holding.table) = .ok own ∧
      Treads host tree start (strides ++ [.step track block .apply])
        (standing.after (track.onto block) own)
        (holding.step track own block .apply block.pointer) := by
  rcases h.filled with ⟨upper, lower, hfilled⟩
  rcases hfilled.putOn hstandard track hchild hroomy with ⟨own, hown, hafter⟩
  rw [← h.table] at hown
  refine ⟨own, hown, ?_⟩
  constructor
  · exact h.strides.next (.step hown rfl)
  · rw [Holding.frontier_step, h.frontier]
    cases track <;> rfl
  · rw [Holding.table_step, h.table]
    cases track <;> rfl
  · exact hafter

/-!
# One branch on one track
-/

theorem rewind (h : Treads host tree start strides standing holding)
    (hpoised : Poised holding intake world) (hcalm : host.IsCalm)
    (hstandard : host.catalogue.IsStandard) (track : Track) (hbase : base ∈ tree)
    (hclimb : tree.Climb base blocks (standing.tip track))
    (hgives : ∀ block ∈ blocks, host.Gives block) :
    (Switching.rewind host track base.hash).Yields world
      (fun _ after => ∃ last reached, Poised reached intake after ∧
        Treads host tree start (strides ++ blocks.reverse.map (.step track · .undo)) last reached ∧
        standing.Shifts track .undo last ∧ last.tip track = base)
      (fun _ _ => False) := by
  have hchain : Chained base.pointer blocks (holding.frontier.tip track) := by
    rw [h.tip track]
    exact hclimb.chained
  refine (hpoised.rewind hcalm track hchain hgives (fun _ => hclimb.hash_ne_low hbase)
    (fun front now => ∃ last rest, front ++ rest = blocks ∧
      Treads host tree start (strides ++ rest.reverse.map (.step track · .undo)) last now ∧
      standing.Shifts track .undo last ∧ tree.Climb base front (last.tip track))
    ⟨standing, [], List.append_nil _, by simpa using h, .refl _ _ _, hclimb⟩ ?_).imp ?_
  · intro front block pointer now _ hfront hkept
    rcases hkept with ⟨last, rest, rfl, hlast, hshifts, hway⟩
    rcases hway.of_snoc with ⟨rfl, low, hlower, hchild⟩
    rw [hfront.high_unique hlower.chained]
    rcases hlast.takeOff hstandard track hchild with ⟨own, hown, hnext⟩
    refine ⟨own, hown, last.after (track.off (last.tip track) low) own, last.tip track :: rest, ?_,
      ?_, hshifts.step own (track.track_off _ _) (track.direction_off _ _), ?_⟩
    · rw [List.append_assoc, List.singleton_append]
    · rw [List.reverse_cons, List.map_append, ← List.append_assoc]
      exact hnext
    · rw [track.tip_after_off]
      exact hlower
  · intro _ after hended
    rcases hended with ⟨reached, hreached, _, last, rest, rfl, hlast, hshifts, hway⟩
    exact ⟨last, reached, hreached, hlast, hshifts, hway.eq_nil.symm⟩

theorem replay (h : Treads host tree start strides standing holding)
    (hpoised : Poised holding intake world) (hcalm : host.IsCalm)
    (hstandard : host.catalogue.IsStandard) (track : Track)
    (hclimb : tree.Climb (standing.tip track) blocks high) (hroomy : Times.Roomy tree high)
    (hgives : ∀ block ∈ blocks, host.Gives block) :
    (Switching.replay host track (blocks.map Block.hash)).Yields world
      (fun _ after => ∃ last reached, Poised reached intake after ∧
        Treads host tree start (strides ++ blocks.map (.step track · .apply)) last reached ∧
        standing.Shifts track .apply last ∧ last.tip track = high)
      (fun _ _ => False) := by
  have hchain : Chained (holding.frontier.tip track) blocks high.pointer := by
    rw [h.tip track]
    exact hclimb.chained
  refine (hpoised.replay hcalm track hchain hgives
    (fun front now => ∃ last,
      Treads host tree start (strides ++ front.map (.step track · .apply)) last now ∧
      standing.Shifts track .apply last ∧ tree.Climb (standing.tip track) front (last.tip track))
    ⟨standing, by simpa using h, .refl _ _ _, .stay _⟩ ?_).imp ?_
  · intro front block now hpart hkept
    rcases hkept with ⟨last, hlast, hshifts, hway⟩
    rcases hpart with ⟨rest, rfl⟩
    rcases hclimb.split with ⟨middle, hfront, hrest⟩
    rcases hfront.of_snoc with ⟨rfl, low, hlower, hchild⟩
    rw [hlower.high_unique hway] at hchild
    rcases hlast.putOn hstandard track hchild (hroomy.below hrest.isBelow) with
      ⟨own, hown, hnext⟩
    refine ⟨own, hown, last.after (track.onto block) own, ?_,
      hshifts.step own (track.track_onto _) (track.direction_onto _), ?_⟩
    · rw [List.map_append, ← List.append_assoc]
      exact hnext
    · rw [track.tip_after_onto]
      exact hfront
  · intro _ after hended
    rcases hended with ⟨reached, hreached, _, last, hlast, hshifts, hway⟩
    exact ⟨last, reached, hreached, hlast, hshifts, hway.high_unique hclimb⟩

end Treads

/-!
# The switch
-/

/-- The strides of a switch over the ancestor from one branch to another, both of them given from
the ancestor on. -/
def Switching.course (ancestor : Block) (old new : List Block) : List Stride :=
  [.tell (.switched ancestor.hash)] ++ old.reverse.map (.step .serial · .undo) ++
    old.reverse.map (.step .concurrent · .undo) ++ new.map (.step .concurrent · .apply) ++
    new.map (.step .serial · .apply)

/-- The host leads from the tip, which is off the best chain, over the ancestor to the best
block. -/
structure Detour (host : Host σ) (tree : BlockTree) (tip best ancestor : Block)
    (old new : List Block) (switch : Switch) : Prop where
  calm : host.IsCalm
  stays : host.StaysAt tree best
  standard : host.catalogue.IsStandard
  tip_mem : tip ∈ tree
  off : ¬ tree.Below tip best
  joins : switch.Joins tree tip best ancestor new
  back : tree.Climb ancestor old tip
  gives : ∀ block, tree.Below block tip ∨ tree.Below block best → host.Gives block
  roomy : Times.Roomy tree best
  planned (world : World σ) : world.frontier.serial = tip.pointer →
    (Switching.plan host false).Yields world
      (fun found after => Lull host world after ∧ found = some switch) (fun _ _ => False)

namespace Poised

variable {holding : Holding} {intake : Intake} {world : World σ}

theorem enter (h : Poised holding intake world) (phase : Phase) :
    Poised holding intake { world.record (.entered phase) with phase := phase } :=
  ⟨h.holding, h.intake, h.going⟩

theorem drained (h : Poised holding intake world) (hhint : world.hint? = none) :
    Poised holding intake world.drained := by
  have hdrain : Following.drain world.inbox world.intake = intake := by
    rw [drain_eq, ← h.intake, show world.inbox.queue.getLast?.or world.intake.announced = none from
      hhint, ← (Option.or_eq_none_iff.mp hhint).2]
  exact ⟨h.holding, hdrain, h.going⟩

end Poised

namespace Detour

variable {host : Host σ} {tree : BlockTree} {tip best ancestor : Block} {old new : List Block}
variable {switch : Switch} {start holding : Holding} {standing : Standing} {intake : Intake}
variable {world : World σ}

theorem isForward_eq (h : Detour host tree tip best ancestor old new switch) :
    switch.isForward = false := by
  rw [Bool.eq_false_iff]
  exact fun hforward => h.off ((h.joins.isForward_iff h.tip_mem).mp hforward)

theorem carryOut (h : Detour host tree tip best ancestor old new switch)
    (htreads : Treads host tree start [] standing holding) (hpoised : Poised holding intake world)
    (htips : ∀ track, standing.tip track = tip) :
    (Switching.carryOut host switch).Yields world
      (fun _ after => ∃ last reached, Poised reached intake after ∧
        Treads host tree start (Switching.course ancestor old new) last reached ∧
        ∀ track, last.tip track = best)
      (fun _ _ => False) := by
  have hancestor := h.joins.below.mem h.tip_mem
  have hgivesOld : ∀ block ∈ old, host.Gives block := fun block hblock =>
    h.gives block (Or.inl (h.back.bounds hblock).2)
  have hgivesNew : ∀ block ∈ new, host.Gives block := fun block hblock =>
    h.gives block (Or.inr (h.joins.climb.bounds hblock).2)
  refine Switching.carryOut_of_parts ?_
  rw [Switching.begun_of_back h.isForward_eq, h.joins.ancestor, h.joins.chain]
  refine ((htreads.tell (.switched ancestor.hash)).rewind (hpoised.emit _) h.calm h.standard
    .serial hancestor (htips .serial ▸ h.back) hgivesOld).imp ?_
  intro _ world₁ hended
  rcases hended with ⟨first, holding₁, hpoised₁, htreads₁, hshifts₁, hserial₁⟩
  have hconcurrent₁ : first.tip .concurrent = tip :=
    (hshifts₁.other .concurrent (by decide)).trans (htips .concurrent)
  refine (htreads₁.rewind hpoised₁ h.calm h.standard .concurrent hancestor
    (hconcurrent₁ ▸ h.back) hgivesOld).imp ?_
  intro _ world₂ hended
  rcases hended with ⟨second, holding₂, hpoised₂, htreads₂, hshifts₂, hconcurrent₂⟩
  have hserial₂ : second.tip .serial = ancestor :=
    (hshifts₂.other .serial (by decide)).trans hserial₁
  refine (htreads₂.replay hpoised₂ h.calm h.standard .concurrent
    (hconcurrent₂ ▸ h.joins.climb) h.roomy hgivesNew).imp ?_
  intro _ world₃ hended
  rcases hended with ⟨third, holding₃, hpoised₃, htreads₃, hshifts₃, hconcurrent₃⟩
  have hserial₃ : third.tip .serial = ancestor :=
    (hshifts₃.other .serial (by decide)).trans hserial₂
  refine (htreads₃.replay hpoised₃ h.calm h.standard .serial
    (hserial₃ ▸ h.joins.climb) h.roomy hgivesNew).imp ?_
  intro _ world₄ hended
  rcases hended with ⟨last, holding₄, hpoised₄, htreads₄, hshifts₄, hserial₄⟩
  refine ⟨last, holding₄, hpoised₄, htreads₄, fun track => ?_⟩
  cases track with
  | concurrent => exact (hshifts₄.other .concurrent (by decide)).trans hconcurrent₃
  | serial => exact hserial₄

/-!
# The round
-/

def Arrives (host : Host σ) (start : Holding) (best : Block) (strides : List Stride)
    (after : World σ) : Prop :=
  after.frontier = .level best.pointer ∧
    Strides host start (strides ++ [.tell (.synced best.height)]) after.holding

def Exceeds (host : Host σ) (start : Holding) (best : Block) (strides : List Stride)
    (cause : Halt) (after : World σ) : Prop :=
  cause = .overflow ∧ heightAbove? best.height = none ∧ Strides host start strides after.holding

theorem forward (h : Detour host tree tip best ancestor old new switch) {strides : List Stride}
    (hstrides : Strides host start strides holding) (hpoised : Poised holding intake world)
    (hlevel : holding.frontier = .level best.pointer) (hannounced : intake.announced = none)
    (hgroup : 0 < intake.groupSize) (hwater : 0 < intake.highWater) :
    (Forward.run host).Yields world
      (fun outcome after => outcome = .synced best.pointer ∧ heightAbove? best.height ≠ none ∧
        Arrives host start best strides after)
      (Exceeds host start best strides) := by
  have hfrontier : world.frontier = .level best.pointer := hpoised.frontier.trans hlevel
  cases hroom : heightAbove? best.height with
  | none =>
      refine Forward.run_of_turns ?_ (fun _ _ => ?_) ?_
      · intro hapart
        rw [hfrontier] at hapart
        exact absurd rfl hapart
      · exact ⟨rfl, hroom, hpoised.holding ▸ hstrides⟩
      · intro next _ hnext
        rw [hfrontier] at hnext
        cases hroom.symm.trans hnext
  | some next =>
      have hstacks : host.Stacks best [] best.pointer :=
        ⟨.stay _, by simp, by simp, h.stays.bestHash⟩
      have hupholds : Forward.Upholds host world.intake.groupSize []
          fun _ _ now => now = world.holding := by
        constructor
        · intro upper lower group last now hpart _ hlast _
          rw [(List.append_eq_nil_iff.mp (List.prefix_nil.mp hpart)).2] at hlast
          cases hlast
        · intro upper lower block now hupper hlower _
          rw [List.prefix_nil.mp hupper] at hlower
          exact absurd (List.prefix_nil.mp hlower) (by simp)
      rw [← hpoised.intake] at hannounced hgroup hwater
      refine (Forward.run_upholds h.calm hstacks hfrontier hannounced hpoised.going hgroup hwater
        hupholds rfl).mono ?_ ?_
      · intro outcome after hended
        rcases hended with ⟨houtcome, hafter, ⟨now, rfl, htold⟩, _⟩
        refine ⟨houtcome, by simp, hafter, ?_⟩
        rw [htold, hpoised.holding]
        exact hstrides.next .tell
      · intro cause after hhalted
        rw [show heightAbove? best.pointer.height = some next from hroom] at hhalted
        cases hhalted.2

theorem switchIfNeeded (h : Detour host tree tip best ancestor old new switch)
    (htreads : Treads host tree start [] standing holding) (hpoised : Poised holding intake world)
    (htips : ∀ track, standing.tip track = tip) :
    (Following.switchIfNeeded host false).Yields world
      (fun _ after => ∃ last reached, Poised reached intake after ∧
        Treads host tree start (Switching.course ancestor old new) last reached ∧
        ∀ track, last.tip track = best)
      (fun _ _ => False) := by
  have hserial : world.frontier.serial = tip.pointer := by
    rw [hpoised.frontier, htreads.level htips]
    rfl
  refine Following.switchIfNeeded_of_parts ((h.planned world hserial).imp ?_)
  intro found planned hended
  rcases hended with ⟨hlull, rfl⟩
  have hplanned := hpoised.lull h.calm hlull
  dsimp only
  rw [Following.setOut_of_back h.isForward_eq]
  exact h.carryOut htreads (hplanned.enter .reorging) htips

theorem cycle (h : Detour host tree tip best ancestor old new switch)
    (htreads : Treads host tree start [] standing holding) (hpoised : Poised holding intake world)
    (htips : ∀ track, standing.tip track = tip) (hannounced : intake.announced = none)
    (hgroup : 0 < intake.groupSize) (hwater : 0 < intake.highWater) :
    (Following.cycle host false).Yields world
      (fun outcome after => outcome = .synced best.pointer ∧ heightAbove? best.height ≠ none ∧
        Arrives host start best (Switching.course ancestor old new) after)
      (Exceeds host start best (Switching.course ancestor old new)) := by
  have hentered := hpoised.enter (if world.frontier.isLevel then .syncing else .reorging)
  have hlevel : world.frontier = .level tip.pointer :=
    hpoised.frontier.trans (htreads.level htips)
  refine Following.cycle_of_parts (Switching.align_of_level ?_ ?_)
  · show world.frontier.concurrent = world.frontier.serial
    rw [hlevel]
    rfl
  refine (h.switchIfNeeded htreads hentered htips).mono ?_ fun _ _ hnever => hnever.elim
  intro _ switched hended
  rcases hended with ⟨last, reached, hreached, hlast, htops⟩
  exact h.forward hlast.strides (hreached.enter .syncing) (hlast.level htops) hannounced hgroup
    hwater

theorem sync (h : Detour host tree tip best ancestor old new switch)
    (htreads : Treads host tree start [] standing holding) (hpoised : Poised holding intake world)
    (htips : ∀ track, standing.tip track = tip) (hhint : world.hint? = none)
    (hgroup : 0 < intake.groupSize) (hwater : 0 < intake.highWater) :
    (Following.sync host).Yields world
      (fun reached after => reached = best.pointer ∧ heightAbove? best.height ≠ none ∧
        Arrives host start best (Switching.course ancestor old new) after)
      (Exceeds host start best (Switching.course ancestor old new)) := by
  have hannounced : intake.announced = none := by
    rw [← hpoised.intake]
    exact (Option.or_eq_none_iff.mp hhint).2
  have hpatience : 0 < host.patience := Nat.lt_of_lt_of_le (by decide) h.calm.patience
  obtain ⟨allowed, hallowed⟩ : ∃ allowed, host.patience = allowed + 1 :=
    ⟨host.patience - 1, (Nat.sub_add_cancel hpatience).symm⟩
  rw [Following.sync, Act.loop, hallowed, Act.turns, Act.yields_bind]
  refine Following.syncTurn_of_cycle ?_ fun _ => ?_
  · intro hwanted
    rw [hpoised.going] at hwanted
    cases hwanted
  refine (h.cycle htreads (hpoised.drained hhint) htips hannounced hgroup hwater).mono ?_ ?_
  · intro outcome after hended
    rcases hended with ⟨rfl, hroom, harrives⟩
    exact ⟨rfl, hroom, harrives⟩
  · intro cause after hexceeds
    refine ⟨fun hstop => ?_, fun _ => hexceeds⟩
    rcases hexceeds with ⟨rfl, _⟩
    rcases hstop with ⟨_, _, hsame⟩
    cases hsame

end Detour

theorem Switching.flatMap_course (ancestor : Block) (old new : List Block) :
    (Switching.course ancestor old new).flatMap Stride.events =
      .switched ancestor.hash :: (old.reverse.map (Act.report · .undo) ++
        new.map (Act.report · .apply)) := by
  have hserial (blocks : List Block) (direction : Direction) :
      (blocks.map (Stride.step .serial · direction)).flatMap Stride.events =
        blocks.map (Act.report · direction) := by
    rw [List.flatMap_map]
    exact List.flatMap_pure_eq_map _ _
  have hconcurrent (blocks : List Block) (direction : Direction) :
      (blocks.map (Stride.step .concurrent · direction)).flatMap Stride.events = [] := by
    rw [List.flatMap_map, List.flatMap_eq_nil_iff]
    exact fun _ _ => rfl
  rw [course, List.flatMap_append, List.flatMap_append, List.flatMap_append, List.flatMap_append,
    hserial, hserial, hconcurrent, hconcurrent, List.append_nil, List.append_nil]
  rfl

/-- With the standard indexes, both tips at one block and a best chain that does not come by
it, a sync takes one course only.  It tells of the switch.  Block by block it takes what is above
the highest block in common off the serial track and then off the concurrent track, the newest
first; and then it puts the best chain above that block on the concurrent track and then on the
serial track, the oldest first.  At last it tells that it is there, unless there is no height above
the best block. -/
theorem switch_takes_its_course {host : Host σ} {tree : BlockTree} {catalogue : Catalogue}
    {tip best : Block} {world : World σ} (hstandard : catalogue.IsStandard)
    (h : Reached tree catalogue world) (hcatalogue : host.catalogue = catalogue)
    (hcalm : host.IsCalm) (hstays : host.StaysAt tree best)
    (hserves : ∀ block, tree.Below block tip ∨ tree.Below block best → host.Serves block)
    (hroomy : Times.Roomy tree best) (htip : tip ∈ tree)
    (hlevel : world.frontier = .level tip.pointer) (hoff : ¬ tree.Below tip best)
    (hhint : world.hint? = none) (hgoing : world.inbox.stopWanted = false) :
    ∃ ancestor old new, tree.Climb ancestor old tip ∧ tree.Climb ancestor new best ∧
      (∀ other, tree.Below other tip → tree.Below other best → tree.Below other ancestor) ∧
      (heightAbove? best.height ≠ none → ∃ after,
        (Following.sync host).perform world = (.ok best.pointer, after) ∧
        after.frontier = .level best.pointer ∧
        Strides host world.holding
          (Switching.course ancestor old new ++ [.tell (.synced best.height)]) after.holding ∧
        reports after.course = reports world.course ++ .switched ancestor.hash ::
          (old.reverse.map (fun block => .removed block.hash block.height) ++
            new.map (fun block => .added block.hash block.height) ++ [.synced best.height])) ∧
      (heightAbove? best.height = none → ∃ halted,
        (Following.sync host).perform world = (.error .overflow, halted) ∧
        Strides host world.holding (Switching.course ancestor old new) halted.holding) := by
  subst hcatalogue
  rcases h.sound hstandard.sparesTips with ⟨standing, intake, hstands⟩
  have htips (track : Track) : standing.tip track = tip := by
    have hpointer := hstands.tip track
    rw [hlevel, Frontier.tip_level] at hpointer
    exact BlockTree.eq_of_hash_eq (hstands.tip_mem track) htip
      (congrArg Pointer.hash hpointer.symm)
  have htreads : Treads host tree world.holding [] standing world.holding :=
    ⟨.stay, hstands.frontier, hstands.table, hstands.chronicle.filled hstandard⟩
  have hpoised : Poised world.holding intake world := ⟨rfl, hstands.memory, hgoing⟩
  rcases hstays.exists_planned htip (fun block hbelow => (hserves block hbelow).charts)
    hcalm.patience with ⟨switch, ancestor, new, hjoins, hplan⟩
  rcases BlockTree.Climb.of_below hjoins.below with ⟨old, hback⟩
  have hne : tip ≠ best := fun heq => hoff (heq ▸ .refl tip)
  have hdetour : Detour host tree tip best ancestor old new switch := {
    calm := hcalm
    stays := hstays
    standard := hstandard
    tip_mem := htip
    off := hoff
    joins := hjoins
    back := hback
    gives := fun block hbelow => (hserves block hbelow).gives
    roomy := hroomy
    planned := fun world hserial => (hplan world false hserial).imp fun _ _ hplanned =>
      ⟨hplanned.1, hplanned.2.eq_some hne (Or.inl hoff)⟩ }
  have hsync := hdetour.sync htreads hpoised htips hhint hstands.groupSize hstands.highWater
  refine ⟨ancestor, old, new, hback, hjoins.climb, fun _ => hjoins.highest, ?_, ?_⟩
  · intro hroom
    rcases (hsync.mono (fun _ _ hended => hended) fun _ _ hhalted =>
      hroom hhalted.2.1).exists_ok with ⟨_, after, hperform, rfl, _, hfrontier, hstrides⟩
    refine ⟨after, hperform, hfrontier, hstrides, ?_⟩
    have hreports := hstrides.reports_eq
    rw [List.flatMap_append, Switching.flatMap_course] at hreports
    rw [← reports_deeds, ← reports_deeds world.course]
    exact hreports
  · intro hnone
    rcases (hsync.mono (fun _ _ hended => hended.2.1 hnone) fun _ _ hhalted =>
      hhalted).exists_error with ⟨_, halted, hperform, rfl, _, hstrides⟩
    exact ⟨halted, hperform, hstrides⟩

/-- The indexer has gone up the longer branch when the shorter one becomes the best chain. -/
theorem switch_takes_its_course_of_sample :
    Sample.catalogue.IsStandard ∧ Reached Sample.tree Sample.catalogue Sample.synced ∧
    (Sample.forked.host Sample.catalogue).IsCalm ∧
    (Sample.forked.host Sample.catalogue).StaysAt Sample.tree Sample.beside ∧
    Times.Roomy Sample.tree Sample.beside ∧
    Sample.synced.frontier = .level Sample.second.pointer ∧
    ¬ Sample.tree.Below Sample.second Sample.beside ∧ Sample.synced.hint? = none ∧
    Sample.synced.inbox.stopWanted = false ∧
    ∃ after, (Following.sync (Sample.forked.host Sample.catalogue)).perform Sample.synced =
        (.ok Sample.beside.pointer, after) ∧
      Strides (Sample.forked.host Sample.catalogue) Sample.synced.holding
        [.tell (.switched "g"), .step .serial Sample.second .undo,
          .step .serial Sample.first .undo, .step .concurrent Sample.second .undo,
          .step .concurrent Sample.first .undo, .step .concurrent Sample.beside .apply,
          .step .serial Sample.beside .apply, .tell (.synced 1)] after.holding ∧
      reports after.course = reports Sample.synced.course ++
        [.switched "g", .removed "b" 2, .removed "a" 1, .added "x" 1, .synced 1] := by
  have hcalm := Sample.forked_restsAt.isCalm
  have hstays := Sample.forked_restsAt.staysAt
  have htip : Sample.second ∈ Sample.tree := by decide
  have hbest : Sample.beside ∈ Sample.tree := by decide
  have hserves : ∀ block,
      Sample.tree.Below block Sample.second ∨ Sample.tree.Below block Sample.beside →
      (Sample.forked.host Sample.catalogue).Serves block := fun block hbelow =>
    Sample.forked_serves (hbelow.elim (·.mem htip) (·.mem hbest))
  have hlevel : Sample.synced.frontier = .level Sample.second.pointer := by decide +kernel
  have hhint : Sample.synced.hint? = none := by decide +kernel
  have hgoing : Sample.synced.inbox.stopWanted = false := by decide +kernel
  refine ⟨Sample.standard, Sample.reached_synced, hcalm, hstays, Sample.roomy_beside, hlevel,
    Sample.second_off, hhint, hgoing, ?_⟩
  rcases switch_takes_its_course Sample.standard Sample.reached_synced rfl hcalm hstays hserves
    Sample.roomy_beside htip hlevel Sample.second_off hhint hgoing with
    ⟨ancestor, old, new, hold, hnew, _, hsync, _⟩
  have hancestor := Sample.eq_genesis_of_below hold.isBelow hnew.isBelow
  subst hancestor
  have holdBlocks := hold.unique Sample.climb_second
  have hnewBlocks := hnew.unique Sample.climb_beside
  subst holdBlocks hnewBlocks
  rcases hsync (by decide) with ⟨after, hperform, _, hstrides, hreports⟩
  exact ⟨after, hperform, hstrides, hreports⟩

end ChainIndex
