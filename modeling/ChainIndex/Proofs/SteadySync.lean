import ChainIndex.Proofs.CalmHosts
import ChainIndex.Proofs.Mirrors
import ChainIndex.Proofs.Stages

/-!
# Forward sync along a steady chain

A calm host carries a chain that does not change while forward sync goes up it.  Then the run
ends at the top of the chain, unless there is no height above the top; and what is kept by
every group that the concurrent track commits and by every block that the serial track commits
is kept by the whole run, whatever the size of the groups and however many blocks may be in
flight.

The blocks are at any moment in four parts: those that the serial track has passed, those that
only the concurrent track has passed, the other ones in flight, and those not yet fetched.
-/

namespace ChainIndex

/-- The chain above the base is the best one, and its blocks are to be had by height.  No two of
them have one hash. -/
structure Host.Stacks (host : Host σ) (base : Block) (blocks : List Block) (top : Pointer) :
    Prop where
  chain : Chained base.pointer blocks top
  distinct : ((base :: blocks).map Block.hash).Nodup
  byHeight : ∀ block ∈ blocks, ∀ outside,
    (host.blockAt (.byHeight block.height) outside).answer = .ok block
  best (outside : σ) : (host.bestHash outside).answer = .ok top.hash

/-- The chain above the base is the best one, and its blocks are to be had by hash and by height
alike. -/
structure Host.Carries (host : Host σ) (base : Block) (blocks : List Block) (top : Pointer) :
    Prop where
  chain : Chained base.pointer blocks top
  gives : ∀ block ∈ base :: blocks, host.Gives block
  byHeight : ∀ block ∈ blocks, ∀ outside,
    (host.blockAt (.byHeight block.height) outside).answer = .ok block
  best (outside : σ) : (host.bestHash outside).answer = .ok top.hash

theorem heightAbove?_eq_none_of_le {low high : UInt64} (hle : low.toNat ≤ high.toNat)
    (h : heightAbove? low = none) : heightAbove? high = none := by
  have hsize : UInt64.size ≤ low.toNat + 1 :=
    Nat.le_of_not_lt fun hroom => heightAbove?_ne_none hroom h
  unfold heightAbove?
  rw [if_neg (by omega)]

theorem Chained.exists_block {base : Block} {blocks : List Block} {high : Pointer}
    (h : Chained base.pointer blocks high) : ∃ block ∈ base :: blocks, block.pointer = high := by
  rcases h.ends with ⟨_, rfl⟩ | ⟨_, block, _, rfl, _, _, rfl⟩
  · exact ⟨base, List.mem_cons_self, rfl⟩
  · exact ⟨block, by simp, rfl⟩

theorem Chained.pairwise {base : Block} {blocks : List Block} {high : Pointer}
    (h : Chained base.pointer blocks high) :
    (base :: blocks).Pairwise fun low block => low.height.toNat < block.height.toNat := by
  refine List.pairwise_cons.mpr ?_
  induction blocks generalizing base with
  | nil => exact ⟨by simp, List.Pairwise.nil⟩
  | cons next rest ih =>
      cases h with
      | up hextends hrest =>
          rcases ih hrest with ⟨habove, htail⟩
          have hnext : next.height.toNat = base.height.toNat + 1 :=
            (Block.extends?_eq_true.mp hextends).1
          refine ⟨fun block hblock => ?_, List.pairwise_cons.mpr ⟨habove, htail⟩⟩
          rcases List.mem_cons.mp hblock with rfl | hblock
          · omega
          · have hhigher := habove block hblock
            omega

theorem Host.Carries.stacks {host : Host σ} {base : Block} {blocks : List Block} {top : Pointer}
    (h : host.Carries base blocks top) (outside : σ) : host.Stacks base blocks top where
  chain := h.chain
  distinct := by
    refine List.pairwise_map.mpr (h.chain.pairwise.imp_of_mem ?_)
    intro low block hlow hblock hless hhash
    have hgives := h.gives low hlow outside
    rw [hhash, h.gives block hblock outside] at hgives
    rw [Except.ok.inj hgives] at hless
    exact Nat.lt_irrefl _ hless
  byHeight := h.byHeight
  best := h.best

namespace Host.Stacks

variable {host : Host σ} {base block : Block} {blocks front rest : List Block}
variable {top newest : Pointer}

theorem eq_nil_of_hash (h : host.Stacks base (front ++ rest) top)
    (hfront : Chained base.pointer front newest) (hhash : newest.hash = top.hash) : rest = [] := by
  rcases h.chain.split with ⟨middle, hlower, hrest⟩
  rw [hlower.high_unique hfront] at hrest
  rcases hfront.exists_block with ⟨block, hblock, rfl⟩
  rcases hrest.ends with ⟨hempty, _⟩ | ⟨_, last, _, rfl, _, _, rfl⟩
  · exact hempty
  · have hdistinct := h.distinct
    rw [← List.cons_append, List.map_append] at hdistinct
    have hapart := (List.nodup_append.mp hdistinct).2.2 block.hash
      (List.mem_map_of_mem hblock) last.hash (List.mem_map_of_mem (by simp))
    exact absurd hhash hapart

theorem names (h : host.Stacks base blocks top) {best : BlockHash}
    (hnames : host.Names (.ok best)) : best = top.hash := by
  rcases hnames with ⟨outside, hanswer⟩
  rw [h.best outside] at hanswer
  exact (Except.ok.inj hanswer).symm

theorem not_unnamed (h : host.Stacks base blocks top) {cause : Halt} :
    ¬ host.Names (.error cause) := by
  rintro ⟨outside, hanswer⟩
  rw [h.best outside] at hanswer
  cases hanswer

theorem finds_height (h : host.Stacks base blocks top) (hblock : block ∈ blocks)
    {answer : Except Halt Block} (hfinds : host.Finds (.byHeight block.height) answer) :
    answer = .ok block := by
  rcases hfinds with ⟨outside, hanswer⟩
  rw [h.byHeight block hblock outside] at hanswer
  exact hanswer.symm

end Host.Stacks

/-!
# Where the blocks are
-/

structure Aloft (base : Block) (blocks : List Block) (top : Pointer) (lower rest : List Block)
    (frontier : Frontier) (intake : Intake) : Prop where
  whole : lower ++ intake.inFlight ++ rest = blocks
  counted : intake.grouped ≤ intake.inFlight.length
  serial : Chained base.pointer lower frontier.serial
  concurrent : Chained base.pointer (lower ++ intake.inFlight.take intake.grouped)
    frontier.concurrent
  newest : ∃ newest, Chained base.pointer (lower ++ intake.inFlight) newest ∧
    intake.lastHash = newest.hash ∧ heightAbove? newest.height = some intake.nextHeight
  bestHash : intake.bestHash = "" ∨ intake.bestHash = top.hash
  announced : intake.announced = none
  forkAt : intake.forkAt = none
  exhausted : intake.exhausted = true → rest = []
  groupSize : 0 < intake.groupSize
  highWater : 0 < intake.highWater

/-- What is left to do: every block that is not yet fetched will be fetched, grouped and
committed. -/
def Intake.workLeft (intake : Intake) (rest : List Block) : Nat :=
  3 * rest.length + intake.inFlight.length + Forward.pending intake +
    (if intake.exhausted then 0 else 1)

namespace Aloft

variable {host : Host σ} {base block : Block} {blocks lower rest : List Block} {top : Pointer}
variable {frontier : Frontier} {intake kept : Intake} {best : BlockHash} {left : Option Block}
variable {asked : List Entry}

section

variable (h : Aloft base blocks top lower rest frontier intake)
include h

theorem knows (hstacks : host.Stacks base blocks top)
    (hknows : Forward.Knows host intake best asked) : best = top.hash := by
  cases hknows with
  | named hnames => exact hstacks.names hnames
  | kept hne => exact h.bestHash.resolve_left hne

theorem exists_next (hne : intake.lastHash ≠ top.hash) (hstacks : host.Stacks base blocks top) :
    ∃ block rest', rest = block :: rest' ∧ block ∈ blocks ∧ block.height = intake.nextHeight ∧
      block.parent = some intake.lastHash ∧
      Chained base.pointer (lower ++ (intake.inFlight ++ [block])) block.pointer := by
  rcases h.newest with ⟨newest, hnewest, hlast, hnext⟩
  have hchain := hstacks.chain
  rw [← h.whole] at hchain
  rcases hchain.split with ⟨middle, hfront, hrest⟩
  rw [hfront.high_unique hnewest] at hrest
  cases hrest with
  | stay _ => exact absurd hlast hne
  | @up _ _ block rest' hextends _ =>
      rcases Block.extends?_eq_true.mp hextends with ⟨hheight, hparent⟩
      refine ⟨block, rest', rfl, ?_, ?_, hlast ▸ hparent, ?_⟩
      · rw [← h.whole]
        simp
      · apply UInt64.toNat_inj.mp
        rw [hheight, toNat_heightAbove? hnext]
      · rw [← List.append_assoc]
        exact hnewest.snoc hextends

theorem offers (hstacks : host.Stacks base blocks top) (hblock : block ∈ blocks)
    (hheight : block.height = intake.nextHeight) {found : Block}
    (hoffers : Forward.Offers host intake found left asked) : found = block ∧ left = none := by
  refine ⟨?_, hoffers.left_eq.elim id fun hsame => hsame.trans h.announced⟩
  cases hoffers with
  | announced hhint _ =>
      rw [h.announced] at hhint
      cases hhint
  | found hfinds _ =>
      rw [← hheight] at hfinds
      exact Except.ok.inj (hstacks.finds_height hblock hfinds)

/-!
# Fetching
-/

theorem fetchStep (hstacks : host.Stacks base blocks top)
    (hstep : Forward.FetchStep host intake asked kept) :
    ∃ rest', Aloft base blocks top lower rest' frontier kept ∧
      kept.inFlight.take kept.grouped = intake.inFlight.take intake.grouped ∧
      ((kept = intake ∧ rest' = rest ∧ Forward.isStalled intake = true) ∨
        kept.workLeft rest' < intake.workLeft rest) := by
  cases hstep with
  | stalled hstalled => exact ⟨rest, h, rfl, Or.inl ⟨rfl, rfl, hstalled⟩⟩
  | @taken found _ _ next _ _ hopen hknows hne hoffers hparent hnext =>
      have hbest := h.knows hstacks hknows
      rcases h.exists_next (hbest ▸ hne) hstacks with
        ⟨block, rest', rfl, hblock, hheight, _, hchain⟩
      rcases h.offers hstacks hblock hheight hoffers with ⟨rfl, rfl⟩
      have htake : (intake.inFlight ++ [found]).take intake.grouped =
          intake.inFlight.take intake.grouped :=
        List.take_append_of_le_length h.counted
      refine ⟨rest', { h with
        whole := by rw [← h.whole]; simp
        counted := ?_
        concurrent := ?_
        newest := ⟨found.pointer, hchain, rfl, ?_⟩
        bestHash := Or.inr hbest
        announced := rfl
        exhausted := fun hexhausted => ?_ }, htake, Or.inr ?_⟩
      · show intake.grouped ≤ (intake.inFlight ++ [found]).length
        rw [List.length_append]
        exact Nat.le_add_right_of_le h.counted
      · show Chained base.pointer (lower ++ (intake.inFlight ++ [found]).take intake.grouped)
          frontier.concurrent
        rw [htake]
        exact h.concurrent
      · show heightAbove? found.height = some next
        rw [hheight]
        exact hnext
      · cases h.exhausted hexhausted
      · have hcounted := h.counted
        unfold Intake.workLeft Forward.pending
        simp only [List.length_append, List.length_cons, List.length_nil]
        omega
  | caughtUp hopen hnames =>
      have hbest := hstacks.names hnames
      rcases h.newest with ⟨newest, hnewest, hlast, _⟩
      rw [← h.whole] at hstacks
      have hrest := hstacks.eq_nil_of_hash hnewest (hlast ▸ hbest)
      refine ⟨rest, { h with bestHash := Or.inr hbest, exhausted := fun _ => hrest }, rfl,
        Or.inr ?_⟩
      unfold Intake.workLeft Forward.pending
      simp [Forward.exhausted_of_not_stalled hopen]
  | missing hopen hknows hne _ hfinds =>
      have hbest := h.knows hstacks hknows
      rcases h.exists_next (hbest ▸ hne) hstacks with ⟨block, _, _, hblock, hheight, _⟩
      rw [← hheight] at hfinds
      cases hstacks.finds_height hblock hfinds
  | apart hopen hknows hne hoffers hparent =>
      have hbest := h.knows hstacks hknows
      rcases h.exists_next (hbest ▸ hne) hstacks with
        ⟨block, _, _, hblock, hheight, hnamed, _⟩
      rcases h.offers hstacks hblock hheight hoffers with ⟨rfl, _⟩
      exact absurd hnamed hparent

theorem fetchHalt (hstacks : host.Stacks base blocks top) {cause : Halt}
    (hhalt : Forward.FetchHalt host intake cause asked kept) :
    cause = .overflow ∧ heightAbove? top.height = none := by
  cases hhalt with
  | unnamed hnames => exact absurd hnames hstacks.not_unnamed
  | lost hknows hne _ hfinds _ =>
      have hbest := h.knows hstacks hknows
      rcases h.exists_next (hbest ▸ hne) hstacks with ⟨block, _, _, hblock, hheight, _⟩
      rw [← hheight] at hfinds
      cases hstacks.finds_height hblock hfinds
  | overflow hknows hne hoffers _ hnext =>
      have hbest := h.knows hstacks hknows
      rcases h.exists_next (hbest ▸ hne) hstacks with
        ⟨block, rest', rfl, hblock, hheight, _, hchain⟩
      refine ⟨rfl, ?_⟩
      have hall := hstacks.chain
      rw [← h.whole, show lower ++ intake.inFlight ++ block :: rest' =
        (lower ++ (intake.inFlight ++ [block])) ++ rest' by simp] at hall
      rcases hall.split with ⟨middle, hlow, hhigh⟩
      rw [hlow.high_unique hchain] at hhigh
      have habove := hhigh.height
      rw [show block.pointer.height = block.height from rfl, hheight] at habove
      exact heightAbove?_eq_none_of_le (by omega) hnext

/-!
# Committing
-/

omit h in
theorem split_inFlight (intake : Intake) :
    intake.inFlight.take intake.grouped ++ Forward.nextGroup intake ++
      intake.inFlight.drop (intake.grouped + (Forward.nextGroup intake).length) =
        intake.inFlight := by
  rw [← Flight.take_nextGroup intake, List.take_append_drop]

theorem group_part :
    lower ++ intake.inFlight.take intake.grouped ++ Forward.nextGroup intake <+: blocks := by
  rw [← h.whole]
  refine ⟨intake.inFlight.drop (intake.grouped + (Forward.nextGroup intake).length) ++ rest, ?_⟩
  rw [← List.append_assoc, List.append_assoc lower, List.append_assoc lower, split_inFlight]

theorem passed_part : lower ++ intake.inFlight.take intake.grouped <+: blocks :=
  (List.prefix_append _ _).trans h.group_part

theorem group (hready : Forward.groupReady intake = true) {last : Block}
    (hlast : (Forward.nextGroup intake).getLast? = some last) :
    Aloft base blocks top lower rest (frontier.move .concurrent last.pointer)
      { intake with grouped := intake.grouped + (Forward.nextGroup intake).length } ∧
    lower ++ intake.inFlight.take (intake.grouped + (Forward.nextGroup intake).length) =
      lower ++ intake.inFlight.take intake.grouped ++ Forward.nextGroup intake ∧
    Intake.workLeft { intake with grouped := intake.grouped + (Forward.nextGroup intake).length }
      rest < intake.workLeft rest := by
  have hlength := Flight.length_nextGroup intake
  have hne := Flight.nextGroup_ne_nil h.groupSize hready
  have hpositive := List.length_pos_iff.mpr hne
  have hcounted := h.counted
  have hpending : Forward.pending intake = intake.inFlight.length - intake.grouped := rfl
  have htake := Flight.take_nextGroup intake
  have hgrown : Chained base.pointer (lower ++ intake.inFlight.take
      (intake.grouped + (Forward.nextGroup intake).length)) last.pointer := by
    rcases h.newest with ⟨newest, hnewest, _⟩
    rw [← split_inFlight intake, ← List.append_assoc] at hnewest
    rcases hnewest.split with ⟨middle, hlow, _⟩
    rcases List.eq_nil_or_concat (Forward.nextGroup intake) with hempty | ⟨front, block, hfront⟩
    · exact absurd hempty hne
    · rw [List.concat_eq_append] at hfront
      rw [hfront, List.getLast?_concat] at hlast
      rw [htake]
      rw [hfront, ← List.append_assoc, ← List.append_assoc] at hlow ⊢
      rcases hlow.of_snoc with ⟨_, _, _, rfl⟩
      rw [← Option.some.inj hlast]
      exact hlow
  refine ⟨{ h with counted := ?_, concurrent := hgrown }, by rw [htake, List.append_assoc], ?_⟩
  · show intake.grouped + (Forward.nextGroup intake).length ≤ intake.inFlight.length
    omega
  · unfold Intake.workLeft Forward.pending
    simp only
    omega

theorem oldest (hnext : Forward.nextSerial? intake frontier.concurrent = some block) :
    Aloft base blocks top (lower ++ [block]) rest (frontier.move .serial block.pointer)
      { intake with inFlight := intake.inFlight.tail, grouped := intake.grouped - 1 } ∧
    lower ++ [block] ++ intake.inFlight.tail.take (intake.grouped - 1) =
      lower ++ intake.inFlight.take intake.grouped ∧
    Intake.workLeft
      { intake with inFlight := intake.inFlight.tail, grouped := intake.grouped - 1 } rest <
        intake.workLeft rest := by
  rcases Forward.nextSerial?_eq_some hnext with ⟨hgrouped, others, hothers⟩
  have hcounted := h.counted
  have hlength : intake.inFlight.length = others.length + 1 := by
    rw [hothers, List.length_cons]
  have hpassed : lower ++ [block] ++ intake.inFlight.tail.take (intake.grouped - 1) =
      lower ++ intake.inFlight.take intake.grouped := by
    rw [hothers, List.tail_cons, List.append_assoc, List.singleton_append,
      ← List.take_succ_cons, Nat.sub_add_cancel hgrouped]
  have hall : lower ++ [block] ++ intake.inFlight.tail = lower ++ intake.inFlight := by
    rw [hothers, List.tail_cons, List.append_assoc, List.singleton_append]
  refine ⟨{ h with
    whole := ?_
    counted := ?_
    serial := ?_
    concurrent := ?_
    newest := ?_ }, hpassed, ?_⟩
  · show lower ++ [block] ++ intake.inFlight.tail ++ rest = blocks
    rw [hall, h.whole]
  · show intake.grouped - 1 ≤ intake.inFlight.tail.length
    rw [List.length_tail]
    omega
  · show Chained base.pointer (lower ++ [block]) block.pointer
    rcases h.newest with ⟨newest, hnewest, _⟩
    rw [← hall] at hnewest
    rcases hnewest.split with ⟨middle, hlow, _⟩
    rcases hlow.of_snoc with ⟨_, _, _, rfl⟩
    exact hlow
  · show Chained base.pointer (lower ++ [block] ++ intake.inFlight.tail.take (intake.grouped - 1))
      frontier.concurrent
    rw [hpassed]
    exact h.concurrent
  · show ∃ newest, Chained base.pointer (lower ++ [block] ++ intake.inFlight.tail) newest ∧ _
    rw [hall]
    exact h.newest
  · unfold Intake.workLeft Forward.pending
    simp only [List.length_tail]
    omega

theorem idle (hstalled : Forward.isStalled intake = true)
    (hgroup : Forward.groupReady intake = false)
    (hserial : Forward.nextSerial? intake frontier.concurrent = none) :
    Forward.isOver intake = true := by
  refine Forward.isOver_of_stalled h.highWater hstalled ?_
  have hall := Forward.grouped_eq_length h.counted hstalled hgroup
  cases hblocks : intake.inFlight with
  | nil => rfl
  | cons block others =>
      have hlength : intake.inFlight.length = others.length + 1 := by
        rw [hblocks, List.length_cons]
      have hpassed := h.concurrent
      rw [hall, List.take_length, hblocks] at hpassed
      rcases hpassed.split with ⟨middle, _, hhigh⟩
      cases hhigh with
      | up _ hothers =>
          have hheight : block.height ≤ frontier.concurrent.height := by
            rw [UInt64.le_iff_toNat_le, hothers.height]
            exact Nat.le_add_right _ _
          rw [Forward.nextSerial?, if_pos (by omega), hblocks] at hserial
          simp only [List.head?_cons, Option.filter_eq_none_iff, decide_eq_true_eq] at hserial
          exact absurd hheight (hserial block rfl)

end

end Aloft

/-!
# What is kept
-/

/-- What is kept is kept by every group, none of which is larger than the size, and by every
block that follows once its group is there.  It speaks of the blocks that the concurrent track
has passed and of those that the serial track has passed. -/
structure Forward.Upholds (host : Host σ) (size : Nat) (blocks : List Block)
    (kept : List Block → List Block → Holding → Prop) : Prop where
  group {upper lower group : List Block} {last : Block} {holding : Holding} :
    upper ++ group <+: blocks → group.length ≤ size → group.getLast? = some last →
      kept upper lower holding →
      (∀ block ∈ group, ∃ own,
        host.catalogue.edits .concurrent block .apply (.clear holding.table) = .ok own) ∧
      ∀ edits, Gathers host holding.table .concurrent group edits →
        kept (upper ++ group) lower (holding.land .concurrent edits last.pointer)
  serial {upper lower : List Block} {block : Block} {holding : Holding} :
    upper <+: blocks → lower ++ [block] <+: upper → kept upper lower holding →
      ∃ own, host.catalogue.edits .serial block .apply (.clear holding.table) = .ok own ∧
        kept upper (lower ++ [block])
          ((holding.step .serial own block .apply block.pointer).tell (.indexed block.height))

/-- What is kept is kept by every group and every block, and by whatever is told besides. -/
structure Forward.Sustains (host : Host σ) (blocks : List Block)
    (kept : List Block → List Block → Holding → Prop) : Prop where
  group {upper lower group : List Block} {last : Block} {holding : Holding} :
    upper ++ group <+: blocks → group.getLast? = some last → kept upper lower holding →
      (∀ block ∈ group, ∃ own,
        host.catalogue.edits .concurrent block .apply (.clear holding.table) = .ok own) ∧
      ∀ edits, Gathers host holding.table .concurrent group edits →
        kept (upper ++ group) lower (holding.land .concurrent edits last.pointer)
  serial {upper lower : List Block} {block : Block} {holding : Holding} :
    lower ++ [block] <+: blocks → kept upper lower holding →
      ∃ own, host.catalogue.edits .serial block .apply (.clear holding.table) = .ok own ∧
        kept upper (lower ++ [block]) (holding.step .serial own block .apply block.pointer)
  tell {upper lower : List Block} {holding : Holding} {event : Event} :
    event.isMove = false → kept upper lower holding → kept upper lower (holding.tell event)

theorem Forward.Sustains.upholds {host : Host σ} {blocks : List Block}
    {kept : List Block → List Block → Holding → Prop} (h : Sustains host blocks kept)
    (size : Nat) : Upholds host size blocks kept where
  group hpart _ hlast hkept := h.group hpart hlast hkept
  serial := by
    intro upper lower block holding hupper hlower hkept
    rcases h.serial (hlower.trans hupper) hkept with ⟨own, hown, hstepped⟩
    exact ⟨own, hown, h.tell rfl hstepped⟩

structure Cruise (size : Nat) (base : Block) (blocks : List Block) (top : Pointer)
    (kept : List Block → List Block → Holding → Prop) (lower rest : List Block)
    (world : World σ) : Prop where
  aloft : Aloft base blocks top lower rest world.frontier world.intake
  size : world.intake.groupSize = size
  going : world.inbox.stopWanted = false
  kept : kept (lower ++ world.intake.inFlight.take world.intake.grouped) lower world.holding

def AtTop (top : Pointer) (kept : Holding → Prop) (outcome : Forward.Outcome)
    (after : World σ) : Prop :=
  outcome = .synced top ∧ after.frontier = .level top ∧
    (∃ holding, kept holding ∧ after.holding = holding.tell (.synced top.height)) ∧
    heightAbove? top.height ≠ none

namespace Cruise

variable {host : Host σ} {size : Nat} {base : Block} {blocks lower rest : List Block}
variable {top : Pointer} {kept : List Block → List Block → Holding → Prop}
variable {world after : World σ}

theorem poised (h : Cruise size base blocks top kept lower rest world) :
    Poised world.holding world.intake world :=
  ⟨rfl, rfl, h.going⟩

theorem lull (h : Cruise size base blocks top kept lower rest world) (hcalm : host.IsCalm)
    (hlull : Lull host world after) : Cruise size base blocks top kept lower rest after := by
  have hafter := h.poised.lull hcalm hlull
  refine ⟨?_, ?_, hafter.going, ?_⟩
  · rw [hlull.frontier, hlull.intake]
    exact h.aloft
  · rw [hlull.intake]
    exact h.size
  · rw [hlull.intake, hafter.holding]
    exact h.kept

theorem group_length (h : Cruise size base blocks top kept lower rest world) :
    (Forward.nextGroup world.intake).length ≤ size := by
  rw [Flight.length_nextGroup, h.size]
  exact Nat.min_le_right _ _

/-!
# The stages
-/

theorem fetchStage (h : Cruise size base blocks top kept lower rest world) (hcalm : host.IsCalm)
    (hstacks : host.Stacks base blocks top) :
    (Forward.fetchStage host).Yields world
      (fun _ after => ∃ rest', Cruise size base blocks top kept lower rest' after ∧
        ((after.intake = world.intake ∧ rest' = rest ∧
            Forward.isStalled world.intake = true) ∨
          after.intake.workLeft rest' < world.intake.workLeft rest))
      (fun cause _ => cause = .overflow ∧ heightAbove? top.height = none) := by
  refine (Forward.fetchStage_yields host world).mono ?_ ?_
  · intro _ after hended
    rcases hended with ⟨_, intake, hstep, hasks⟩
    rcases h.aloft.fetchStep hstacks hstep with ⟨rest', haloft, htake, hprogress⟩
    have hfetched :
        Cruise size base blocks top kept lower rest' { world with intake := intake } := by
      refine ⟨haloft, hstep.sizes.1.trans h.size, h.going, ?_⟩
      show kept (lower ++ intake.inFlight.take intake.grouped) lower world.holding
      rw [htake]
      exact h.kept
    refine ⟨rest', hfetched.lull hcalm hasks.lull, ?_⟩
    rw [hasks.intake]
    exact hprogress
  · intro cause after hhalted
    rcases hhalted with ⟨_, _, intake, hhalt, _⟩
    exact h.aloft.fetchHalt hstacks hhalt

theorem groupStage (h : Cruise size base blocks top kept lower rest world) (hcalm : host.IsCalm)
    (hupholds : Forward.Upholds host size blocks kept) :
    (Forward.groupStage host).Yields world
      (fun _ after => Cruise size base blocks top kept lower rest after ∧
        ((after = world ∧ Forward.groupReady world.intake = false) ∨
          after.intake.workLeft rest < world.intake.workLeft rest))
      (fun _ _ => False) := by
  refine (Forward.groupStage_yields host world).mono ?_ ?_
  · intro _ after hstep
    cases hstep with
    | idle hidle =>
        refine ⟨h, Or.inl ⟨rfl, ?_⟩⟩
        cases hready : Forward.groupReady world.intake with
        | false => rfl
        | true =>
            rcases hidle with hidle | hempty
            · rw [hready] at hidle
              cases hidle
            · exact absurd hempty (Flight.nextGroup_ne_nil h.aloft.groupSize hready)
    | grouped hready hlast hgathers _ hasks =>
        rcases h.aloft.group hready hlast with ⟨haloft, htake, hless⟩
        have hkept :=
          (hupholds.group h.aloft.group_part h.group_length hlast h.kept).2 _ hgathers
        have hheard := h.poised.lull hcalm hasks.lull
        refine ⟨⟨?_, h.size, hheard.going, ?_⟩, Or.inr hless⟩
        · rw [← hasks.frontier] at haloft
          exact haloft
        · rw [← htake, ← hheard.holding] at hkept
          exact hkept
  · intro cause after hhalted
    cases hhalted with
    | declined hblock hdeclines _ _ =>
        have hne : Forward.nextGroup world.intake ≠ [] := List.ne_nil_of_mem hblock
        have hlast := List.getLast?_eq_some_getLast hne
        rcases (hupholds.group h.aloft.group_part h.group_length hlast h.kept).1 _ hblock with
          ⟨own, hown⟩
        exact h.poised.not_hindered hcalm hown rfl (.declined hdeclines)
    | refused htakes _ _ => exact hcalm.not_refused htakes

theorem serialStage (h : Cruise size base blocks top kept lower rest world) (hcalm : host.IsCalm)
    (hupholds : Forward.Upholds host size blocks kept) :
    (Forward.serialStage host).Yields world
      (fun _ after => ∃ lower', Cruise size base blocks top kept lower' rest after ∧
        ((after = world ∧ Forward.nextSerial? world.intake world.frontier.concurrent = none) ∨
          after.intake.workLeft rest < world.intake.workLeft rest))
      (fun _ _ => False) := by
  have hupper := h.aloft.passed_part
  have hpart {block : Block}
      (hnext : Forward.nextSerial? world.intake world.frontier.concurrent = some block) :
      lower ++ [block] <+: lower ++ world.intake.inFlight.take world.intake.grouped := by
    rw [← (h.aloft.oldest hnext).2.1]
    exact List.prefix_append _ _
  refine (Forward.serialStage_yields host world).mono ?_ ?_
  · intro _ after hstep
    cases hstep with
    | idle hidle => exact ⟨lower, h, Or.inl ⟨rfl, hidle⟩⟩
    | @committed block moved hnext hstepped =>
        rcases h.aloft.oldest hnext with ⟨haloft, htake, hless⟩
        rcases hupholds.serial hupper (hpart hnext) h.kept with ⟨own, hown, hkept⟩
        have hmoved := h.poised.stepped hcalm hstepped hown rfl
        have hfrontier : moved.frontier = world.frontier.move .serial block.pointer :=
          hmoved.frontier.trans (Holding.frontier_step _ _ _ _ _ _)
        refine ⟨lower ++ [block], ⟨?_, ?_, hmoved.going, ?_⟩, Or.inr ?_⟩
        · show Aloft base blocks top (lower ++ [block]) rest moved.frontier
            { moved.intake with
              inFlight := moved.intake.inFlight.tail, grouped := moved.intake.grouped - 1 }
          rw [hfrontier, hmoved.intake]
          exact haloft
        · show moved.intake.groupSize = size
          rw [hmoved.intake]
          exact h.size
        · show kept (lower ++ [block] ++ moved.intake.inFlight.tail.take (moved.intake.grouped - 1))
            (lower ++ [block]) (moved.holding.tell (.indexed block.height))
          rw [hmoved.intake, hmoved.holding, htake]
          exact hkept
        · show Intake.workLeft { moved.intake with
            inFlight := moved.intake.inFlight.tail, grouped := moved.intake.grouped - 1 } rest < _
          rw [hmoved.intake]
          exact hless
  · intro cause after hhalted
    cases hhalted with
    | hindered hnext hhinders _ =>
        rcases hupholds.serial hupper (hpart hnext) h.kept with ⟨own, hown, _⟩
        exact h.poised.not_hindered hcalm hown rfl hhinders

/-!
# The run
-/

theorem finish (h : Cruise size base blocks top kept lower rest world)
    (hstacks : host.Stacks base blocks top) (hover : Forward.isOver world.intake = true)
    {outcome : Forward.Outcome} (hfinishes : Forward.Finishes world outcome after) :
    AtTop top (kept blocks blocks) outcome after := by
  rw [Forward.isOver, Bool.and_eq_true, List.isEmpty_iff] at hover
  have hwhole := h.aloft.whole
  rw [hover.2, h.aloft.exhausted hover.1, List.append_nil, List.append_nil] at hwhole
  have hserial : world.frontier.serial = top := by
    rw [← hwhole] at hstacks
    exact h.aloft.serial.high_unique hstacks.chain
  have hconcurrent : world.frontier.concurrent = top := by
    have hpassed := h.aloft.concurrent
    rw [hover.2, List.take_nil, List.append_nil] at hpassed
    rw [← hwhole] at hstacks
    exact hpassed.high_unique hstacks.chain
  have hkept : kept blocks blocks world.holding := by
    have hkept := h.kept
    rw [hover.2, List.take_nil, List.append_nil, hwhole] at hkept
    exact hkept
  have hroom : heightAbove? top.height ≠ none := by
    rcases h.aloft.newest with ⟨newest, hnewest, _, hnext⟩
    rw [hover.2, List.append_nil] at hnewest
    rw [← hserial, h.aloft.serial.high_unique hnewest, hnext]
    simp
  cases hfinishes with
  | forked hfork => cases h.aloft.forkAt.symm.trans hfork
  | synced _ =>
      refine ⟨congrArg Forward.Outcome.synced hserial, ?_, ⟨world.holding, hkept, ?_⟩, hroom⟩
      · calc world.frontier = ⟨world.frontier.concurrent, world.frontier.serial⟩ := rfl
          _ = .level top := by rw [hconcurrent, hserial, Frontier.level]
      · rw [← hserial]
        rfl

theorem turn (h : Cruise size base blocks top kept lower rest world) (hcalm : host.IsCalm)
    (hstacks : host.Stacks base blocks top) (hupholds : Forward.Upholds host size blocks kept)
    (hover : Forward.isOver world.intake = false) :
    (Forward.turn host ()).Yields world
      (fun result after => result.Is
        (fun _ => ∃ lower' rest', Cruise size base blocks top kept lower' rest' after ∧
          Forward.isOver after.intake = false ∧
            after.intake.workLeft rest' < world.intake.workLeft rest)
        (fun outcome => AtTop top (kept blocks blocks) outcome after))
      (fun cause _ => cause = .overflow ∧ heightAbove? top.height = none) := by
  refine Forward.turn_of_stages ?_ fun _ => ?_
  · intro hwanted
    rw [h.going] at hwanted
    cases hwanted
  refine (h.fetchStage hcalm hstacks).imp ?_
  intro _ fetched hended
  rcases hended with ⟨rest', hfetched, hfetch⟩
  refine (hfetched.groupStage hcalm hupholds).mono ?_ fun _ _ hnever => hnever.elim
  intro _ grouped hended
  rcases hended with ⟨hgrouped, hgroup⟩
  refine (hgrouped.serialStage hcalm hupholds).mono ?_ fun _ _ hnever => hnever.elim
  intro _ after hended
  rcases hended with ⟨lower', hafter, hserial⟩
  refine ⟨fun hdone => ?_, fun hdone outcome last => hafter.finish hstacks hdone⟩
  refine ⟨lower', rest', hafter, hdone, ?_⟩
  rcases hfetch with ⟨hintake, rfl, hstalled⟩ | hfetch
  · rcases hgroup with ⟨rfl, hready⟩ | hgroup
    · rcases hserial with ⟨rfl, hnone⟩ | hserial
      · rw [← hintake] at hstalled hover
        rw [hafter.aloft.idle hstalled hready hnone] at hover
        cases hover
      · rw [hintake] at hserial
        exact hserial
    · rw [hintake] at hgroup
      rcases hserial with ⟨rfl, _⟩ | hserial <;> omega
  · rcases hgroup with ⟨rfl, _⟩ | hgroup <;> rcases hserial with ⟨rfl, _⟩ | hserial <;> omega

end Cruise

/-- Forward sync on a calm host goes up to the top of the chain, and what is kept by every group
and every block is kept until it tells that it is there.  It is cut short where there is no
height above the top. -/
theorem Forward.run_upholds {host : Host σ} {world : World σ} {base : Block} {blocks : List Block}
    {top : Pointer} {kept : List Block → List Block → Holding → Prop} (hcalm : host.IsCalm)
    (hstacks : host.Stacks base blocks top) (hlevel : world.frontier = .level base.pointer)
    (hannounced : world.intake.announced = none) (hgoing : world.inbox.stopWanted = false)
    (hgroup : 0 < world.intake.groupSize) (hwater : 0 < world.intake.highWater)
    (hupholds : Upholds host world.intake.groupSize blocks kept)
    (hstart : kept [] [] world.holding) :
    (run host).Yields world (AtTop top (kept blocks blocks))
      (fun cause _ => cause = .overflow ∧ heightAbove? top.height = none) := by
  have hheight := hstacks.chain.height
  refine run_of_turns ?_ ?_ fun next _ habove => ?_
  · intro hapart
    rw [hlevel] at hapart
    exact absurd rfl hapart
  · intro _ hnone
    rw [hlevel] at hnone
    have hle : base.pointer.height.toNat ≤ top.height.toNat := by omega
    exact ⟨rfl, heightAbove?_eq_none_of_le hle hnone⟩
  · rw [hlevel] at habove
    have haloft : Aloft base blocks top [] blocks world.frontier
        (reset world.intake world.frontier.serial next) := by
      rw [hlevel]
      exact {
        whole := rfl
        counted := Nat.le_refl 0
        serial := .stay _
        concurrent := .stay _
        newest := ⟨base.pointer, .stay _, rfl, habove⟩
        bestHash := Or.inl rfl
        announced := hannounced
        forkAt := rfl
        exhausted := fun hexhausted => by cases hexhausted
        groupSize := hgroup
        highWater := hwater }
    refine Act.yields_turns
      (fun left _ now => ∃ lower rest,
        Cruise world.intake.groupSize base blocks top kept lower rest now ∧
          isOver now.intake = false ∧ now.intake.workLeft rest < left)
      ?_ ?_ ⟨[], blocks, ⟨haloft, rfl, hgoing, hstart⟩, rfl, ?_⟩
    · intro left _ now hkept
      rcases hkept with ⟨lower, rest, hcruise, hover, hleft⟩
      refine (hcruise.turn hcalm hstacks hupholds hover).imp ?_
      intro result after hresult
      cases result with
      | done outcome => exact hresult
      | again _ =>
          rcases hresult with ⟨lower', rest', hafter, hnotOver, hless⟩
          exact ⟨lower', rest', hafter, hnotOver, by omega⟩
    · intro _ world hkept
      rcases hkept with ⟨_, _, _, _, hleft⟩
      exact absurd hleft (Nat.not_lt_zero _)
    · have hpatience := hcalm.patience
      have hsize := UInt64.toNat_lt top.height
      unfold Host.enough at hpatience
      unfold Intake.workLeft pending reset
      simp only [List.length_nil, Bool.false_eq_true, if_false]
      omega

theorem Forward.run_yields {host : Host σ} {world : World σ} {base : Block} {blocks : List Block}
    {top : Pointer} {kept : List Block → List Block → Holding → Prop} (hcalm : host.IsCalm)
    (hcarries : host.Carries base blocks top) (hlevel : world.frontier = .level base.pointer)
    (hannounced : world.intake.announced = none) (hgoing : world.inbox.stopWanted = false)
    (hgroup : 0 < world.intake.groupSize) (hwater : 0 < world.intake.highWater)
    (hsustains : Sustains host blocks kept) (hstart : kept [] [] world.holding) :
    (run host).Yields world
      (fun outcome after => outcome = .synced top ∧ after.frontier = .level top ∧
        kept blocks blocks after.holding ∧ heightAbove? top.height ≠ none)
      (fun cause _ => cause = .overflow ∧ heightAbove? top.height = none) := by
  have hupholds := hsustains.upholds world.intake.groupSize
  refine (run_upholds hcalm (hcarries.stacks world.outside) hlevel hannounced hgoing hgroup
    hwater hupholds hstart).imp ?_
  intro outcome after hlanded
  rcases hlanded with ⟨houtcome, hfrontier, ⟨holding, hkept, htold⟩, hroom⟩
  refine ⟨houtcome, hfrontier, ?_, hroom⟩
  rw [htold]
  exact hsustains.tell rfl hkept

end ChainIndex
