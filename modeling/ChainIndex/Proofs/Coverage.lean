import ChainIndex.Proofs.Backlog
import ChainIndex.Proofs.Grouping
import ChainIndex.Proofs.Strides

/-!
# Coverage

Forward sync takes the blocks of a chain to both tracks, to the concurrent one in groups and to
the serial one by one.  It takes each of them once, in the order of the chain, and the serial
track never has a block that the concurrent track does not have; and it comes to its end.
-/

namespace ChainIndex

/-- The strides weave groups of blocks and single ones, so that each block is put on the serial
track once its group is on the concurrent track. -/
inductive Forward.Weave (size : Nat) : List Stride → List Block → List Block → Prop where
  | begin : Weave size [] [] []
  | group {strides : List Stride} {upper lower blocks : List Block} :
      Weave size strides upper lower → blocks ≠ [] → blocks.length ≤ size →
      Weave size (strides ++ [.group blocks]) (upper ++ blocks) lower
  | serial {strides : List Stride} {upper lower : List Block} {block : Block} :
      Weave size strides upper lower → lower ++ [block] <+: upper →
      Weave size (strides ++ [.step .serial block .apply] ++ [.tell (.indexed block.height)])
        upper (lower ++ [block])

def groups (strides : List Stride) : List (List Block) :=
  strides.filterMap Stride.group?

def singles (strides : List Stride) : List Block :=
  strides.filterMap Stride.single?

theorem groups_append (strides more : List Stride) :
    groups (strides ++ more) = groups strides ++ groups more :=
  List.filterMap_append

theorem singles_append (strides more : List Stride) :
    singles (strides ++ more) = singles strides ++ singles more :=
  List.filterMap_append

namespace Forward.Weave

variable {size : Nat} {strides : List Stride} {upper lower : List Block}

theorem groups_flatten (h : Weave size strides upper lower) : (groups strides).flatten = upper := by
  induction h with
  | begin => rfl
  | @group strides upper lower blocks _ _ _ ih =>
      have hlast : groups [.group blocks] = [blocks] := rfl
      rw [groups_append, hlast, List.flatten_append, ih, List.flatten_singleton]
  | @serial strides upper lower block _ _ ih =>
      have hstep : groups [.step .serial block .apply] = [] := rfl
      have htell : groups [.tell (.indexed block.height)] = [] := rfl
      rw [groups_append, groups_append, hstep, htell, List.append_nil, List.append_nil, ih]

theorem singles_eq (h : Weave size strides upper lower) : singles strides = lower := by
  induction h with
  | begin => rfl
  | @group strides upper lower blocks _ _ _ ih =>
      have hlast : singles [.group blocks] = [] := rfl
      rw [singles_append, hlast, List.append_nil, ih]
  | @serial strides upper lower block _ _ ih =>
      have hstep : singles [.step .serial block .apply] = [block] := rfl
      have htell : singles [.tell (.indexed block.height)] = [] := rfl
      rw [singles_append, singles_append, hstep, htell, List.append_nil, ih]

/-- There are groups, single blocks with what is told of them, and nothing else. -/
theorem forms (h : Weave size strides upper lower) : ∀ stride ∈ strides,
    (∃ blocks, stride = .group blocks ∧ blocks ≠ [] ∧ blocks.length ≤ size) ∨
      (∃ block, stride = .step .serial block .apply) ∨
      ∃ height, stride = .tell (.indexed height) := by
  induction h with
  | begin => exact fun stride hstride => by cases hstride
  | group _ hne hsize ih =>
      intro stride hstride
      rcases List.mem_append.mp hstride with hstride | hstride
      · exact ih stride hstride
      · exact Or.inl ⟨_, List.mem_singleton.mp hstride, hne, hsize⟩
  | serial _ _ ih =>
      intro stride hstride
      rcases List.mem_append.mp hstride with hstride | hstride
      · rcases List.mem_append.mp hstride with hstride | hstride
        · exact ih stride hstride
        · exact Or.inr (Or.inl ⟨_, List.mem_singleton.mp hstride⟩)
      · exact Or.inr (Or.inr ⟨_, List.mem_singleton.mp hstride⟩)

theorem follows (h : Weave size strides upper lower) {front : List Stride}
    (hfront : front <+: strides) : singles front <+: (groups front).flatten := by
  have hwhole {strides : List Stride} {upper lower : List Block} {block : Block}
      (h : Weave size strides upper lower) (hpart : lower ++ [block] <+: upper) :
      singles (strides ++ [.step .serial block .apply]) <+:
        (groups (strides ++ [.step .serial block .apply])).flatten := by
    have hgroups : groups [.step .serial block .apply] = [] := rfl
    have hsingles : singles [.step .serial block .apply] = [block] := rfl
    rw [singles_append, groups_append, hgroups, hsingles, List.append_nil, h.groups_flatten,
      h.singles_eq]
    exact hpart
  induction h generalizing front with
  | begin =>
      rw [List.prefix_nil.mp hfront]
      exact List.nil_prefix
  | @group strides upper lower blocks hweave hne hsize ih =>
      rcases List.prefix_concat_iff.mp hfront with rfl | hfront
      · have hlast : singles [.group blocks] = [] := rfl
        rw [singles_append, hlast, List.append_nil, groups_append, List.flatten_append]
        exact (ih (List.prefix_refl _)).trans (List.prefix_append _ _)
      · exact ih hfront
  | @serial strides upper lower block hweave hpart ih =>
      rcases List.prefix_concat_iff.mp hfront with rfl | hfront
      · have hgroups : groups [.tell (.indexed block.height)] = [] := rfl
        have hsingles : singles [.tell (.indexed block.height)] = [] := rfl
        rw [singles_append, hsingles, groups_append, hgroups, List.append_nil, List.append_nil]
        exact hwhole hweave hpart
      · rcases List.prefix_concat_iff.mp hfront with rfl | hfront
        · exact hwhole hweave hpart
        · exact ih hfront

end Forward.Weave

/-!
# The tables on the way
-/

namespace Forward

variable {host : Host σ} {start holding : Holding} {size : Nat} {blocks : List Block}
variable {strides : List Stride} {upper lower : List Block}

/-- A block that may be put on a track next, where the concurrent track has passed the upper
blocks and the serial track the lower ones. -/
def ComesNext (size : Nat) (blocks upper lower : List Block) : Track → Block → Prop
  | .concurrent, block => ∃ group, upper ++ group <+: blocks ∧ group.length ≤ size ∧ block ∈ group
  | .serial, block => upper <+: blocks ∧ lower ++ [block] <+: upper

def Visits (host : Host σ) (start : Holding) (size : Nat) (blocks : List Block) (track : Track)
    (block : Block) (table : Table) : Prop :=
  ∃ strides upper lower holding, Strides host start strides holding ∧
    Weave size strides upper lower ∧ ComesNext size blocks upper lower track block ∧
    holding.table = table

/-- The indexes have edits for every one of the blocks, wherever forward sync may need them. -/
def Enters (host : Host σ) (start : Holding) (size : Nat) (blocks : List Block) : Prop :=
  ∀ track block table, Visits host start size blocks track block table →
    ∃ own, host.catalogue.edits track block .apply (.clear table) = .ok own

theorem Enters.upholds (h : Enters host start size blocks) :
    Upholds host size blocks fun upper lower holding =>
      ∃ strides, Strides host start strides holding ∧ Weave size strides upper lower where
  group := by
    intro upper lower group last holding hpart hsize hlast hkept
    rcases hkept with ⟨strides, hstrides, hweave⟩
    refine ⟨fun block hblock => ?_, fun edits hgathers => ?_⟩
    · exact h .concurrent block holding.table
        ⟨strides, upper, lower, holding, hstrides, hweave, ⟨group, hpart, hsize, hblock⟩, rfl⟩
    · have hne : group ≠ [] := fun hempty => by
        rw [hempty] at hlast
        cases hlast
      exact ⟨_, hstrides.next (.group hgathers hlast), hweave.group hne hsize⟩
  serial := by
    intro upper lower block holding hupper hpart hkept
    rcases hkept with ⟨strides, hstrides, hweave⟩
    rcases h .serial block holding.table
      ⟨strides, upper, lower, holding, hstrides, hweave, ⟨hupper, hpart⟩, rfl⟩ with ⟨own, hown⟩
    exact ⟨own, hown, _, (hstrides.next (.step hown rfl)).next .tell, hweave.serial hpart⟩

theorem Upholds.kept {kept : List Block → List Block → Holding → Prop}
    (h : Upholds host size blocks kept) (hstart : kept [] [] start)
    (hweave : Weave size strides upper lower) (hstrides : Strides host start strides holding)
    (hpart : upper <+: blocks) : kept upper lower holding := by
  induction hweave generalizing holding with
  | begin =>
      rw [hstrides.eq_of_nil]
      exact hstart
  | @group strides upper lower group hweave hne hsize ih =>
      rcases hstrides.of_snoc with ⟨before, hbefore, hleads⟩
      have hkept := ih hbefore ((List.prefix_append upper group).trans hpart)
      cases hleads with
      | group hgathers hlast => exact (h.group hpart hsize hlast hkept).2 _ hgathers
  | @serial strides upper lower block hweave hlower ih =>
      rcases hstrides.of_snoc with ⟨stepped, hstepped, hleads⟩
      rcases hstepped.of_snoc with ⟨before, hbefore, hstep⟩
      rcases h.serial hpart hlower (ih hbefore hpart) with ⟨own, hown, hkept⟩
      cases hleads
      cases hstep with
      | step hown' hpointer =>
          cases hpointer
          cases hown.symm.trans hown'
          exact hkept

theorem Upholds.enters {kept : List Block → List Block → Holding → Prop}
    (h : Upholds host size blocks kept) (hstart : kept [] [] start) :
    Enters host start size blocks := by
  intro track block table hvisits
  rcases hvisits with ⟨strides, upper, lower, holding, hstrides, hweave, hnext, rfl⟩
  cases track with
  | concurrent =>
      rcases hnext with ⟨group, hpart, hsize, hblock⟩
      have hlast := List.getLast?_eq_some_getLast (List.ne_nil_of_mem hblock)
      have hkept := h.kept hstart hweave hstrides ((List.prefix_append upper group).trans hpart)
      exact (h.group hpart hsize hlast hkept).1 block hblock
  | serial =>
      rcases hnext with ⟨hupper, hpart⟩
      rcases h.serial hupper hpart (h.kept hstart hweave hstrides hupper) with ⟨own, hown, _⟩
      exact ⟨own, hown⟩

/-- Where the replays of the two tracks find their edits, so does forward sync. -/
theorem enters_of_replays {stem : Index → Bytes} (hcalm : host.IsCalm)
    (hapart : host.catalogue.KeepsApart stem)
    (hblind : ∀ index ∈ host.catalogue.on .concurrent, index.IsBlind)
    (hreads : ∀ index ∈ host.catalogue.on .serial, index.ReadsUnder (stem index))
    (henters : host.catalogue.Enters start.table blocks) (size : Nat) :
    Enters host start size blocks := by
  have hbegins : host.catalogue.Begins start.table blocks .concurrent start.table := rfl
  rcases henters.exists_leads hbegins with ⟨full, hfull⟩
  have hsustains := Woven.sustains start hcalm hapart hblind hreads henters hfull
  exact (hsustains.upholds size).enters ⟨.begin hapart hfull, .begin start .serial⟩

end Forward

/-- Forward sync from the base of a chain comes to its end at the top.  It has put the blocks on
the concurrent track in groups, none empty or larger than the group size, and on the serial track
one by one; both times each block once and in the order of the chain, and on the serial track
never before the concurrent one.  At no moment had it fetched more blocks than the serial track
had committed and the high water mark allows. -/
theorem forward_sync_covers_chain {host : Host σ} {world : World σ} {base : Block}
    {blocks : List Block} {top : Pointer} (hcalm : host.IsCalm)
    (henters : Forward.Enters host world.holding world.intake.groupSize blocks)
    (hstacks : host.Stacks base blocks top) (hroom : top.height.toNat + 1 < UInt64.size)
    (hlevel : world.frontier = .level base.pointer)
    (hannounced : world.intake.announced = none) (hgoing : world.inbox.stopWanted = false)
    (hgroup : 0 < world.intake.groupSize) (hwater : 0 < world.intake.highWater) :
    ∃ after strides,
      (Forward.run host).perform world = (.ok (.synced top), after) ∧
      after.frontier = .level top ∧
      Strides host world.holding (strides ++ [.tell (.synced top.height)]) after.holding ∧
      (∀ stride ∈ strides,
        (∃ group, stride = .group group ∧ group ≠ [] ∧ group.length ≤ world.intake.groupSize) ∨
          (∃ block, stride = .step .serial block .apply) ∨
          ∃ height, stride = .tell (.indexed height)) ∧
      (groups strides).flatten = blocks ∧ singles strides = blocks ∧
      (∀ front, front <+: strides → singles front <+: (groups front).flatten) ∧
      ∃ said, after.course = said ++ world.course ∧
        ∀ recent, recent <:+ said →
          fetched recent ≤ committed recent + world.intake.highWater := by
  have hrun := Forward.run_upholds hcalm hstacks hlevel hannounced hgoing hgroup hwater
    henters.upholds ⟨[], .stay, .begin⟩
  have hended := (hrun.and (Forward.run_backlog host world)).mono (fun _ _ hended => hended)
    fun _ _ hhalted => heightAbove?_ne_none hroom hhalted.1.2
  rcases hended.exists_ok with ⟨_, after, hperform, ⟨rfl, hfrontier, hlast, _⟩, hbacklog⟩
  rcases hlast with ⟨holding, ⟨strides, hstrides, hweave⟩, htold⟩
  rcases hbacklog with ⟨said, hsaid, hrecent, _⟩
  refine ⟨after, strides, hperform, hfrontier, ?_, hweave.forms, hweave.groups_flatten,
    hweave.singles_eq, fun front => hweave.follows, said, hsaid, hrecent⟩
  rw [htold]
  exact hstrides.next .tell

/-- Where no height is left above the top, forward sync cannot see that it has come there. -/
theorem Forward.run_overflows {host : Host σ} {world : World σ} {base : Block}
    {blocks : List Block} {top : Pointer} (hcalm : host.IsCalm)
    (henters : Enters host world.holding world.intake.groupSize blocks)
    (hstacks : host.Stacks base blocks top) (hnone : heightAbove? top.height = none)
    (hlevel : world.frontier = .level base.pointer)
    (hannounced : world.intake.announced = none) (hgoing : world.inbox.stopWanted = false)
    (hgroup : 0 < world.intake.groupSize) (hwater : 0 < world.intake.highWater) :
    ∃ halted, (run host).perform world = (.error .overflow, halted) := by
  have hrun := run_upholds hcalm hstacks hlevel hannounced hgoing hgroup hwater
    henters.upholds ⟨[], .stay, .begin⟩
  rcases (hrun.mono (fun _ _ hended => absurd hnone hended.2.2.2)
    fun _ _ hhalted => hhalted.1).exists_error with ⟨_, halted, hperform, rfl⟩
  exact ⟨halted, hperform⟩

namespace Sample

/-- Groups of two are asked for, but only one block may be in flight. -/
def narrow : World Unit := { blank with intake := .idle 2 1 }

end Sample

/-- Each group is cut short at the one block that there is room for. -/
theorem forward_sync_covers_chain_of_sample :
    Sample.host.IsCalm ∧
    Forward.Enters Sample.host Sample.narrow.holding 2 [Sample.first, Sample.second] ∧
    Sample.host.Stacks Sample.genesis [Sample.first, Sample.second] Sample.second.pointer ∧
    Sample.second.height.toNat + 1 < UInt64.size ∧
    Sample.narrow.frontier = .level Sample.genesis.pointer ∧
    Sample.narrow.intake.highWater < Sample.narrow.intake.groupSize ∧
    ∃ after strides,
      (Forward.run Sample.host).perform Sample.narrow =
        (.ok (.synced Sample.second.pointer), after) ∧
      Strides Sample.host Sample.narrow.holding (strides ++ [.tell (.synced 2)]) after.holding ∧
      (groups strides).flatten = [Sample.first, Sample.second] ∧
      singles strides = [Sample.first, Sample.second] := by
  have hcalm : Sample.host.IsCalm := Sample.restsAt.isCalm
  have hreplays : Sample.host.catalogue.Enters Sample.narrow.holding.table
      [Sample.first, Sample.second] :=
    Sample.standard.enters (Standing.Filled.blank Sample.tree) rfl Sample.climb_second
      Sample.roomy_second
  have henters : Forward.Enters Sample.host Sample.narrow.holding 2
      [Sample.first, Sample.second] :=
    Forward.enters_of_replays hcalm Catalogue.keepsApart_standard Sample.blind Sample.reads
      hreplays 2
  have hstacks := Sample.carries.stacks ()
  have hroom : Sample.second.height.toNat + 1 < UInt64.size := by decide
  have hlevel : Sample.narrow.frontier = .level Sample.genesis.pointer := rfl
  rcases forward_sync_covers_chain hcalm henters hstacks hroom hlevel rfl rfl (by decide)
    (by decide) with ⟨after, strides, hrun, _, hstrides, _, hgroups, hsingles, _⟩
  exact ⟨hcalm, henters, hstacks, hroom, hlevel, by decide, after, strides, hrun, hstrides,
    hgroups, hsingles⟩

/-- Forward sync does not come to its end where the chain ends at the highest of all heights. -/
theorem forward_sync_overflows_at_the_highest_height :
    Sample.alpine.IsCalm ∧
    Forward.Enters Sample.alpine Sample.climber.holding Sample.climber.intake.groupSize
      [Sample.peak] ∧
    Sample.alpine.Stacks Sample.brink [Sample.peak] Sample.peak.pointer ∧
    Sample.climber.frontier = .level Sample.brink.pointer ∧
    Sample.climber.intake.announced = none ∧ Sample.climber.inbox.stopWanted = false ∧
    0 < Sample.climber.intake.groupSize ∧ 0 < Sample.climber.intake.highWater ∧
    ∃ halted, (Forward.run Sample.alpine).perform Sample.climber = (.error .overflow, halted) := by
  have hcalm := Sample.alpine_isCalm
  have hstacks := Sample.alpine_carries.stacks ()
  have hreplays : Sample.alpine.catalogue.Enters Sample.climber.holding.table [Sample.peak] :=
    Sample.enters_peak
  have henters := Forward.enters_of_replays hcalm Catalogue.keepsApart_standard Sample.blind
    Sample.reads hreplays Sample.climber.intake.groupSize
  have hnone : heightAbove? Sample.peak.pointer.height = none := by decide
  exact ⟨hcalm, henters, hstacks, rfl, rfl, rfl, by decide, by decide,
    Forward.run_overflows hcalm henters hstacks hnone rfl rfl rfl (by decide) (by decide)⟩

end ChainIndex
