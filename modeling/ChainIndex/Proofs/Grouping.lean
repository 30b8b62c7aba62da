import ChainIndex.Proofs.Serving
import ChainIndex.Proofs.StandardReplays
import ChainIndex.Proofs.SteadySync
import ChainIndex.Proofs.Weaving

/-!
# Grouping makes no difference

Forward sync commits blocks to the concurrent track in groups, and takes turns between the two
tracks as the sizes of the groups and of the intake will have it.  A replay puts all the blocks
on the concurrent track, one by one, and then all of them on the serial track.  Both lead to the
same table and the same tips, and tell of the same moves.
-/

namespace ChainIndex

/-!
# Moves
-/

theorem moves_deeds (course : List Entry) : moves (deeds course) = moves course := by
  have hentry (entry : Entry) :
      (if entry.isDeed = true then entry.event? else none) = entry.event? := by
    cases entry with
    | batch edits answer => cases answer <;> rfl
    | _ => rfl
  rw [moves, moves, reports, reports, deeds, List.filterMap_filter]
  simp only [hentry]

theorem moves_emitted {event : Event} (h : event.isMove = true) (course : List Entry) :
    moves (.emitted event :: course) = moves course ++ [event] := by
  rw [moves, reports_emitted, List.filter_append, List.filter_cons_of_pos h, List.filter_nil, moves]

theorem moves_emitted_of_not_move {event : Event} (h : event.isMove = false)
    (course : List Entry) : moves (.emitted event :: course) = moves course := by
  have hnot : ¬ event.isMove = true := Bool.eq_false_iff.mp h
  rw [moves, reports_emitted, List.filter_append, List.filter_cons_of_neg hnot, List.filter_nil,
    List.append_nil, moves]

def Track.tells : Track → List Block → List Event
  | .concurrent, _ => []
  | .serial, blocks => blocks.map fun block => .added block.hash block.height

def Holding.Tells (start : Holding) (track : Track) (blocks : List Block) (holding : Holding) :
    Prop :=
  moves holding.deeds = moves start.deeds ++ track.tells blocks

theorem Holding.Tells.begin (start : Holding) (track : Track) : start.Tells track [] start := by
  cases track <;> exact (List.append_nil _).symm

theorem Holding.Tells.step {start holding : Holding} {track : Track} {blocks : List Block}
    (h : start.Tells track blocks holding) (own : List Edit) (block : Block) (pointer : Pointer) :
    start.Tells track (blocks ++ [block]) (holding.step track own block .apply pointer) := by
  cases track with
  | concurrent => exact h
  | serial =>
      have hmove : (Event.added block.hash block.height).isMove = true := rfl
      refine (moves_emitted hmove
        (.batch (own ++ [Frontier.edit .serial pointer]) (.ok ()) :: holding.deeds)).trans ?_
      show moves holding.deeds ++ _ = _
      rw [h, Track.tells, Track.tells, List.map_append, List.append_assoc]
      rfl

/-!
# Both ways
-/

section

variable {host : Host σ} {world : World σ} {stem : Index → Bytes} {start : Holding}
variable {intake : Intake} {base top : Pointer} {blocks : List Block} {full : Table}

namespace Poised

theorem replayEach {table : Table} (h : Poised start intake world) (hcalm : host.IsCalm)
    (track : Track) (henters : host.catalogue.Enters table blocks)
    (hbegins : host.catalogue.Begins table blocks track start.table)
    (hchain : Chained (start.frontier.tip track) blocks top)
    (hgives : ∀ block ∈ blocks, host.Gives block) :
    (Switching.replay host track (blocks.map Block.hash)).Yields world
      (fun _ after => ∃ holding, Poised holding intake after ∧
        holding.frontier = start.frontier.move track top ∧
        host.catalogue.Leads track start.table blocks holding.table ∧
        start.Tells track blocks holding)
      (fun _ _ => False) := by
  refine h.replay hcalm track hchain hgives
    (fun front holding => host.catalogue.Leads track start.table front holding.table ∧
      start.Tells track front holding) ⟨.stay _, .begin start track⟩ ?_
  intro front block holding hpart hkept
  rcases Catalogue.exists_gather
    (henters track block holding.table ⟨start.table, front, hbegins, hpart, hkept.1⟩) with
    ⟨own, hown⟩
  refine ⟨own, hown, ?_, hkept.2.step own block block.pointer⟩
  rw [Holding.table_step]
  exact hkept.1.snoc hown

theorem rewindNone (h : Poised start intake world) (hcalm : host.IsCalm) (track : Track)
    (hat : start.frontier.tip track = base) :
    (Switching.rewind host track base.hash).Yields world
      (fun _ after => Poised start intake after) (fun _ _ => False) := by
  have hchain : Chained base [] (start.frontier.tip track) := by
    rw [hat]
    exact .stay base
  refine (h.rewind hcalm track hchain (by simp) (by simp) (fun _ holding => holding = start) rfl
    (by simp)).imp ?_
  intro _ after hended
  rcases hended with ⟨holding, hpoised, _, rfl⟩
  exact hpoised

theorem carryForward (h : Poised start intake world) (hcalm : host.IsCalm)
    (henters : host.catalogue.Enters start.table blocks) (hlevel : start.frontier = .level base)
    (hchain : Chained base blocks top) (hgives : ∀ block ∈ blocks, host.Gives block) :
    (Switching.carryOut host ⟨base.hash, base.hash, blocks.map Block.hash⟩).Yields world
      (fun _ after => ∃ full ended, host.catalogue.Leads .concurrent start.table blocks full ∧
        host.catalogue.Leads .serial full blocks ended ∧ after.table = ended ∧
        after.frontier = .level top ∧
        moves after.course = moves start.deeds ++ Track.serial.tells blocks)
      (fun _ _ => False) := by
  have hforward : (Switch.mk base.hash base.hash (blocks.map Block.hash)).isForward = true :=
    decide_eq_true rfl
  refine Switching.carryOut_of_parts ?_
  rw [Switching.begun_of_forward hforward]
  refine (h.rewindNone hcalm .serial (by rw [hlevel, Frontier.tip_level])).imp ?_
  intro _ world₁ h₁
  refine (h₁.rewindNone hcalm .concurrent (by rw [hlevel, Frontier.tip_level])).imp ?_
  intro _ world₂ h₂
  refine (h₂.replayEach hcalm .concurrent henters rfl
    (by rw [hlevel]; exact hchain) hgives).imp ?_
  intro _ world₃ hended₃
  rcases hended₃ with ⟨grown, h₃, hfrontier₃, hfull, htells₃⟩
  refine (h₃.replayEach hcalm .serial henters hfull
    (by rw [hfrontier₃, hlevel]; exact hchain) hgives).imp ?_
  intro _ world₄ hended₄
  rcases hended₄ with ⟨risen, h₄, hfrontier₄, hended, htells₄⟩
  refine ⟨grown.table, risen.table, hfull, hended, h₄.table, ?_, ?_⟩
  · rw [h₄.frontier, hfrontier₄, hfrontier₃, hlevel]
    rfl
  · have hdeeds : deeds world₄.course = risen.deeds := congrArg Holding.deeds h₄.holding
    rw [← moves_deeds, hdeeds, htells₄, htells₃]
    simp [Track.tells]

end Poised

/-- Groups and single blocks keep the table woven of the two replays. -/
theorem Woven.sustains (start : Holding) (hcalm : host.IsCalm)
    (hapart : host.catalogue.KeepsApart stem)
    (hblind : ∀ index ∈ host.catalogue.on .concurrent, index.IsBlind)
    (hreads : ∀ index ∈ host.catalogue.on .serial, index.ReadsUnder (stem index))
    (henters : host.catalogue.Enters start.table blocks)
    (hfull : host.catalogue.Leads .concurrent start.table blocks full) :
    Forward.Sustains host blocks fun upper lower holding =>
      Woven host.catalogue stem start.table full upper lower holding.table ∧
        start.Tells .serial lower holding where
  group := by
    intro upper lower group last holding hpart hlast hkept
    refine ⟨fun block hblock => ?_, fun edits hgathers => ⟨?_, hkept.2⟩⟩
    · exact hfull.exists_edits hblind
        (hpart.subset (List.mem_append_right upper hblock)) holding.table
    · exact hkept.1.grow hcalm hapart hblind hlast hgathers
  serial := by
    intro upper lower block holding hpart hkept
    rcases hkept.1.rise hapart hreads henters hfull hpart with ⟨own, hown, hwoven⟩
    refine ⟨own, hown, ?_, hkept.2.step own block block.pointer⟩
    rw [Holding.table_step]
    exact hwoven
  tell := by
    intro upper lower holding event hmove hkept
    exact ⟨hkept.1, (moves_emitted_of_not_move hmove _).trans hkept.2⟩

/-- Forward sync leads to the very table, the tips and the told moves that a plain replay of the
same blocks leads to, whatever the sizes of its groups and of its intake. -/
theorem grouping_makes_no_difference {base : Block} (hcalm : host.IsCalm)
    (hapart : host.catalogue.KeepsApart stem)
    (hblind : ∀ index ∈ host.catalogue.on .concurrent, index.IsBlind)
    (hreads : ∀ index ∈ host.catalogue.on .serial, index.ReadsUnder (stem index))
    (henters : host.catalogue.Enters world.table blocks)
    (hcarries : host.Carries base blocks top) (hroom : top.height.toNat + 1 < UInt64.size)
    (hlevel : world.frontier = .level base.pointer)
    (hannounced : world.intake.announced = none) (hgoing : world.inbox.stopWanted = false)
    (hgroup : 0 < world.intake.groupSize) (hwater : 0 < world.intake.highWater) :
    ∃ replayed synced,
      (Switching.carryOut host ⟨base.hash, base.hash, blocks.map Block.hash⟩).perform world =
        (.ok (), replayed) ∧
      (Forward.run host).perform world = (.ok (.synced top), synced) ∧
      replayed.frontier = .level top ∧
      moves replayed.course =
        moves world.course ++ blocks.map (fun block => .added block.hash block.height) ∧
      synced.table = replayed.table ∧ synced.frontier = replayed.frontier ∧
      moves synced.course = moves replayed.course := by
  have hbegun : Poised world.holding world.intake world := ⟨rfl, rfl, hgoing⟩
  rcases (hbegun.carryForward hcalm henters hlevel hcarries.chain
    fun block hblock => hcarries.gives block (List.mem_cons_of_mem _ hblock)).exists_ok with
    ⟨_, replayed, hreplayed, full, ended, hfull, hended, htable, hfrontier, hmoves⟩
  have hsynced := Forward.run_yields hcalm hcarries hlevel hannounced hgoing hgroup hwater
    (Woven.sustains world.holding hcalm hapart hblind hreads henters hfull)
    ⟨.begin hapart hfull, .begin world.holding .serial⟩
  rcases (hsynced.mono (fun _ _ hended => hended)
    fun _ _ hhalted => heightAbove?_ne_none hroom hhalted.2).exists_ok with
    ⟨_, synced, hrun, rfl, hlevel', ⟨hwoven, htells⟩, _⟩
  have hstart : moves world.holding.deeds = moves world.course := moves_deeds world.course
  rw [hstart] at hmoves
  refine ⟨replayed, synced, hreplayed, hrun, hfrontier, hmoves, ?_, hlevel'.trans hfrontier.symm,
    ?_⟩
  · rw [htable]
    exact hwoven.eq hapart hfull hended
  · rw [hmoves, ← moves_deeds, ← hstart]
    exact htells

end

namespace Sample

theorem carries : host.Carries genesis [first, second] second.pointer where
  chain := .up (by decide) (.up (by decide) (.stay _))
  gives := by
    have hmem : ∀ block ∈ [genesis, first, second], block ∈ tree := by decide
    exact fun block hblock => (serves (hmem block hblock)).gives
  byHeight := by
    intro block hblock outside
    have hclimb : tree.Climb genesis [first, second] second :=
      .up child_first (.up child_second (.stay _))
    exact restsAt.byHeight outside (hclimb.mem_iff.mp (List.mem_cons_of_mem _ hblock)).2
  best := restsAt.bestHash

theorem blind : ∀ index ∈ catalogue.on .concurrent, index.IsBlind := by
  intro index hindex
  rw [show index = Heights.index from standard.eq_of_mem_on hindex]
  exact fun _ _ _ => rfl

theorem reads : ∀ index ∈ catalogue.on .serial, index.ReadsUnder index.standardStem :=
  fun index hindex => Catalogue.readsUnder_standard index (Catalogue.mem_of_mem_on hindex)

end Sample

/-- Both blocks are committed to the concurrent track as one group. -/
theorem grouping_makes_no_difference_of_sample :
    Sample.host.IsCalm ∧ Sample.catalogue.KeepsApart Index.standardStem ∧
    (∀ index ∈ Sample.catalogue.on .concurrent, index.IsBlind) ∧
    (∀ index ∈ Sample.catalogue.on .serial, index.ReadsUnder index.standardStem) ∧
    Sample.catalogue.Enters .empty [Sample.first, Sample.second] ∧
    Sample.host.Carries Sample.genesis [Sample.first, Sample.second] Sample.second.pointer ∧
    Sample.second.height.toNat + 1 < UInt64.size ∧
    Sample.opened.frontier = .level Sample.genesis.pointer ∧
    Sample.opened.intake.announced = none ∧ Sample.opened.inbox.stopWanted = false ∧
    2 ≤ Sample.opened.intake.groupSize ∧ 2 ≤ Sample.opened.intake.highWater ∧
    ∃ replayed synced,
      (Switching.carryOut Sample.host ⟨"g", "g", ["a", "b"]⟩).perform Sample.opened =
        (.ok (), replayed) ∧
      (Forward.run Sample.host).perform Sample.opened =
        (.ok (.synced Sample.second.pointer), synced) ∧
      synced.table = replayed.table ∧ synced.frontier = replayed.frontier ∧
      moves synced.course = [.added "a" 1, .added "b" 2] := by
  have hcalm : Sample.host.IsCalm := Sample.restsAt.isCalm
  have hclimb : Sample.tree.Climb Sample.genesis [Sample.first, Sample.second] Sample.second :=
    .up Sample.child_first (.up Sample.child_second (.stay _))
  have henters : Sample.host.catalogue.Enters Sample.opened.table [Sample.first, Sample.second] :=
    Sample.standard.enters (Standing.Filled.blank Sample.tree) rfl hclimb Sample.roomy_second
  have hroom : Sample.second.height.toNat + 1 < UInt64.size := by decide
  have hgroup : 2 ≤ Sample.opened.intake.groupSize := by decide
  have hwater : 2 ≤ Sample.opened.intake.highWater := by decide
  have hlevel : Sample.opened.frontier = .level Sample.genesis.pointer := rfl
  rcases grouping_makes_no_difference hcalm Catalogue.keepsApart_standard Sample.blind
    Sample.reads henters Sample.carries hroom hlevel rfl rfl (by omega) (by omega) with
    ⟨replayed, synced, hreplayed, hsynced, _, hmoves, htable, hfrontier, hsame⟩
  have hbefore : moves Sample.opened.course = [] := by decide +kernel
  rw [hbefore] at hmoves
  exact ⟨hcalm, Catalogue.keepsApart_standard, Sample.blind, Sample.reads, henters,
    Sample.carries, hroom, rfl, rfl, rfl, hgroup, hwater, replayed, synced, hreplayed, hsynced,
    htable, hfrontier, hsame.trans hmoves⟩

/-!
# The highest of all heights

No block can sit on one at the highest of all heights.  A replay that ends there does not ask
for more, but forward sync has to name the next height before it can see that there is no next
block.
-/

namespace Sample

/-- A block just below the highest of all heights. -/
def brink : Block := ⟨⟨"o", none, 18446744073709551614, 0⟩, []⟩

def peak : Block := ⟨⟨"p", some "o", 18446744073709551615, 0⟩, []⟩

def alpine : Host Unit :=
  { host with
    blockAt := fun place _ =>
      let found := [brink, peak].find? fun block =>
        place = .byHash block.hash ∨ place = .byHeight block.height
      ⟨found.elim (.error (.fault (.notFound place.text))) .ok, (), []⟩
    headerOf := fun hash _ =>
      let found := [brink, peak].find? fun block => block.hash = hash
      ⟨found.elim (.error (.fault (.notFound s!"header {hash}"))) (.ok ·.header), (), []⟩
    bestHash := fun _ => ⟨.ok peak.hash, (), []⟩ }

def climber : World Unit :=
  { blank with toFollower := .fresh .standard (.level brink.pointer) }

theorem alpine_isCalm : alpine.IsCalm where
  accept _ _ := rfl
  outages _ := rfl
  going := by
    intro signal hsends
    cases hsends with
    | block hsignal => cases hsignal
    | header hsignal => cases hsignal
    | best hsignal => cases hsignal
    | batch hsignal => cases hsignal
    | read hsignal => cases hsignal
  patience := Nat.le_refl _

theorem alpine_carries : alpine.Carries brink [peak] peak.pointer where
  chain := .up (by decide) (.stay _)
  gives := by
    intro block hblock outside
    rcases List.mem_pair.mp hblock with rfl | rfl <;> rfl
  byHeight := by
    intro block hblock outside
    rw [List.mem_singleton.mp hblock]
    rfl
  best _ := rfl

theorem enters_peak : catalogue.Enters .empty [peak] := by
  intro track block table hvisits index hindex
  rcases hvisits with ⟨base, front, hbegins, hpart, hleads⟩
  have hlength := hpart.length_le
  rw [List.length_append, List.length_singleton, List.length_singleton] at hlength
  have hfront : front = [] := List.eq_nil_of_length_eq_zero (by omega)
  subst hfront
  have hblock : block = peak := List.cons_prefix_cons.mp hpart |>.1
  subst hblock
  cases hleads
  cases track with
  | concurrent =>
      rw [standard.eq_of_mem_on hindex]
      exact ⟨_, rfl⟩
  | serial =>
      rw [standard.eq_of_mem_on hindex]
      have hbegins : catalogue.Leads .concurrent .empty [peak] table := hbegins
      cases hbegins with
      | on hown hrest =>
          cases hown
          cases hrest
          exact ⟨_, rfl⟩

end Sample

/-- Forward sync cannot do what a replay does where the chain ends at the highest of all heights:
it stops before it has committed the block. -/
theorem grouping_overflows_at_the_highest_height :
    Sample.alpine.IsCalm ∧ Sample.catalogue.KeepsApart Index.standardStem ∧
    (∀ index ∈ Sample.catalogue.on .concurrent, index.IsBlind) ∧
    (∀ index ∈ Sample.catalogue.on .serial, index.ReadsUnder index.standardStem) ∧
    Sample.catalogue.Enters Sample.climber.table [Sample.peak] ∧
    Sample.alpine.Carries Sample.brink [Sample.peak] Sample.peak.pointer ∧
    Sample.climber.frontier = .level Sample.brink.pointer ∧
    Sample.climber.intake.announced = none ∧ Sample.climber.inbox.stopWanted = false ∧
    0 < Sample.climber.intake.groupSize ∧ 0 < Sample.climber.intake.highWater ∧
    ∃ replayed halted,
      (Switching.carryOut Sample.alpine ⟨"o", "o", ["p"]⟩).perform Sample.climber =
        (.ok (), replayed) ∧
      (Forward.run Sample.alpine).perform Sample.climber = (.error .overflow, halted) ∧
      replayed.frontier = .level Sample.peak.pointer ∧
      halted.frontier = .level Sample.brink.pointer := by
  refine ⟨Sample.alpine_isCalm, Catalogue.keepsApart_standard, Sample.blind, Sample.reads,
    Sample.enters_peak, Sample.alpine_carries, rfl, rfl, rfl, by decide, by decide, ?_⟩
  have hreplayed : ((Switching.carryOut Sample.alpine ⟨"o", "o", ["p"]⟩).perform
      Sample.climber).1 = .ok () := by
    decide +kernel
  have hhalted : ((Forward.run Sample.alpine).perform Sample.climber).1 = .error .overflow := by
    decide +kernel
  exact ⟨_, _, Prod.ext hreplayed rfl, Prod.ext hhalted rfl, by decide +kernel, by decide +kernel⟩

end ChainIndex
