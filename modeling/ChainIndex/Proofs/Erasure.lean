import ChainIndex.Proofs.CalmHosts
import ChainIndex.Proofs.StandardReplays
import ChainIndex.Proofs.Serving

/-!
# Switching leaves nothing of the old branch

Blocks are put on both tracks, then taken off again by a switch, and others are put on in their
place.  If the indexes keep to themselves, and each of them can take back what it has just
done, then the table is afterwards what it would be had the first blocks never been there.

The switch is followed beside the tables that a plain replay of either branch leads to, and
compared with them outside the keys of the tips.
-/

namespace ChainIndex

def Switching.replayBoth (host : Host σ) (hashes : List BlockHash) : Act σ Unit := do
  let _ ← replay host .concurrent hashes
  let _ ← replay host .serial hashes
  pure ()

theorem Switching.replayBoth_iff {host : Host σ} {hashes : List BlockHash} {world : World σ}
    {ended : Unit → World σ → Prop} {halted : Halt → World σ → Prop} :
    (replayBoth host hashes).Yields world ended halted ↔
      (replay host .concurrent hashes).Yields world (fun _ middle =>
        (replay host .serial hashes).Yields middle (fun _ after => ended () after) halted)
        halted := by
  rw [replayBoth, Act.yields_bind]
  simp only [Act.yields_bind]
  exact Iff.rfl

/-!
# Following a switch
-/

/-- Wherever a table is opened that says of the tips what is so at the start, it says so of
them now. -/
def Holding.Recalls (start holding : Holding) : Prop :=
  ∀ genesis, Frontier.load (.clear start.table) genesis = .ok start.frontier →
    Frontier.load (.clear holding.table) genesis = .ok holding.frontier

theorem Holding.Recalls.step {start holding : Holding} (h : start.Recalls holding)
    {own : List Edit} (hspares : ∀ edit ∈ own, ∀ track, edit.key ≠ Frontier.key track)
    (track : Track) (block : Block) (direction : Direction) (pointer : Pointer) :
    start.Recalls (holding.step track own block direction pointer) := by
  intro genesis hgenesis
  rw [Holding.table_step, Holding.frontier_step]
  exact Frontier.load_commit (h genesis hgenesis) hspares track pointer

namespace Poised

variable {host : Host σ} {origin start holding : Holding} {intake : Intake} {world : World σ}
variable {stem : Index → Bytes} {track : Track} {blocks : List Block} {base top : Pointer}
variable {old : List Block} {high : Pointer} {table began ended upper lower : Table}

theorem replayAlong (h : Poised start intake world) (hcalm : host.IsCalm) (track : Track)
    (hapart : host.catalogue.KeepsApart stem)
    (hreads : ∀ index ∈ host.catalogue, index.ReadsUnder (stem index))
    (henters : host.catalogue.Enters table blocks)
    (hbegins : host.catalogue.Begins table blocks track began)
    (halike : Table.Alike Frontier.Foreign start.table began) (hrecalls : origin.Recalls start)
    (hchain : Chained (start.frontier.tip track) blocks top)
    (hgives : ∀ block ∈ blocks, host.Gives block) :
    (Switching.replay host track (blocks.map Block.hash)).Yields world
      (fun _ after => ∃ holding ended, Poised holding intake after ∧
        holding.frontier = start.frontier.move track top ∧ origin.Recalls holding ∧
        host.catalogue.Leads track began blocks ended ∧
        Table.Alike Frontier.Foreign holding.table ended)
      (fun _ _ => False) := by
  refine (h.replay hcalm track hchain hgives
    (fun front holding => ∃ ended, origin.Recalls holding ∧
      host.catalogue.Leads track began front ended ∧
      Table.Alike Frontier.Foreign holding.table ended)
    ⟨began, hrecalls, .stay began, halike⟩ ?_).imp ?_
  · intro front block holding hpart hkept
    rcases hkept with ⟨ended, hrecalls, hleads, halike⟩
    have hvisits : host.catalogue.Visits table blocks track block ended :=
      ⟨began, front, hbegins, hpart, hleads⟩
    rcases Catalogue.exists_gather (henters track block ended hvisits) with ⟨own, hown⟩
    have hsame := (hapart.edits_congr hreads halike).trans hown
    refine ⟨own, hsame, _, hrecalls.step (hapart.sparesTips.edits hsame) _ _ _ _, hleads.snoc hown,
      ?_⟩
    rw [Holding.table_step]
    exact halike.land own track _ _
  · intro _ after hended
    rcases hended with ⟨holding, hpoised, hfrontier, ended, hrecalls, hleads, halike⟩
    exact ⟨holding, ended, hpoised, hfrontier, hrecalls, hleads, halike⟩

theorem rewindAlong (h : Poised start intake world) (hcalm : host.IsCalm) (track : Track)
    (hapart : host.catalogue.KeepsApart stem)
    (hreads : ∀ index ∈ host.catalogue, index.ReadsUnder (stem index))
    (hrestores : host.catalogue.Restores stem table blocks)
    (hbegins : host.catalogue.Begins table blocks track began)
    (hleads : host.catalogue.Leads track began blocks ended)
    (halike : Table.Alike Frontier.Foreign start.table ended) (hrecalls : origin.Recalls start)
    (hchain : Chained base blocks (start.frontier.tip track))
    (hgives : ∀ block ∈ blocks, host.Gives block)
    (hne : ∀ block ∈ blocks, block.hash ≠ base.hash) :
    (Switching.rewind host track base.hash).Yields world
      (fun _ after => ∃ holding, Poised holding intake after ∧
        holding.frontier = start.frontier.move track base ∧ origin.Recalls holding ∧
        Table.Alike Frontier.Foreign holding.table began)
      (fun _ _ => False) := by
  refine (h.rewind hcalm track hchain hgives hne
    (fun front holding => ∃ ended, origin.Recalls holding ∧
      host.catalogue.Leads track began front ended ∧
      Table.Alike Frontier.Foreign holding.table ended)
    ⟨ended, hrecalls, hleads, halike⟩ ?_).imp ?_
  · intro front block low holding hpart hfront hkept
    rcases hkept with ⟨ended, hrecalls, hleads, halike⟩
    rcases hleads.of_snoc with ⟨before, own, hbefore, hown, rfl⟩
    have hvisits : host.catalogue.Visits table blocks track block before :=
      ⟨began, front, hbegins, hpart, hbefore⟩
    rcases hapart.undo hreads hown (hrestores track block before own hvisits hown) halike
      low with ⟨undone, hundone, hback⟩
    refine ⟨undone, hundone, before, hrecalls.step (hapart.sparesTips.edits hundone) _ _ _ _,
      hbefore, ?_⟩
    rw [Holding.table_step]
    exact hback
  · intro _ after hended
    rcases hended with ⟨holding, hpoised, hfrontier, ended, hrecalls, hleads, halike⟩
    cases hleads
    exact ⟨holding, hpoised, hfrontier, hrecalls, halike⟩

theorem replayBoth (h : Poised start intake world) (hcalm : host.IsCalm)
    (hapart : host.catalogue.KeepsApart stem)
    (hreads : ∀ index ∈ host.catalogue, index.ReadsUnder (stem index))
    (henters : host.catalogue.Enters table blocks)
    (halike : Table.Alike Frontier.Foreign start.table table) (hrecalls : origin.Recalls start)
    (hlevel : start.frontier = .level base) (hchain : Chained base blocks top)
    (hgives : ∀ block ∈ blocks, host.Gives block) :
    (Switching.replayBoth host (blocks.map Block.hash)).Yields world
      (fun _ after => ∃ holding middle ended, Poised holding intake after ∧
        holding.frontier = .level top ∧ origin.Recalls holding ∧
        host.catalogue.Leads .concurrent table blocks middle ∧
        host.catalogue.Leads .serial middle blocks ended ∧
        Table.Alike Frontier.Foreign holding.table ended)
      (fun _ _ => False) := by
  refine Switching.replayBoth_iff.mpr ((h.replayAlong hcalm .concurrent hapart hreads henters rfl
    halike hrecalls (by rw [hlevel]; exact hchain) hgives).imp ?_)
  intro _ risen hended
  rcases hended with ⟨first, middle, hfirst, hfrontier, hrecalls, hleads, halike⟩
  refine (hfirst.replayAlong hcalm .serial hapart hreads henters hleads halike hrecalls
    (by rw [hfrontier, hlevel]; exact hchain) hgives).imp ?_
  intro _ after hended
  rcases hended with ⟨last, ended, hlast, hfrontier', hrecalls, hleads', halike⟩
  refine ⟨last, middle, ended, hlast, ?_, hrecalls, hleads, hleads', halike⟩
  rw [hfrontier', hfrontier, hlevel]
  rfl

/-- One branch is taken off both tracks, the serial one first, and another one is put on. -/
theorem leaveFor {leaving : BlockHash}
    (h : Poised start intake
      (Switching.begun ⟨base.hash, leaving, blocks.map Block.hash⟩ world)) (hcalm : host.IsCalm)
    (hapart : host.catalogue.KeepsApart stem)
    (hreads : ∀ index ∈ host.catalogue, index.ReadsUnder (stem index))
    (hrestores : host.catalogue.Restores stem table old)
    (hupper : host.catalogue.Leads .concurrent table old upper)
    (hlower : host.catalogue.Leads .serial upper old lower)
    (henters : host.catalogue.Enters table blocks)
    (halike : Table.Alike Frontier.Foreign start.table lower) (hrecalls : origin.Recalls start)
    (hlevel : start.frontier = .level high) (hold : Chained base old high)
    (hchain : Chained base blocks top) (hgivesOld : ∀ block ∈ old, host.Gives block)
    (hgives : ∀ block ∈ blocks, host.Gives block)
    (hne : ∀ block ∈ old, block.hash ≠ base.hash) :
    (Switching.carryOut host ⟨base.hash, leaving, blocks.map Block.hash⟩).Yields world
      (fun _ after => ∃ holding middle ended, Poised holding intake after ∧
        holding.frontier = .level top ∧ origin.Recalls holding ∧
        host.catalogue.Leads .concurrent table blocks middle ∧
        host.catalogue.Leads .serial middle blocks ended ∧
        Table.Alike Frontier.Foreign holding.table ended)
      (fun _ _ => False) := by
  refine Switching.carryOut_of_parts ((h.rewindAlong hcalm .serial hapart hreads hrestores hupper
    hlower halike hrecalls (by rw [hlevel]; exact hold) hgivesOld hne).imp ?_)
  intro _ half hended
  rcases hended with ⟨first, hfirst, hfrontier, hrecalls, halike⟩
  refine (hfirst.rewindAlong hcalm .concurrent hapart hreads hrestores rfl hupper halike hrecalls
    (by rw [hfrontier, hlevel]; exact hold) hgivesOld hne).imp ?_
  intro _ back hended
  rcases hended with ⟨second, hsecond, hfrontier', hrecalls, halike⟩
  have hlevelBack : second.frontier = .level base := by
    rw [hfrontier', hfrontier, hlevel]
    rfl
  exact Switching.replayBoth_iff.mp
    (hsecond.replayBoth hcalm hapart hreads henters halike hrecalls hlevelBack hchain hgives)

end Poised

/-- Blocks that were put on both tracks and are left by a switch leave nothing behind: the
table is the one that the new branch alone leads to, and both tips are at its end. -/
theorem switch_erases_branch {host : Host σ} {world : World σ} {stem : Index → Bytes}
    {base high top : Pointer} {old new : List Block} (leaving : BlockHash) (hcalm : host.IsCalm)
    (hapart : host.catalogue.KeepsApart stem)
    (hreads : ∀ index ∈ host.catalogue, index.ReadsUnder (stem index))
    (hlevel : world.frontier = .level base) (hgoing : world.inbox.stopWanted = false)
    (hold : Chained base old high) (hnew : Chained base new top)
    (hgives : ∀ block ∈ old ++ new, host.Gives block)
    (hne : ∀ block ∈ old, block.hash ≠ base.hash)
    (holdEnters : host.catalogue.Enters world.table old)
    (holdRestores : host.catalogue.Restores stem world.table old)
    (hnewEnters : host.catalogue.Enters world.table new) :
    ∃ grown switched alone,
      (Switching.replayBoth host (old.map Block.hash)).perform world = (.ok (), grown) ∧
      (Switching.carryOut host ⟨base.hash, leaving, new.map Block.hash⟩).perform grown =
        (.ok (), switched) ∧
      (Switching.replayBoth host (new.map Block.hash)).perform world = (.ok (), alone) ∧
      grown.frontier = .level high ∧ switched.frontier = .level top ∧
      alone.frontier = .level top ∧
      (∀ genesis, Frontier.load (.clear world.table) genesis = .ok (.level base) →
        Frontier.load (.clear switched.table) genesis = .ok (.level top)) ∧
      ∀ key, (∀ track, key ≠ Frontier.key track) →
        switched.table.get? key = alone.table.get? key := by
  have hbegun : Poised world.holding world.intake world := ⟨rfl, rfl, hgoing⟩
  have hself : world.holding.Recalls world.holding := fun _ h => h
  have hrefl := Table.Alike.refl Frontier.Foreign world.table
  have hgivesOld : ∀ block ∈ old, host.Gives block := fun block hblock =>
    hgives block (List.mem_append_left _ hblock)
  have hgivesNew : ∀ block ∈ new, host.Gives block := fun block hblock =>
    hgives block (List.mem_append_right _ hblock)
  -- The new branch alone.
  rcases (hbegun.replayBoth hcalm hapart hreads hnewEnters hrefl hself hlevel hnew
    hgivesNew).exists_ok with
    ⟨_, alone, halone, plain, middle, ended, hplain, hplainLevel, _, hmiddle, hended, hplainAlike⟩
  -- The old branch.
  rcases (hbegun.replayBoth hcalm hapart hreads holdEnters hrefl hself hlevel hold
    hgivesOld).exists_ok with
    ⟨_, grown, hgrown, tall, upper, lower, htall, htallLevel, hrecalls, hupper, hlower, htallAlike⟩
  -- The switch, with an event in front unless the ancestor is what is being left.
  have hswitch {tall : Holding}
      (htold : Poised tall world.intake
        (Switching.begun ⟨base.hash, leaving, new.map Block.hash⟩ grown))
      (hlevelTall : tall.frontier = .level high)
      (halike : Table.Alike Frontier.Foreign tall.table lower)
      (hrecalls : world.holding.Recalls tall) :=
    htold.leaveFor hcalm hapart hreads holdRestores hupper hlower hnewEnters halike hrecalls
      hlevelTall hold hnew hgivesOld hgivesNew hne
  have hcarry : (Switching.carryOut host ⟨base.hash, leaving, new.map Block.hash⟩).Yields grown
      (fun _ after => ∃ holding middle ended, Poised holding world.intake after ∧
        holding.frontier = .level top ∧ world.holding.Recalls holding ∧
        host.catalogue.Leads .concurrent world.table new middle ∧
        host.catalogue.Leads .serial middle new ended ∧
        Table.Alike Frontier.Foreign holding.table ended)
      (fun _ _ => False) := by
    cases hforward : (Switch.mk base.hash leaving (new.map Block.hash)).isForward with
    | true =>
        refine hswitch ?_ htallLevel htallAlike hrecalls
        rw [Switching.begun_of_forward hforward]
        exact htall
    | false =>
        have htold : Poised (tall.tell (.switched base.hash)) world.intake
            (Switching.begun ⟨base.hash, leaving, new.map Block.hash⟩ grown) := by
          rw [Switching.begun_of_back hforward]
          exact htall.emit _
        exact hswitch htold htallLevel htallAlike hrecalls
  rcases hcarry.exists_ok with ⟨_, switched, hswitched, last, middle', ended', hlast, hlevelLast,
    hrecallsLast, hmiddle', hended', hlastAlike⟩
  rw [hmiddle'.unique hmiddle] at hended'
  rw [hended'.unique hended] at hlastAlike
  refine ⟨grown, switched, alone, hgrown, hswitched, halone, ?_, ?_, ?_, ?_, ?_⟩
  · rw [htall.frontier, htallLevel]
  · rw [hlast.frontier, hlevelLast]
  · rw [hplain.frontier, hplainLevel]
  · intro genesis hgenesis
    rw [hlast.table, ← hlevelLast]
    apply hrecallsLast genesis
    rw [show world.holding.frontier = .level base from hlevel]
    exact hgenesis
  · intro key hkey
    rw [hlast.table, hplain.table]
    exact (hlastAlike key hkey).trans (hplainAlike key hkey).symm

/-- Two blocks are left for the one beside the first of them. -/
theorem switch_erases_branch_of_sample :
    Sample.host.IsCalm ∧ Sample.catalogue.KeepsApart Index.standardStem ∧
    Sample.catalogue.Enters .empty [Sample.first, Sample.second] ∧
    Sample.catalogue.Restores Index.standardStem .empty [Sample.first, Sample.second] ∧
    Sample.catalogue.Enters .empty [Sample.beside] ∧
    ∃ grown switched alone,
      (Switching.replayBoth Sample.host ["a", "b"]).perform Sample.opened = (.ok (), grown) ∧
      (Switching.carryOut Sample.host ⟨"g", "b", ["x"]⟩).perform grown = (.ok (), switched) ∧
      (Switching.replayBoth Sample.host ["x"]).perform Sample.opened = (.ok (), alone) ∧
      grown.frontier = .level Sample.second.pointer ∧
      switched.frontier = .level Sample.beside.pointer ∧
      ∀ key, (∀ track, key ≠ Frontier.key track) →
        switched.table.get? key = alone.table.get? key := by
  have hcalm : Sample.host.IsCalm := Sample.restsAt.isCalm
  have hblank := Standing.Filled.blank Sample.tree
  have hold : Sample.tree.Climb Sample.genesis [Sample.first, Sample.second] Sample.second :=
    .up Sample.child_first (.up Sample.child_second (.stay _))
  have hnew : Sample.tree.Climb Sample.genesis [Sample.beside] Sample.beside :=
    .up (by decide) (.stay _)
  have holdEnters := Sample.standard.enters hblank rfl hold Sample.roomy_second
  have holdRestores := Sample.standard.restores hblank rfl hold
  have hnewEnters := Sample.standard.enters hblank rfl hnew Sample.roomy_beside
  have hgives : ∀ block ∈ [Sample.first, Sample.second] ++ [Sample.beside],
      Sample.host.Gives block := by
    have hmem : ∀ block ∈ [Sample.first, Sample.second] ++ [Sample.beside],
        block ∈ Sample.tree := by decide
    exact fun block hblock => (Sample.serves (hmem block hblock)).gives
  have hlevel : Sample.opened.frontier = .level Sample.genesis.pointer := rfl
  have holdChain : Chained Sample.genesis.pointer [Sample.first, Sample.second]
      Sample.second.pointer := .up (by decide) (.up (by decide) (.stay _))
  have hnewChain : Chained Sample.genesis.pointer [Sample.beside] Sample.beside.pointer :=
    .up (by decide) (.stay _)
  rcases switch_erases_branch "b" hcalm Catalogue.keepsApart_standard Catalogue.readsUnder_standard
    hlevel rfl holdChain hnewChain hgives (by decide) holdEnters holdRestores hnewEnters with
    ⟨grown, switched, alone, hgrown, hswitched, halone, hhigh, htop, _, _, hsame⟩
  exact ⟨hcalm, Catalogue.keepsApart_standard, holdEnters, holdRestores, hnewEnters, grown,
    switched, alone, hgrown, hswitched, halone, hhigh, htop, hsame⟩

end ChainIndex
