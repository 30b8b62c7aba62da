import ChainIndex.Proofs.AtRest
import ChainIndex.Proofs.Serving

/-!
# Convergence

With a chain at rest a sync takes at most two rounds, whatever state it begins in.  The
first round ends at the best block, or else at a block from which the second one switches
to the best block.  Nothing of the way there is left in the table: what it holds is what
an indexer would have written that began with an empty table.
-/

namespace ChainIndex

/-- Both tips are at the block, and the table holds the entries of the path to it. -/
structure World.IsAt (world : World σ) (tree : BlockTree) (best : Block) : Prop where
  frontier : world.frontier = .level best.pointer
  recorded : Frontier.load (.clear world.table) tree.genesis.pointer = .ok (.level best.pointer)
  entries : ∃ path, tree.Climb tree.genesis path best ∧
    world.table.Holds (Heights.entries path ++ Times.entries path)

/-- The blocks below the tips and below the best block. -/
def World.Spans (world : World σ) (tree : BlockTree) (best block : Block) : Prop :=
  (∃ tip ∈ tree, ∃ track, world.frontier.tip track = tip.pointer ∧ tree.Below block tip) ∨
    tree.Below block best

theorem World.IsAt.get?_eq {tree : BlockTree} {best : Block} {world : World σ} {other : World τ}
    (h : world.IsAt tree best) (h' : other.IsAt tree best) {key : Bytes}
    (hkey : ∀ track, key ≠ Frontier.key track) : world.table.get? key = other.table.get? key := by
  rcases h.entries with ⟨path, hpath, hholds⟩
  rcases h'.entries with ⟨path', hpath', hholds'⟩
  rw [hpath'.unique hpath] at hholds'
  apply Option.ext
  intro value
  rw [hholds key hkey value, hholds' key hkey value]

section

variable {terms : Terms} {goal : Block} {standing : Standing} {intake : Intake}
variable {world : World σ} {host : Host σ}

theorem Stands.isAt (h : Stands terms standing intake world)
    (hstandard : terms.catalogue.IsStandard) {best : Block}
    (hconcurrent : standing.concurrent = best) (hserial : standing.serial = best) :
    world.IsAt terms.tree best := by
  rcases h.chronicle.filled hstandard with ⟨upper, lower, hfilled⟩
  have hupper := hfilled.toConcurrent
  have hlower := hfilled.toSerial
  have hholds := hfilled.holds
  rw [hconcurrent] at hupper
  rw [hserial] at hlower
  rw [hlower.unique hupper] at hholds
  constructor
  · rw [h.frontier, hconcurrent, hserial]
    rfl
  · rw [h.table, h.chronicle.load_clear hstandard.sparesTips, hconcurrent, hserial]
    rfl
  · refine ⟨upper, hupper, ?_⟩
    rw [h.table]
    exact hholds

/-!
# Two rounds
-/

theorem Forked.lastTurn {start : Block} (h : Forked terms start goal world)
    (hhost : host.Honours terms) (hfirm : terms.firm) (hgoal : terms.served goal) :
    (Following.syncTurn host true).Yields world
      (fun result after => result.Is (fun _ => False) (Finished terms terms.best · after))
      fun _ _ => False := by
  rcases h with ⟨standing, intake, hstands, hlevel, hwhere⟩
  rcases hwhere hfirm with ⟨_, _, hplace⟩
  have hserved : terms.served standing.concurrent := by
    rw [hlevel]
    rcases hplace with heq | ⟨_, hbelow⟩
    · exact heq ▸ hgoal
    · exact Terms.served_below hfirm hbelow (terms.best_served hfirm)
  have hstart : terms.tree.startFrom terms.best true standing.serial = terms.best := by
    unfold BlockTree.startFrom
    rw [if_neg (by simp)]
  have hheading : Heading terms (terms.tree.startFrom terms.best true standing.serial) terms.best
      (terms.tree.startFrom terms.best true standing.serial) world.hint? := by
    rw [hstart]
    exact .toBest (.refl _) fun hint _ hstrays => hstrays.not_best
  refine (hstands.syncTurn hhost true (fun _ => hserved) (fun _ => hheading)
    fun _ block => terms.eligible_below hfirm).mono ?_ fun _ _ hcut => hcut.1 hfirm
  intro result after hresult
  cases result with
  | done tip => exact hresult
  | again forkSeen =>
      -- There is nothing beyond the best block that the round could fork from.
      rcases hresult.2 with ⟨last, _, _, _, hforked⟩
      rcases hforked hfirm with ⟨habove, hne, hlast⟩
      rw [hstart] at habove
      rcases hlast with heq | ⟨_, hbelow⟩
      · exact hne heq
      · exact hne (hbelow.antisymm habove)

theorem Stands.twoTurns (h : Stands terms standing intake world) (hhost : host.Honours terms)
    (hfirm : terms.firm) (hserved : terms.served standing.concurrent)
    (hheading : Heading terms (terms.tree.startFrom terms.best false standing.serial) goal
      (terms.tree.startFrom terms.best false standing.serial) world.hint?)
    (heligible : ∀ block, terms.tree.Below block goal → terms.eligible block)
    (hgoal : terms.served goal) :
    (Act.turns (Following.syncTurn host) 2 false).Yields world (Finished terms terms.best)
      fun _ _ => False := by
  rw [Act.turns, Act.yields_bind]
  refine (h.syncTurn hhost false (fun _ => hserved) (fun _ => hheading)
    fun _ => heligible).mono ?_ fun _ _ hcut => hcut.1 hfirm
  intro result after hresult
  cases result with
  | done tip =>
      rcases hresult with ⟨last, kept, hlast, htip, hbest⟩
      refine ⟨last, kept, hlast, htip, fun _ => ?_⟩
      exact ⟨(hbest hfirm).1, (hbest hfirm).2.1, rfl⟩
  | again forkSeen =>
      rcases hresult with ⟨rfl, hforked⟩
      dsimp only
      rw [Act.turns, Act.yields_bind]
      refine (hforked.lastTurn hhost hfirm hgoal).imp ?_
      intro result last hlast
      cases result with
      | done tip => exact hlast
      | again _ => exact hlast.elim

end

/-!
# Syncing with a chain at rest
-/

structure Syncs (host : Host σ) (tree : BlockTree) (best : Block) (world after : World σ) :
    Prop where
  isAt : after.IsAt tree best
  sync : (Following.sync host).perform world = (.ok best.pointer, after)
  rounds {allowed : Nat} : 2 ≤ allowed →
    (Act.turns (Following.syncTurn host) allowed false).perform world = (.ok best.pointer, after)

section

variable {tree : BlockTree} {catalogue : Catalogue} {best : Block} {standing : Standing}
variable {intake : Intake} {world : World σ} {host : Host σ}

theorem Stands.firmly (h : Stands (.loose tree catalogue) standing intake world)
    (hgoing : world.inbox.stopWanted = false) (hrest : Terms.Rest tree catalogue best)
    {tip named more : Block} {hnamed : ∀ parent, tree.Child parent named → tree.Below parent best}
    {hmore : more = named ∨ more = best} :
    Stands (.atRest hrest tip named more hnamed hmore) standing intake world :=
  { h with going := fun _ => hgoing }

theorem Stands.spans (h : Stands (.loose tree catalogue) standing intake world) {block : Block}
    (hbelow : tree.Below block standing.concurrent) : world.Spans tree best block :=
  Or.inl ⟨_, h.tip_mem .concurrent, .concurrent, h.tip .concurrent, hbelow⟩

theorem Stands.serves (h : Stands (.loose tree catalogue) standing intake world)
    (hserves : ∀ block, world.Spans tree best block → host.Serves block) {more : Block}
    (hmore : host.Serves more) (block : Block)
    (hblock : tree.Reaches standing.concurrent best more block) : host.Serves block := by
  rcases hblock with hbelow | hbelow | rfl
  · exact hserves block (h.spans hbelow)
  · exact hserves block (Or.inr hbelow)
  · exact hmore

theorem BlockTree.Strays.of_start {serial hint : Block}
    (h : tree.Strays best (tree.startFrom best false serial) hint) :
    tree.Strays best serial hint := by
  unfold startFrom at h
  split at h
  · exact h
  · exact h.not_best.elim

theorem BlockTree.Strays.parent {start hint parent : Block} (h : tree.Strays best start hint)
    (hchild : tree.Child parent hint) : tree.Below parent best := by
  rcases h.fork with ⟨fork, hfork, _, hbelow, _⟩
  rw [hchild.unique hfork]
  exact hbelow

theorem Syncs.of_twoTurns {terms : Terms} (hfirm : terms.firm)
    (hstandard : terms.catalogue.IsStandard) (hpatience : Host.enough ≤ host.patience)
    (hturns : (Act.turns (Following.syncTurn host) 2 false).Yields world
      (Finished terms terms.best) fun _ _ => False) :
    ∃ after, Syncs host terms.tree terms.best world after := by
  rcases hturns.exists_ok with ⟨tip, after, hperform, last, kept, hlast, htip, hbest⟩
  rcases hbest hfirm with ⟨hconcurrent, hserial, _⟩
  rw [htip, hserial] at hperform
  have hrounds {allowed : Nat} (hallowed : 2 ≤ allowed) := Act.perform_turns_of_le hallowed hperform
  have hlong : 2 ≤ host.patience := Nat.le_trans (by decide) hpatience
  exact ⟨after, hlast.isAt hstandard hconcurrent hserial, hrounds hlong, hrounds⟩

theorem Stands.syncs (h : Stands (.loose tree catalogue) standing intake world)
    (hgoing : world.inbox.stopWanted = false) (hhost : host.RestsAt tree best)
    (hcatalogue : host.catalogue = catalogue) (hrest : Terms.Rest tree catalogue best)
    (hserves : ∀ block, world.Spans tree best block → host.Serves block)
    (hhint : ∀ hint, world.hint? = some hint → tree.Strays best standing.serial hint →
      host.Serves hint ∧ Times.Roomy tree hint) :
    ∃ after, Syncs host tree best world after := by
  by_cases hstray : ∃ hint, world.hint? = some hint ∧
      tree.Strays best (tree.startFrom best false standing.serial) hint
  · -- The first round follows the announced block off the best chain.
    rcases hstray with ⟨hint, hannounced, hstrays⟩
    rcases hhint hint hannounced hstrays.of_start with ⟨hserved, hroomy⟩
    have hreaches := h.serves hserves hserved
    have hnamed : ∀ parent, tree.Child parent hint → tree.Below parent best := fun _ =>
      hstrays.parent
    have hhonours : host.Honours
        (.atRest hrest standing.concurrent hint hint hnamed (Or.inl rfl)) :=
      hhost.honours hcatalogue hrest (fun block hblock => (hreaches block hblock).charts)
        fun block hblock => (hreaches block hblock).gives
    have hheading : Heading
        (.atRest hrest standing.concurrent hint hint hnamed (Or.inl rfl)) _ hint _ _ :=
      .toHint hstrays
    rw [← hannounced] at hheading
    exact Syncs.of_twoTurns trivial hrest.standard hhost.patience
      ((h.firmly hgoing hrest).twoTurns hhonours trivial (Or.inl (.refl _)) hheading
        (fun block => hroomy.below) (Or.inr (Or.inr rfl)))
  · -- The first round stays on the best chain.
    have hnamed : ∀ parent, tree.Child parent best → tree.Below parent best := fun _ =>
      .of_child
    have hreaches := h.serves hserves (hserves best (Or.inr (.refl best)))
    have hhonours : host.Honours
        (.atRest hrest standing.concurrent best best hnamed (Or.inl rfl)) :=
      hhost.honours hcatalogue hrest (fun block hblock => (hreaches block hblock).charts)
        fun block hblock => (hreaches block hblock).gives
    have hheading : Heading
        (.atRest hrest standing.concurrent best best hnamed (Or.inl rfl)) _ best _ world.hint? :=
      .toBest (tree.startFrom_below best false standing.serial) fun hint hannounced hstrays =>
        hstray ⟨hint, hannounced, hstrays⟩
    exact Syncs.of_twoTurns trivial hrest.standard hhost.patience
      ((h.firmly hgoing hrest).twoTurns hhonours trivial (Or.inl (.refl _)) hheading
        (fun block => hrest.roomy.below) (Or.inr (Or.inr rfl)))

end

/-- An indexer has been opened on an empty table. -/
def Host.Opens (host : Host σ) (settings : Settings) (opened : World σ) : Prop :=
  ∃ blank : World σ, blank.table = .empty ∧ (∀ entry ∈ blank.course, entry.IsQuiet) ∧
    (Following.start host settings).perform blank = (.ok (), opened)

theorem Host.Opens.syncs {tree : BlockTree} {best : Block} {host : Host σ} {settings : Settings}
    {opened : World σ} (h : host.Opens settings opened) (hhost : host.RestsAt tree best)
    (hroom : best.height.toNat + 1 < UInt64.size)
    (hstandard : host.catalogue.IsStandard) (hroomy : Times.Roomy tree best)
    (hserves : ∀ block, tree.Below block best → host.Serves block) :
    ∃ after, Syncs host tree best opened after := by
  rcases h with ⟨blank, htable, hquiet, hstart⟩
  have hsettled : Settled (.loose tree host.catalogue) (.blank tree) blank :=
    ⟨.of_quiet hquiet, rfl, htable⟩
  have hstarts := Following.start_yields host settings blank
  unfold Act.Yields at hstarts
  rw [hstart] at hstarts
  rcases hsettled.starts (hhost.agrees.honours rfl) hstandard.sparesTips hstarts with
    ⟨hstands, hinbox⟩
  have hgoing : opened.inbox.stopWanted = false := by
    rw [hinbox]
    rfl
  have hhint : opened.hint? = none := by
    unfold Follower.hint?
    rw [hinbox, hstands.memory]
    rfl
  refine hstands.syncs hgoing hhost rfl (hhost.rest hroom hstandard hroomy) ?_ ?_
  · intro block hneeds
    apply hserves
    rcases hneeds with ⟨tip, htip, track, hpointer, hbelow⟩ | hbelow
    · rw [hstands.tip track] at hpointer
      have hgenesis : (Standing.blank tree).tip track = tree.genesis := by
        cases track <;> rfl
      rw [hgenesis] at hpointer
      have hsame := BlockTree.eq_of_hash_eq tree.genesis_mem htip (congrArg Pointer.hash hpointer)
      rw [← hsame] at hbelow
      exact hbelow.trans (.genesis hhost.best_mem)
    · exact hbelow
  · intro hint hnone
    rw [hhint] at hnone
    cases hnone

/-- Whatever has happened before, once the chain is at rest a sync comes to its end in at
most two rounds, with both tips at the best block; and its table is then that of an indexer
which was opened on an empty table and knows of nothing but the best chain. -/
theorem sync_converges {tree : BlockTree} {catalogue : Catalogue} {best : Block}
    {world : World σ} {host : Host σ} (hstandard : catalogue.IsStandard)
    (h : Reached tree catalogue world) (hgoing : world.inbox.stopWanted = false)
    (hhost : host.RestsAt tree best) (hroom : best.height.toNat + 1 < UInt64.size)
    (hcatalogue : host.catalogue = catalogue)
    (hserves : ∀ block, world.Spans tree best block ∨ world.hint? = some block → host.Serves block)
    (hroomy : ∀ block, block = best ∨ world.hint? = some block → Times.Roomy tree block) :
    ∃ after, Syncs host tree best world after ∧
      ∀ (τ : Type) (source : Host τ) (settings : Settings) (opened : World τ),
        source.Opens settings opened → source.RestsAt tree best →
        source.catalogue.IsStandard → (∀ block, tree.Below block best → source.Serves block) →
        ∃ fresh, Syncs source tree best opened fresh ∧
          ∀ key, (∀ track, key ≠ Frontier.key track) →
            after.table.get? key = fresh.table.get? key := by
  rcases h.sound hstandard.sparesTips with ⟨standing, intake, hstands⟩
  have hbest := hroomy best (Or.inl rfl)
  rcases hstands.syncs hgoing hhost hcatalogue (hhost.rest hroom hstandard hbest)
    (fun block hspans => hserves block (Or.inl hspans))
    (fun hint hhint _ => ⟨hserves hint (Or.inr hhint), hroomy hint (Or.inr hhint)⟩)
    with ⟨after, hafter⟩
  refine ⟨after, hafter, ?_⟩
  intro τ source settings opened hopened hsource hcatalogue' hserves'
  rcases hopened.syncs hsource hroom hcatalogue' hbest hserves' with ⟨fresh, hfresh⟩
  exact ⟨fresh, hfresh, fun key => hafter.isAt.get?_eq hfresh.isAt⟩

theorem sync_converges_of_sample :
    Reached Sample.tree Sample.catalogue Sample.told ∧
    Sample.host.RestsAt Sample.tree Sample.second ∧
    Sample.second.height.toNat + 1 < UInt64.size ∧
    Sample.host.Opens .standard Sample.opened ∧
    ∃ after fresh, Syncs Sample.host Sample.tree Sample.second Sample.told after ∧
      Syncs Sample.host Sample.tree Sample.second Sample.opened fresh ∧
      ∀ key, (∀ track, key ≠ Frontier.key track) →
        after.table.get? key = fresh.table.get? key := by
  have hserves : ∀ block, Sample.told.Spans Sample.tree Sample.second block ∨
      Sample.told.hint? = some block → Sample.host.Serves block := by
    intro block hneeds
    rcases hneeds with (⟨tip, htip, _, _, hbelow⟩ | hbelow) | hhint
    · exact Sample.serves (hbelow.mem htip)
    · exact Sample.serves (hbelow.mem (by decide))
    · cases hhint
      exact Sample.serves (by decide)
  have hroomy : ∀ block, block = Sample.second ∨ Sample.told.hint? = some block →
      Times.Roomy Sample.tree block := by
    intro block hneeds
    rcases hneeds with rfl | hhint
    · exact Sample.roomy_second
    · cases hhint
      exact Sample.roomy_beside
  have hopens : Sample.host.Opens .standard Sample.opened :=
    ⟨Sample.blank, rfl, Sample.quiet, Sample.started⟩
  have hroom : Sample.second.height.toNat + 1 < UInt64.size := by decide
  rcases sync_converges Sample.standard Sample.reached_told rfl Sample.restsAt hroom rfl hserves
    hroomy with ⟨after, hafter, hfresh⟩
  rcases hfresh Unit Sample.host .standard Sample.opened hopens Sample.restsAt Sample.standard
    (fun block hbelow => Sample.serves (hbelow.mem (by decide))) with ⟨fresh, hsynced, hsame⟩
  exact ⟨Sample.reached_told, Sample.restsAt, hroom, hopens, after, fresh, hafter, hsynced, hsame⟩

end ChainIndex
