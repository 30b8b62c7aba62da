import ChainIndex.Proofs.Convergence

/-!
# Announced blocks

An announced block that comes next is taken in before anybody asks whether it is on the
best chain.  If it is not, both tracks have passed it by the time this is found, and the
way back leads through the host, which has to give the block and its header once more.
Every other announced block makes no difference to what a sync leaves behind.
-/

namespace ChainIndex

/-!
# Hosts that lack a block
-/

def Host.LacksHeader (host : Host σ) (block : Block) : Prop :=
  ∀ outside, ∃ what, (host.headerOf block.hash outside).answer = .error (.fault (.notFound what))

def Host.LacksBody (host : Host σ) (block : Block) : Prop :=
  ∀ outside, ∃ what,
    (host.blockAt (.byHash block.hash) outside).answer = .error (.fault (.notFound what))

/-- By its hash the block cannot be found, or its header cannot. -/
def Host.Lacks (host : Host σ) (block : Block) : Prop :=
  host.LacksHeader block ∨ host.LacksBody block

/-- What the host answers for the block's hash is the same at every call. -/
structure Host.IsSteady (host : Host σ) (block : Block) : Prop where
  header : host.Charts block ∨ host.LacksHeader block
  body : host.Gives block ∨ host.LacksBody block

theorem Host.IsSteady.serves {host : Host σ} {block : Block} (h : host.IsSteady block)
    (hlacks : ¬ host.Lacks block) : host.Serves block where
  gives := h.body.resolve_right fun hbody => hlacks (Or.inr hbody)
  charts := h.header.resolve_right fun hheader => hlacks (Or.inl hheader)

theorem Host.LacksHeader.tells {host : Host σ} {block : Block} (h : host.LacksHeader block)
    {answer : Except Halt Header} (htells : host.Tells block.hash answer) :
    ∃ what, answer = .error (.fault (.notFound what)) := by
  rcases htells with ⟨outside, rfl⟩
  exact h outside

theorem Host.LacksBody.finds {host : Host σ} {block : Block} (h : host.LacksBody block)
    {answer : Except Halt Block} (hfinds : host.Finds (.byHash block.hash) answer) :
    ∃ what, answer = .error (.fault (.notFound what)) := by
  rcases hfinds with ⟨outside, rfl⟩
  exact h outside

section

variable {terms : Terms} {standing : Standing} {intake : Intake} {world : World σ}
variable {host : Host σ} {block : Block}

theorem Stands.parentOf_lacking (h : Stands terms standing intake world)
    (hhost : host.Honours terms) (hlacks : host.LacksHeader block) :
    (Act.parentOf host block.hash).Yields world
      (fun found after => Stands terms standing intake after ∧ found = none)
      fun _ _ => False := by
  refine ((Asks.refl host world).parentOf block.hash).mono ?_ ?_
  · intro found after hended
    rcases hended with ⟨answer, hfound, hafter, htells⟩
    refine ⟨h.quietly hhost hafter (List.forall_mem_singleton.mpr trivial), ?_⟩
    rcases hlacks.tells htells with ⟨what, rfl⟩
    cases hfound
    rfl
  · intro cause after hhalted
    rcases hlacks.tells hhalted.2.2 with ⟨what, hwhat⟩
    cases hwhat
    exact hhalted.1 ⟨what, rfl⟩

/-!
# The search from a block whose header is lacking

The old walk ends where it began.  The new one goes down from the best block to the
genesis and never comes upon the place where the old one was.
-/

namespace Ancestry

structure Adrift (terms : Terms) (standing : Standing) (intake : Intake) (old : Block)
    (left : Nat) (walks : Walks) (world : World σ) : Prop where
  stands : Stands terms standing intake world
  oldAt : walks.oldAt = some old.hash ∨ walks.oldAt = none
  oldSeen : walks.oldSeen = [old.hash]
  newTrail : ∃ newLeft, Trail terms terms.best.hash walks.newAt walks.newSeen newLeft ∧
    walks.oldAt.toList.length + newLeft + walks.newAt.toList.length < left

namespace Adrift

variable {old : Block} {left : Nat} {walks : Walks}

theorem not_mem (h : Adrift terms standing intake old left walks world) (hfirm : terms.firm)
    (hold : old ∈ terms.tree) (hoff : ¬ terms.tree.Below old terms.best) :
    old.hash ∉ walks.newSeen := by
  intro hseen
  have hbest := terms.best_mem hfirm
  rcases h.newTrail with ⟨newLeft, htrail, _⟩
  rcases htrail.of_mem hbest with ⟨low, blocks, hclimb, hnewSeen, _⟩
  rw [hnewSeen] at hseen
  rcases List.mem_map.mp hseen with ⟨passed, hpassed, hhash⟩
  have hbelow := (hclimb.mem_iff.mp hpassed).2
  rw [BlockTree.eq_of_hash_eq (hbelow.mem hbest) hold hhash] at hbelow
  exact hoff hbelow

theorem meeting?_eq_none (h : Adrift terms standing intake old left walks world)
    (hfirm : terms.firm) (hold : old ∈ terms.tree)
    (hoff : ¬ terms.tree.Below old terms.best) : meeting? walks = none := by
  have hnot := h.not_mem hfirm hold hoff
  cases hmeeting : meeting? walks with
  | none => rfl
  | some hash =>
      exfalso
      rcases meeting?_eq_some hmeeting with ⟨hplace, hseen⟩ | ⟨hplace, hseen⟩
      · rw [h.oldSeen] at hseen
        have hhash := List.mem_singleton.mp hseen
        subst hhash
        rcases h.newTrail with ⟨newLeft, htrail, _⟩
        rcases htrail.of_mem (terms.best_mem hfirm) with ⟨low, blocks, _, hnewSeen, _, hlow⟩
        rw [hplace] at hlow
        rcases hlow with hsame | ⟨hnone, _⟩
        · apply hnot
          rw [hnewSeen, Option.some.inj hsame]
          exact List.mem_cons_self
        · cases hnone
      · rcases h.oldAt with hsome | hnone
        · rw [Option.some.inj (hplace.symm.trans hsome)] at hseen
          exact hnot hseen
        · cases hplace.symm.trans hnone

theorem turn (h : Adrift terms standing intake old (left + 1) walks world)
    (hhost : host.Honours terms) (hfirm : terms.firm) (hlacks : host.LacksHeader old)
    (hold : old ∈ terms.tree) (hoff : ¬ terms.tree.Below old terms.best) :
    (Ancestry.turn host old.hash terms.best.hash walks).Yields world
      (fun result after => result.Is (Adrift terms standing intake old left · after)
        fun _ => False)
      fun cause after => Stands terms standing intake after ∧
        cause = .fault (.noCommonAncestor old.hash terms.best.hash) := by
  rcases h.newTrail with ⟨newLeft, htrail, hleft⟩
  have hnone := h.meeting?_eq_none hfirm hold hoff
  have hdown : (descend host walks.oldAt).Yields world
      (fun found after => Stands terms standing intake after ∧ found = none)
      fun _ _ => False := by
    rcases h.oldAt with hsome | hend
    · rw [hsome]
      exact h.stands.parentOf_lacking hhost hlacks
    · rw [hend]
      exact ⟨h.stands, rfl⟩
  refine Ancestry.turn_of_parts ?_ (fun _ _ _ => ⟨h.stands, rfl⟩) fun _ hgoing => ?_
  · intro ancestor hmeeting
    cases hnone.symm.trans hmeeting
  · refine hdown.mono ?_ fun _ _ => False.elim
    intro found middle hended
    rcases hended with ⟨hmiddle, rfl⟩
    have holdSeen : (none : Option BlockHash).toList ++ walks.oldSeen = [old.hash] := h.oldSeen
    cases hplace : walks.newAt with
    | none =>
        -- The new walk has ended before, so the old one was still where it began.
        rw [hplace] at hleft htrail
        have hwas : walks.oldAt.toList.length = 1 := by
          rcases h.oldAt with hsome | hend
          · rw [hsome]
            rfl
          · exact absurd ⟨hend, hplace⟩ hgoing
        refine ⟨hmiddle, Or.inr rfl, holdSeen, newLeft, htrail, ?_⟩
        rw [hwas] at hleft
        simp at hleft ⊢
        omega
    | some hash =>
        rw [hplace] at hleft htrail
        refine (htrail.descend hmiddle hhost).mono ?_ fun _ _ hstuck => absurd hfirm hstuck.1
        intro found after hended
        rcases hended with ⟨hafter, less, hnext, hle, hlt, _⟩
        refine ⟨hafter, Or.inr rfl, holdSeen, less, hnext, ?_⟩
        cases found with
        | none =>
            simp at hleft ⊢
            omega
        | some parent =>
            have hlower := hlt (by simp)
            simp at hleft ⊢
            omega

end Adrift

end Ancestry

theorem Stands.find_lacking (h : Stands terms standing intake world) (hhost : host.Honours terms)
    (hfirm : terms.firm) {old : Block} (hlacks : host.LacksHeader old) (hold : old ∈ terms.tree)
    (hoff : ¬ terms.tree.Below old terms.best) :
    (Ancestry.find host old.hash terms.best.hash).Yields world (fun _ _ => False)
      fun cause after => Stands terms standing intake after ∧
        cause = .fault (.noCommonAncestor old.hash terms.best.hash) := by
  refine Act.yields_turns (Ancestry.Adrift terms standing intake old)
    (fun left walks world h => h.turn hhost hfirm hlacks hold hoff) ?_ ?_
  · intro walks world hadrift
    rcases hadrift.newTrail with ⟨_, _, hleft⟩
    exact absurd hleft (Nat.not_lt_zero _)
  · have hbest := terms.best_mem hfirm
    have hcharted := terms.served_charted hfirm (terms.best_served hfirm)
    refine ⟨h, Or.inl rfl, rfl, terms.best.height.toNat, .begin hbest fun _ => hcharted, ?_⟩
    have hpatience := hhost.patience hfirm
    have hheight := UInt64.toNat_lt terms.best.height
    unfold Host.enough at hpatience
    simp [Ancestry.begin]
    omega

/-!
# The round after a fork, at a block that is lacking
-/

def Stranded (terms : Terms) (block : Block) (cause : Halt) (world : World σ) : Prop :=
  (∃ standing intake, Stands terms standing intake world ∧ standing.concurrent = block ∧
    standing.serial = block) ∧
      (cause = .fault (.noCommonAncestor block.hash terms.best.hash) ∨
        ∃ what, cause = .fault (.notFound what))

theorem Stands.stranded (h : Stands terms standing intake world)
    (hlevel : standing.concurrent = standing.serial) {cause : Halt}
    (hcause : cause = .fault (.noCommonAncestor standing.serial.hash terms.best.hash) ∨
      ∃ what, cause = .fault (.notFound what)) :
    Stranded terms standing.serial cause world :=
  ⟨⟨standing, intake, h, hlevel, rfl⟩, hcause⟩

theorem Stands.plan_lacking (h : Stands terms standing intake world) (hhost : host.Honours terms)
    (hfirm : terms.firm) (hlevel : standing.concurrent = standing.serial)
    (hoff : ¬ terms.tree.Below standing.serial terms.best)
    (hlacks : host.LacksHeader standing.serial) :
    (Switching.plan host true).Yields world (fun _ _ => False)
      (Stranded terms standing.serial) := by
  have hmem := h.chronicle.serial_mem
  have hne : terms.best.hash ≠ standing.serial.hash := by
    intro hsame
    have heq := BlockTree.eq_of_hash_eq (terms.best_mem hfirm) hmem hsame
    exact hoff (heq ▸ .refl _)
  refine Switching.plan_of_parts ((h.bestHash hhost).mono ?_ fun _ _ hstuck =>
    absurd hfirm hstuck.1)
  intro best asked hended
  rcases hended with ⟨hasked, hbest⟩
  rw [hbest hfirm, h.frontier]
  refine ⟨fun hsame => absurd hsame hne, fun _ _ => ?_, fun _ hfork => ?_⟩
  · refine (hasked.find_lacking hhost hfirm hlacks hmem hoff).mono (fun _ _ => False.elim) ?_
    intro cause after hhalted
    exact hhalted.1.stranded hlevel (Or.inl hhalted.2)
  · cases hfork

theorem Stands.rewind_lacking (h : Stands terms standing intake world) (hhost : host.Honours terms)
    (hfirm : terms.firm) (hlevel : standing.concurrent = standing.serial) {base : Block}
    (hbelow : terms.tree.Below base standing.serial) (hne : base ≠ standing.serial)
    (hlacks : host.LacksBody standing.serial) :
    (Switching.rewind host .serial base.hash).Yields world (fun _ _ => False)
      (Stranded terms standing.serial) := by
  have hmem := h.chronicle.serial_mem
  have hhash : standing.serial.hash ≠ base.hash := by
    intro hsame
    exact hne (BlockTree.eq_of_hash_eq hmem (hbelow.mem hmem) hsame).symm
  have hheight : standing.serial.height ≠ 0 := by
    intro hzero
    apply hne
    apply hbelow.eq_of_height_le
    rw [hzero]
    exact Nat.zero_le _
  refine Act.yields_turns
    (fun left _ world => left ≠ 0 ∧ Stands terms standing intake world) ?_ ?_ ⟨?_, h⟩
  · intro left undone world hkept
    rcases hkept with ⟨_, hstands⟩
    have htip := hstands.tip .serial
    refine (Switching.rewindTurn_yields host .serial base.hash undone world).mono ?_ ?_
    · intro result after hstep
      cases hstep with
      | arrived hat =>
          rw [htip] at hat
          exact absurd hat hhash
      | undone _ _ _ hfinds _ =>
          rw [htip] at hfinds
          rcases hlacks.finds hfinds with ⟨what, hwhat⟩
          cases hwhat
    · intro cause after hhalt
      cases hhalt with
      | bottom _ hzero =>
          rw [htip] at hzero
          exact absurd hzero hheight
      | stopped _ _ hwanted =>
          rw [hstands.going hfirm] at hwanted
          cases hwanted
      | lost _ _ _ hfinds hasks =>
          rw [htip] at hfinds
          rcases hlacks.finds hfinds with ⟨what, hwhat⟩
          cases hwhat
          have hafter := hstands.quietly hhost hasks (List.forall_mem_singleton.mpr trivial)
          exact hafter.stranded hlevel (Or.inr ⟨what, rfl⟩)
      | hindered _ _ _ hfinds _ _ =>
          rw [htip] at hfinds
          rcases hlacks.finds hfinds with ⟨what, hwhat⟩
          cases hwhat
  · intro undone world hleft
    exact absurd rfl hleft.1
  · intro hzero
    have hpatience := hhost.patience hfirm
    rw [hzero] at hpatience
    exact absurd hpatience (by decide)

theorem Stands.carryOut_lacking (h : Stands terms standing intake world)
    (hhost : host.Honours terms) (hfirm : terms.firm)
    (hlevel : standing.concurrent = standing.serial) {switch : Switch} {high base : Block}
    {blocks : List Block} (hjoins : switch.Joins terms.tree standing.serial high base blocks)
    (hoff : ¬ terms.tree.Below standing.serial high) (hlacks : host.LacksBody standing.serial) :
    (Switching.carryOut host switch).Yields world (fun _ _ => False)
      (Stranded terms standing.serial) := by
  have hne : base ≠ standing.serial := by
    intro heq
    exact hoff (heq ▸ hjoins.climb.isBelow)
  refine Switching.carryOut_of_parts ?_
  rw [hjoins.ancestor]
  exact ((h.begun switch).rewind_lacking hhost hfirm hlevel hjoins.below hne hlacks).imp
    fun _ _ hnever => hnever.elim

theorem Stands.switchIfNeeded_lacking (h : Stands terms standing intake world)
    (hhost : host.Honours terms) (hfirm : terms.firm)
    (hlevel : standing.concurrent = standing.serial)
    (hoff : ¬ terms.tree.Below standing.serial terms.best)
    (hlacks : host.LacksHeader standing.serial ∨
      (host.LacksBody standing.serial ∧ terms.charted standing.serial)) :
    (Following.switchIfNeeded host true).Yields world (fun _ _ => False)
      (Stranded terms standing.serial) := by
  refine Following.switchIfNeeded_of_parts ?_
  rcases hlacks with hheader | ⟨hbody, hcharted⟩
  · exact (h.plan_lacking hhost hfirm hlevel hoff hheader).imp fun _ _ hnever => hnever.elim
  · refine (h.plan hhost true fun _ => hcharted).mono ?_ fun _ _ hstuck => absurd hfirm hstuck.1
    intro found planned hended
    rcases hended with ⟨hplanned, hfound⟩
    cases found with
    | none => exact absurd (hfound hfirm).1 hoff
    | some switch =>
        rcases hfound with ⟨_, high, _, hbest, base, blocks, hjoins⟩
        have hoffHigh : ¬ terms.tree.Below standing.serial high := by
          rw [hbest hfirm]
          exact hoff
        exact (hplanned.setOut switch).carryOut_lacking hhost hfirm hlevel hjoins hoffHigh hbody

theorem Stands.cycle_lacking (h : Stands terms standing intake world)
    (hhost : host.Honours terms) (hfirm : terms.firm)
    (hlevel : standing.concurrent = standing.serial)
    (hoff : ¬ terms.tree.Below standing.serial terms.best)
    (hlacks : host.LacksHeader standing.serial ∨
      (host.LacksBody standing.serial ∧ terms.charted standing.serial)) :
    (Following.cycle host true).Yields world (fun _ _ => False)
      (Stranded terms standing.serial) := by
  have hbegun := h.enter (if world.frontier.isLevel then .syncing else .reorging)
  have hsame : world.frontier.concurrent = world.frontier.serial := by
    rw [h.frontier]
    exact congrArg Block.pointer hlevel
  refine Following.cycle_of_parts (Switching.align_of_level hsame ?_)
  exact (hbegun.switchIfNeeded_lacking hhost hfirm hlevel hoff hlacks).imp fun _ _ hnever =>
    hnever.elim

theorem Stands.syncTurn_lacking (h : Stands terms standing intake world)
    (hhost : host.Honours terms) (hfirm : terms.firm)
    (hlevel : standing.concurrent = standing.serial)
    (hoff : ¬ terms.tree.Below standing.serial terms.best)
    (hlacks : host.LacksHeader standing.serial ∨
      (host.LacksBody standing.serial ∧ terms.charted standing.serial)) :
    (Following.syncTurn host true).Yields world (fun _ _ => False)
      (Stranded terms standing.serial) := by
  refine Following.syncTurn_of_cycle ?_ fun _ => ?_
  · intro hwanted
    rw [h.going hfirm] at hwanted
    cases hwanted
  · refine (h.drained.cycle_lacking hhost hfirm hlevel hoff hlacks).mono
      (fun _ _ => False.elim) ?_
    intro cause after hhalted
    refine ⟨fun hstop => ?_, fun _ => hhalted⟩
    rcases hstop with ⟨_, reason, rfl⟩
    rcases hhalted.2 with hsame | ⟨what, hsame⟩
    · cases hsame
    · cases hsame

/-- A sync that is led off the best chain to a block that is lacking does not come back. -/
theorem Stands.strand (h : Stands terms standing intake world) (hhost : host.Honours terms)
    (hfirm : terms.firm) (hserved : terms.served standing.concurrent) {hint : Block}
    (hhint : world.hint? = some hint)
    (hstrays : terms.tree.Strays terms.best standing.serial hint)
    (heligible : ∀ block, terms.tree.Below block hint → terms.eligible block)
    (hlacks : host.LacksHeader hint ∨ (host.LacksBody hint ∧ terms.charted hint)) :
    (Following.sync host).Yields world (fun _ _ => False) (Stranded terms hint) := by
  have hstart : terms.tree.startFrom terms.best false standing.serial = standing.serial := by
    rcases hstrays.fork with ⟨parent, _, habove, hbelow, _⟩
    unfold BlockTree.startFrom
    rw [if_pos ⟨rfl, habove.trans hbelow⟩]
  have hheading : Heading terms (terms.tree.startFrom terms.best false standing.serial) hint
      (terms.tree.startFrom terms.best false standing.serial) world.hint? := by
    rw [hstart, hhint]
    exact .toHint hstrays
  have hlong : ∃ more, host.patience = more + 2 := by
    have hpatience := hhost.patience hfirm
    have hlong : 2 ≤ host.patience := Nat.le_trans (by decide) hpatience
    exact ⟨host.patience - 2, (Nat.sub_add_cancel hlong).symm⟩
  rcases hlong with ⟨more, hlong⟩
  rw [Following.sync, Act.loop, hlong, Act.turns, Act.yields_bind]
  refine (h.syncTurn hhost false (fun _ => hserved) (fun _ => hheading)
    fun _ => heligible).mono ?_ fun _ _ hcut => absurd hfirm hcut.1
  intro result after hresult
  cases result with
  | done tip =>
      rcases hresult with ⟨_, _, _, _, hbest⟩
      exact hstrays.ne_best (hbest hfirm).2.2
  | again forkSeen =>
      rcases hresult with ⟨rfl, last, kept, hlast, hlevel, hforked⟩
      rcases (hforked hfirm).2.2 with heq | ⟨heq, _⟩
      · subst heq
        show (Act.turns (Following.syncTurn host) (more + 1) true).Yields after _ _
        rw [Act.turns]
        exact (hlast.syncTurn_lacking hhost hfirm hlevel hstrays.off hlacks).bind_halted
      · exact absurd heq hstrays.ne_best

end

/-!
# With and without announcements
-/

def World.silenced (world : World σ) : World σ :=
  { world with
    intake := { world.intake with announced := none }
    inbox := { world.inbox with queue := [] } }

/-- The block announced last leads off the best chain above the serial tip, short of the
best block, and is lacking. -/
def World.Misled (world : World σ) (host : Host σ) (tree : BlockTree) (best : Block) : Prop :=
  ∃ serial ∈ tree, world.frontier.serial = serial.pointer ∧
    ∃ hint, world.hint? = some hint ∧ tree.Strays best serial hint ∧ host.Lacks hint

section

variable {tree : BlockTree} {catalogue : Catalogue} {best : Block} {standing : Standing}
variable {intake : Intake} {world : World σ} {host : Host σ}

theorem Stands.silenced {terms : Terms} (h : Stands terms standing intake world) :
    Stands terms standing { intake with announced := none } world.silenced := by
  refine { h with
    memory := ?_
    announced := ?_
    queued := ?_
    going := h.going }
  · rw [World.silenced, h.memory]
  · intro block hblock
    cases hblock
  · intro block hblock
    cases hblock

theorem World.hint?_silenced (world : World σ) : world.silenced.hint? = none :=
  rfl

structure Fails (host : Host σ) (tree : BlockTree) (best hint : Block) (world after : World σ) :
    Prop where
  isAt : after.IsAt tree hint
  sync : ∃ fault, (Following.sync host).perform world = (.error (.fault fault), after) ∧
    (fault = .noCommonAncestor hint.hash best.hash ∨ ∃ what, fault = .notFound what)

theorem Stranded.fails {terms : Terms} {hint : Block} {cause : Halt} {after : World σ}
    (h : Stranded terms hint cause after) (hstandard : terms.catalogue.IsStandard)
    (hsync : (Following.sync host).perform world = (.error cause, after)) :
    Fails host terms.tree terms.best hint world after := by
  rcases h with ⟨⟨standing, intake, hstands, hconcurrent, hserial⟩, hcause⟩
  constructor
  · exact hstands.isAt hstandard hconcurrent hserial
  · rcases hcause with rfl | ⟨what, rfl⟩
    · exact ⟨_, hsync, Or.inl rfl⟩
    · exact ⟨_, hsync, Or.inr ⟨what, rfl⟩⟩

theorem Stands.fails (h : Stands (.loose tree catalogue) standing intake world)
    (hgoing : world.inbox.stopWanted = false) (hhost : host.RestsAt tree best)
    (hcatalogue : host.catalogue = catalogue) (hrest : Terms.Rest tree catalogue best)
    (hserves : ∀ block, world.Spans tree best block → host.Serves block) {hint : Block}
    (hhint : world.hint? = some hint) (hstrays : tree.Strays best standing.serial hint)
    (hsteady : host.IsSteady hint) (hroomy : Times.Roomy tree hint) (hlacks : host.Lacks hint) :
    ∃ after, Fails host tree best hint world after := by
  have hreaches := h.serves hserves (hserves best (Or.inr (.refl best)))
  have hfails {terms : Terms} (hstandard : terms.catalogue.IsStandard)
      (hstrand : (Following.sync host).Yields world (fun _ _ => False) (Stranded terms hint)) :
      ∃ after, Fails host terms.tree terms.best hint world after := by
    rcases hstrand.exists_error with ⟨cause, after, hperform, hstranded⟩
    exact ⟨after, hstranded.fails hstandard hperform⟩
  rcases hsteady.header with hcharts | hheader
  · -- The header leads back to the best chain, but the block cannot be taken off.
    have hbody : host.LacksBody hint := by
      rcases hlacks with hheader | hbody
      · rcases hheader world.outside with ⟨what, hwhat⟩
        rw [hcharts world.outside] at hwhat
        cases hwhat
      · exact hbody
    have hnamed : ∀ parent, tree.Child parent hint → tree.Below parent best := fun _ =>
      hstrays.parent
    have hhonours : host.Honours
        (.atRest hrest standing.concurrent hint best hnamed (Or.inr rfl)) := by
      refine hhost.honours hcatalogue hrest ?_ fun block hblock => (hreaches block hblock).gives
      intro block hblock
      rcases hblock with hbelow | hbelow | rfl
      · exact (hreaches block (Or.inl hbelow)).charts
      · exact (hreaches block (Or.inr (Or.inl hbelow))).charts
      · exact hcharts
    exact hfails hrest.standard ((h.firmly hgoing hrest).strand hhonours trivial
      (Or.inl (.refl _)) hhint hstrays (fun block => hroomy.below)
      (Or.inr ⟨hbody, Or.inr (Or.inr rfl)⟩))
  · -- The search for a way back ends where it begins.
    have hnamed : ∀ parent, tree.Child parent best → tree.Below parent best := fun _ =>
      .of_child
    have hhonours : host.Honours
        (.atRest hrest standing.concurrent best best hnamed (Or.inr rfl)) :=
      hhost.honours hcatalogue hrest (fun block hblock => (hreaches block hblock).charts)
        fun block hblock => (hreaches block hblock).gives
    exact hfails hrest.standard ((h.firmly hgoing hrest).strand hhonours trivial
      (Or.inl (.refl _)) hhint hstrays (fun block => hroomy.below) (Or.inl hheader))

end

/-- An announced block makes no difference to what a sync with a chain at rest leaves
behind, unless it leads off the best chain above the serial tip and the host lacks it.
Then the sync fails with both tips at that block and its entries in the table. -/
theorem announcement_makes_no_difference_iff {tree : BlockTree} {catalogue : Catalogue}
    {best : Block} {world : World σ} {host : Host σ} (hstandard : catalogue.IsStandard)
    (h : Reached tree catalogue world) (hgoing : world.inbox.stopWanted = false)
    (hhost : host.RestsAt tree best) (hroom : best.height.toNat + 1 < UInt64.size)
    (hcatalogue : host.catalogue = catalogue)
    (hserves : ∀ block, world.Spans tree best block → host.Serves block)
    (hsteady : ∀ hint, world.hint? = some hint → host.IsSteady hint)
    (hroomy : ∀ block, block = best ∨ world.hint? = some block → Times.Roomy tree block) :
    ∃ silent, Syncs host tree best world.silenced silent ∧
      ((∃ after, Syncs host tree best world after ∧ ∀ key, (∀ track, key ≠ Frontier.key track) →
        after.table.get? key = silent.table.get? key) ↔ ¬ world.Misled host tree best) ∧
      (world.Misled host tree best →
        ∃ hint, world.hint? = some hint ∧ ∃ after, Fails host tree best hint world after) := by
  rcases h.sound hstandard.sparesTips with ⟨standing, intake, hstands⟩
  have hrest := hhost.rest hroom hstandard (hroomy best (Or.inl rfl))
  have hmisled : world.Misled host tree best →
      ∃ hint, world.hint? = some hint ∧ ∃ after, Fails host tree best hint world after := by
    intro hmis
    rcases hmis with ⟨serial, hserial, hpointer, hint, hhint, hstrays, hlacks⟩
    have hsame : serial = standing.serial := by
      apply BlockTree.eq_of_hash_eq hserial (hstands.tip_mem .serial)
      exact congrArg Pointer.hash (hpointer.symm.trans (hstands.tip .serial))
    rw [hsame] at hstrays
    exact ⟨hint, hhint, hstands.fails hgoing hhost hcatalogue hrest hserves hhint hstrays
      (hsteady hint hhint) (hroomy hint (Or.inr hhint)) hlacks⟩
  have hsilenced : ∀ hint, world.silenced.hint? = some hint →
      tree.Strays best standing.serial hint → host.Serves hint ∧ Times.Roomy tree hint := by
    intro hint hhint
    rw [world.hint?_silenced] at hhint
    cases hhint
  rcases hstands.silenced.syncs hgoing hhost hcatalogue hrest hserves hsilenced
    with ⟨silent, hsilent⟩
  refine ⟨silent, hsilent, ?_, hmisled⟩
  constructor
  · intro hsynced hmis
    rcases hsynced with ⟨after, hafter, _⟩
    rcases hmisled hmis with ⟨hint, _, failed, hfailed⟩
    rcases hfailed.sync with ⟨fault, hsync, _⟩
    cases hafter.sync.symm.trans hsync
  · intro hnot
    have hhint : ∀ hint, world.hint? = some hint → tree.Strays best standing.serial hint →
        host.Serves hint ∧ Times.Roomy tree hint := by
      intro hint hhint hstrays
      have hpointer := hstands.tip .serial
      have hlacks : ¬ host.Lacks hint := fun hlacks =>
        hnot ⟨_, hstands.tip_mem .serial, hpointer, hint, hhint, hstrays, hlacks⟩
      exact ⟨(hsteady hint hhint).serves hlacks, hroomy hint (Or.inr hhint)⟩
    rcases hstands.syncs hgoing hhost hcatalogue hrest hserves hhint with ⟨after, hafter⟩
    exact ⟨after, hafter, fun key => hafter.isAt.get?_eq hsilent.isAt⟩

/-!
The sample chain forgets the block beside the best chain after it has been announced.
-/

namespace Sample

def pruned : Chain :=
  chain.forget beside.hash

theorem mem_of_below_second {block : Block} (h : tree.Below block second) :
    block ∈ pruned.blocks :=
  climb_second.mem_iff.mpr ⟨.genesis (h.mem (by decide)), h⟩

theorem find?_of_mem_pruned : ∀ block ∈ pruned.blocks, pruned.find? block.hash = some block := by
  decide

theorem pruned_within : pruned.Within tree second where
  find? := by
    intro hash block h
    have hblocks : chain.blocks = pruned.blocks ++ [beside] := by decide
    show chain.find? hash = some block
    unfold Chain.find? at h ⊢
    rw [hblocks, List.find?_append, h]
    rfl
  best := ⟨[first, second], climb_second, rfl⟩

theorem pruned_restsAt : (pruned.host catalogue).RestsAt tree second :=
  pruned_within.restsAt (fun block hbelow => find?_of_mem_pruned block (mem_of_below_second hbelow))
    catalogue

theorem pruned_lacksHeader : (pruned.host catalogue).LacksHeader beside :=
  fun _ => ⟨_, rfl⟩

theorem pruned_lacksBody : (pruned.host catalogue).LacksBody beside :=
  fun _ => ⟨_, rfl⟩

theorem strays_beside : tree.Strays second genesis beside where
  off := by
    intro hbelow
    exact absurd (mem_of_below_second hbelow) (by decide)
  fork := ⟨genesis, by decide, .refl _, .genesis (by decide), by decide⟩

theorem misled : told.Misled (pruned.host catalogue) tree second :=
  ⟨genesis, by decide, rfl, beside, rfl, strays_beside, Or.inl pruned_lacksHeader⟩

end Sample

theorem announcement_makes_no_difference_iff_of_sample :
    Reached Sample.tree Sample.catalogue Sample.told ∧
    (Sample.pruned.host Sample.catalogue).RestsAt Sample.tree Sample.second ∧
    Sample.second.height.toNat + 1 < UInt64.size ∧
    (∃ silent, Syncs (Sample.pruned.host Sample.catalogue) Sample.tree Sample.second
      Sample.told.silenced silent) ∧
    ∃ after, Fails (Sample.pruned.host Sample.catalogue) Sample.tree Sample.second
      Sample.beside Sample.told after := by
  have hserves : ∀ block, Sample.told.Spans Sample.tree Sample.second block →
      (Sample.pruned.host Sample.catalogue).Serves block := by
    intro block hspans
    have hbelow : Sample.tree.Below block Sample.second := by
      rcases hspans with ⟨tip, htip, track, hpointer, hbelow⟩ | hbelow
      · have hgenesis : Sample.genesis.pointer = tip.pointer := by
          rw [← hpointer]
          cases track <;> rfl
        have hsame := BlockTree.eq_of_hash_eq Sample.tree.genesis_mem htip
          (congrArg Pointer.hash hgenesis)
        rw [← hsame] at hbelow
        exact hbelow.trans (.genesis (by decide))
      · exact hbelow
    exact Chain.serves (Sample.find?_of_mem_pruned block (Sample.mem_of_below_second hbelow)) _
  have hsteady : ∀ hint, Sample.told.hint? = some hint →
      (Sample.pruned.host Sample.catalogue).IsSteady hint := by
    intro hint hhint
    cases hhint
    exact ⟨Or.inr Sample.pruned_lacksHeader, Or.inr Sample.pruned_lacksBody⟩
  have hroomy : ∀ block, block = Sample.second ∨ Sample.told.hint? = some block →
      Times.Roomy Sample.tree block := by
    intro block hblock
    rcases hblock with rfl | hhint
    · exact Sample.roomy_second
    · cases hhint
      exact Sample.roomy_beside
  have hroom : Sample.second.height.toNat + 1 < UInt64.size := by decide
  rcases announcement_makes_no_difference_iff Sample.standard Sample.reached_told rfl
    Sample.pruned_restsAt hroom rfl hserves hsteady hroomy with ⟨silent, hsilent, _, hfails⟩
  rcases hfails Sample.misled with ⟨hint, hhint, hfailed⟩
  cases hhint
  exact ⟨Sample.reached_told, Sample.pruned_restsAt, hroom, ⟨silent, hsilent⟩, hfailed⟩

end ChainIndex
