import ChainIndex.Proofs.CommonAncestor

/-!
# Switching branches on terms

Taking blocks off a track and putting blocks on it are loops of single moves, and
wherever such a loop is cut short the track stands at a block that it was to come
by.  So the concurrent track is never below the serial one, and aligning it only
takes blocks off.
-/

namespace ChainIndex

/-!
# Shifts of one track
-/

/-- One track has been moved in one direction, by any number of moves. -/
structure Standing.Shifts (track : Track) (direction : Direction) (before after : Standing) :
    Prop where
  other : ∀ other, other ≠ track → after.tip other = before.tip other
  moves : ∃ made : List Move, after.moves = made ++ before.moves ∧
    ∀ move ∈ made, move.track = track ∧ move.direction = direction

namespace Standing.Shifts

variable {track : Track} {direction : Direction} {before middle after : Standing}

theorem refl (track : Track) (direction : Direction) (standing : Standing) :
    Shifts track direction standing standing := by
  constructor
  · intro other _
    rfl
  · exact ⟨[], rfl, by simp⟩

theorem step (h : Shifts track direction before middle) {move : Move} (edits : List Edit)
    (htrack : move.track = track) (hdirection : move.direction = direction) :
    Shifts track direction before (middle.after move edits) := by
  rcases h with ⟨hother, made, hmoves, hmade⟩
  constructor
  · intro other hne
    rw [tip_after_other middle edits (by rw [htrack]; exact hne.symm)]
    exact hother other hne
  · refine ⟨move :: made, congrArg (move :: ·) hmoves, ?_⟩
    intro m hm
    rcases List.mem_cons.mp hm with rfl | hm
    · exact ⟨htrack, hdirection⟩
    · exact hmade m hm

theorem trans (h : Shifts track direction before middle)
    (h' : Shifts track direction middle after) : Shifts track direction before after := by
  rcases h with ⟨hother, made, hmoves, hmade⟩
  rcases h' with ⟨hother', made', hmoves', hmade'⟩
  constructor
  · intro other hne
    rw [hother' other hne, hother other hne]
  · refine ⟨made' ++ made, by rw [hmoves', hmoves, List.append_assoc], ?_⟩
    intro move hmove
    rcases List.mem_append.mp hmove with hmove | hmove
    · exact hmade' move hmove
    · exact hmade move hmove

end Standing.Shifts

namespace Track

def off (block low : Block) : Track → Move
  | .concurrent => .shrink block low
  | .serial => .fall block low

def onto (block : Block) : Track → Move
  | .concurrent => .grow [block] block
  | .serial => .rise block

variable (track : Track) (block low : Block)

theorem track_off : (off block low track).track = track := by
  cases track <;> rfl

theorem direction_off : (off block low track).direction = .undo := by
  cases track <;> rfl

theorem blocks_off : (off block low track).blocks = [block] := by
  cases track <;> rfl

theorem target_off : (off block low track).target = low := by
  cases track <;> rfl

theorem track_onto : (onto block track).track = track := by
  cases track <;> rfl

theorem direction_onto : (onto block track).direction = .apply := by
  cases track <;> rfl

theorem blocks_onto : (onto block track).blocks = [block] := by
  cases track <;> rfl

theorem target_onto : (onto block track).target = block := by
  cases track <;> rfl

theorem tip_after_off (standing : Standing) (edits : List Edit) :
    (standing.after (off block low track) edits).tip track = low := by
  have htip := standing.tip_after_same (off block low track) edits
  rw [track_off, target_off] at htip
  exact htip

theorem tip_after_onto (standing : Standing) (edits : List Edit) :
    (standing.after (onto block track) edits).tip track = block := by
  have htip := standing.tip_after_same (onto block track) edits
  rw [track_onto, target_onto] at htip
  exact htip

end Track

def Halted (terms : Terms) (track : Track) (direction : Direction) (before : Standing)
    (intake : Intake) (_ : Halt) (world : World σ) : Prop :=
  ¬ terms.firm ∧ ∃ standing, Stands terms standing intake world ∧
    before.Shifts track direction standing

section

variable {terms : Terms} {standing : Standing} {intake : Intake} {world after : World σ}
variable {host : Host σ} {track : Track} {asked : List Entry}

theorem Stands.takenOff (h : Stands terms standing intake world) (hhost : host.Honours terms)
    {low : Block} (hchild : terms.tree.Child low (standing.tip track))
    (hserial : track = .concurrent → terms.tree.Below standing.serial low)
    (hasked : ∀ entry ∈ asked, entry.IsQuiet)
    (hstepped : Stepped host asked track (standing.tip track) .undo world after) :
    ∃ edits,
      Stands terms (standing.after (track.off (standing.tip track) low) edits) intake after := by
  have hlawful : (track.off (standing.tip track) low).IsLawful terms.tree standing := by
    cases track with
    | concurrent => exact ⟨rfl, hchild, hserial rfl⟩
    | serial => exact ⟨rfl, hchild⟩
  refine h.stepped hhost (track.blocks_off _ _) hlawful hasked ?_
  rw [track.track_off, track.direction_off]
  exact hstepped

theorem Stands.placedOn (h : Stands terms standing intake world) (hhost : host.Honours terms)
    {block : Block} (hchild : terms.tree.Child (standing.tip track) block)
    (hpassed : track = .serial → terms.tree.Below block standing.concurrent)
    (hasked : ∀ entry ∈ asked, entry.IsQuiet)
    (hstepped : Stepped host asked track block .apply world after) :
    ∃ edits, Stands terms (standing.after (track.onto block) edits) intake after := by
  have hlawful : (track.onto block).IsLawful terms.tree standing := by
    cases track with
    | concurrent => exact BlockTree.Climb.up hchild (.stay block)
    | serial => exact ⟨hchild, hpassed rfl⟩
  refine h.stepped hhost (track.blocks_onto _) hlawful hasked ?_
  rw [track.track_onto, track.direction_onto]
  exact hstepped

theorem Standing.concerns_tip {tree : BlockTree} {low : Block}
    (hchild : tree.Child low (standing.tip track)) :
    standing.Concerns tree (standing.tip track) track .undo := by
  cases track with
  | concurrent => exact ⟨rfl, hchild.ne_genesis⟩
  | serial => exact ⟨rfl, hchild.ne_genesis⟩

theorem Standing.concerns_child {tree : BlockTree} {block : Block}
    (hchild : tree.Child (standing.tip track) block)
    (hpassed : track = .serial → tree.Below block standing.concurrent) :
    standing.Concerns tree block track .apply := by
  cases track with
  | concurrent => exact hchild.2.1
  | serial => exact ⟨hchild, hpassed rfl⟩

theorem Halted.cut {direction : Direction} {cause : Halt}
    (h : Halted terms track direction standing intake cause world) : Cut terms cause world := by
  rcases h with ⟨hloose, after, hafter, _⟩
  exact ⟨hloose, after, intake, hafter⟩

theorem Stuck.halted {direction : Direction} {before : Standing} {cause : Halt}
    (h : Stuck terms standing intake cause world)
    (hshifts : before.Shifts track direction standing) :
    Halted terms track direction before intake cause world :=
  ⟨h.1, standing, h.2, hshifts⟩

/-!
# Rewinding
-/

theorem Stands.rewindHalt (h : Stands terms standing intake world) (hhost : host.Honours terms)
    {low base : Block} (hchild : terms.tree.Child low (standing.tip track))
    (hserved : terms.firm → terms.served (standing.tip track)) {cause : Halt}
    (hhalt : Switching.RewindHalt host track base.hash world cause after) :
    Stuck terms standing intake cause after := by
  have htip := h.tip track
  cases hhalt with
  | bottom _ hzero =>
      rw [htip] at hzero
      exact absurd hzero hchild.height_ne_zero
  | stopped _ _ hwanted =>
      refine ⟨fun hfirm => ?_, h⟩
      rw [h.going hfirm] at hwanted
      cases hwanted
  | lost _ _ _ hfinds hasks =>
      rw [htip] at hfinds
      exact ⟨fun hfirm => hhost.unserved hfinds hfirm (hserved hfirm),
        h.quietly hhost hasks (List.forall_mem_singleton.mpr trivial)⟩
  | hindered _ _ _ hfinds hasks hhinders =>
      rw [htip] at hfinds
      have hblock := (hhost.finds_hash hfinds).symm.trans (h.tip_mem track)
      cases hblock
      rcases h.hindered hhost (Standing.concerns_tip hchild) (by simp)
        hchild.destination_undo hhinders with ⟨hloose, hpermits⟩
      exact ⟨hloose, h.asks hhost hasks (List.forall_mem_append.mpr
        ⟨hpermits, List.forall_mem_singleton.mpr (.quiet trivial)⟩)⟩

structure Rewinding (terms : Terms) (track : Track) (base : Block) (before : Standing)
    (intake : Intake) (left : Nat) (standing : Standing) (world : World σ) : Prop where
  stands : Stands terms standing intake world
  shifts : before.Shifts track .undo standing
  above : terms.tree.Below base (standing.tip track)
  serial : track = .concurrent → terms.tree.Below standing.serial base
  served : terms.firm → terms.served (standing.tip track)
  turns : terms.firm → (standing.tip track).height.toNat - base.height.toNat < left

theorem Rewinding.down {base low : Block} {before : Standing} {left : Nat} {edits : List Edit}
    (h : Rewinding terms track base before intake (left + 1) standing world)
    (hlow : terms.tree.Below base low) (hchild : terms.tree.Child low (standing.tip track))
    (hafter : Stands terms (standing.after (track.off (standing.tip track) low) edits) intake
      after) :
    Rewinding terms track base before intake left
      (standing.after (track.off (standing.tip track) low) edits) after := by
  have htip := track.tip_after_off (standing.tip track) low standing edits
  refine ⟨hafter, h.shifts.step edits (track.track_off _ _) (track.direction_off _ _),
    ?_, ?_, ?_, ?_⟩
  · rw [htip]
    exact hlow
  · intro htrack
    subst htrack
    exact h.serial rfl
  · intro hfirm
    rw [htip]
    exact terms.served_down hfirm hchild (h.served hfirm)
  · intro hfirm
    have hturns := h.turns hfirm
    have hheight := hchild.height
    have hle := hlow.height_le
    rw [htip]
    omega

theorem Rewinding.turn {base : Block} {before : Standing} {left : Nat}
    (h : Rewinding terms track base before intake (left + 1) standing world)
    (hhost : host.Honours terms) (undone : Nat) :
    (Switching.rewindTurn host track base.hash undone).Yields world
      (fun result after => result.Is
        (fun _ => ∃ next, Rewinding terms track base before intake left next after)
        fun _ => ∃ last, Stands terms last intake after ∧ before.Shifts track .undo last ∧
          last.tip track = base)
      (Halted terms track .undo before intake) := by
  have hmem := h.stands.tip_mem track
  have hbase := h.above.mem hmem
  have htip := h.stands.tip track
  refine (Switching.rewindTurn_yields host track base.hash undone world).mono ?_ ?_
  · intro result after hstep
    cases hstep with
    | arrived hat =>
        rw [htip] at hat
        exact ⟨standing, h.stands, h.shifts, BlockTree.eq_of_hash_eq hmem hbase hat⟩
    | undone hne _ _ hfinds hstepped =>
        rw [htip] at hne hfinds
        rcases h.above.eq_or_down with heq | ⟨low, hlow, hchild⟩
        · exact absurd (congrArg Block.hash heq.symm) hne
        have hblock := (hhost.finds_hash hfinds).symm.trans hmem
        cases hblock
        rcases h.stands.takenOff hhost hchild (fun htrack => (h.serial htrack).trans hlow)
          (by simp [Entry.IsQuiet]) hstepped with ⟨edits, hafter⟩
        exact ⟨_, h.down hlow hchild hafter⟩
  · intro cause after hhalt
    have hne : (standing.tip track).hash ≠ base.hash := by
      rw [← show (world.frontier.tip track).hash = (standing.tip track).hash from
        congrArg Pointer.hash htip]
      exact hhalt.ne
    rcases h.above.eq_or_down with heq | ⟨low, hlow, hchild⟩
    · exact absurd (congrArg Block.hash heq.symm) hne
    exact (h.stands.rewindHalt hhost hchild h.served hhalt).halted h.shifts

theorem Stands.rewind (h : Stands terms standing intake world) (hhost : host.Honours terms)
    (track : Track) {base : Block} (habove : terms.tree.Below base (standing.tip track))
    (hserial : track = .concurrent → terms.tree.Below standing.serial base)
    (hserved : terms.firm → terms.served (standing.tip track)) :
    (Switching.rewind host track base.hash).Yields world
      (fun _ after => ∃ last, Stands terms last intake after ∧
        standing.Shifts track .undo last ∧ last.tip track = base)
      (Halted terms track .undo standing intake) := by
  refine Act.yields_turns
    (fun left _ world => ∃ next, Rewinding terms track base standing intake left next world)
    ?_ ?_ ⟨standing, h, .refl track .undo standing, habove, hserial, hserved, ?_⟩
  · intro left undone world hkept
    rcases hkept with ⟨next, hnext⟩
    exact hnext.turn hhost undone
  · intro undone world hkept
    rcases hkept with ⟨next, hnext⟩
    exact ⟨fun hfirm => absurd (hnext.turns hfirm) (Nat.not_lt_zero _), next, hnext.stands,
      hnext.shifts⟩
  · intro hfirm
    have hpatience := hhost.patience hfirm
    have hheight := UInt64.toNat_lt (standing.tip track).height
    unfold Host.enough at hpatience
    omega

/-!
# Replaying
-/

theorem toNat_heightAbove? {height next : UInt64} (h : heightAbove? height = some next) :
    next.toNat = height.toNat + 1 := by
  unfold heightAbove? at h
  split at h
  · rename_i hroom
    cases h
    rw [UInt64.toNat_add]
    exact Nat.mod_eq_of_lt hroom
  · cases h

theorem heightAbove?_ne_none {height : UInt64} (hroom : height.toNat + 1 < UInt64.size) :
    heightAbove? height ≠ none := by
  unfold heightAbove?
  rw [if_pos hroom]
  simp

theorem extends?_child {tree : BlockTree} {low block : Block} (h : tree.Child low block) :
    block.extends? low.pointer = some true := by
  have hheight := h.height
  have hsize := UInt64.toNat_lt_size block.height
  cases habove : heightAbove? low.height with
  | none => exact absurd habove (heightAbove?_ne_none (by omega))
  | some next =>
      have hsame : block.height = next := by
        apply UInt64.toNat_inj.mp
        rw [toNat_heightAbove? habove, hheight]
      rw [Block.extends?, show heightAbove? low.pointer.height = some next from habove,
        Option.map_some]
      simp [hsame, h.2.2, Block.pointer]

theorem Stands.replayOne (h : Stands terms standing intake world) (hhost : host.Honours terms)
    {block : Block} (hchild : terms.tree.Child (standing.tip track) block)
    (hpassed : track = .serial → terms.tree.Below block standing.concurrent)
    (hserved : terms.firm → terms.served block)
    (heligible : terms.firm → track = .serial → terms.eligible block) :
    (Switching.replayOne host track block.hash).Yields world
      (fun _ after => ∃ edits, Stands terms (standing.after (track.onto block) edits) intake after)
      (Stuck terms standing intake) := by
  refine (Switching.replayOne_yields host track block.hash world).mono ?_ ?_
  · intro _ after hstep
    cases hstep with
    | applied _ hfinds _ hstepped =>
        have hblock := (hhost.finds_hash hfinds).symm.trans hchild.2.1
        cases hblock
        exact h.placedOn hhost hchild hpassed (by simp [Entry.IsQuiet]) hstepped
  · intro cause after hhalt
    cases hhalt with
    | stopped hwanted =>
        refine ⟨fun hfirm => ?_, h⟩
        rw [h.going hfirm] at hwanted
        cases hwanted
    | lost _ hfinds hasks =>
        exact ⟨fun hfirm => hhost.unserved hfinds hfirm (hserved hfirm),
          h.quietly hhost hasks (List.forall_mem_singleton.mpr trivial)⟩
    | apart _ hfinds hextends _ =>
        have hblock := (hhost.finds_hash hfinds).symm.trans hchild.2.1
        cases hblock
        rw [h.tip track] at hextends
        exact absurd (extends?_child hchild) hextends
    | hindered _ hfinds _ hasks hhinders =>
        have hblock := (hhost.finds_hash hfinds).symm.trans hchild.2.1
        cases hblock
        rcases h.hindered hhost (Standing.concerns_child hchild hpassed)
          (fun hfirm htrack _ => heligible hfirm htrack) rfl hhinders with ⟨hloose, hpermits⟩
        exact ⟨hloose, h.asks hhost hasks (List.forall_mem_append.mpr
          ⟨hpermits, List.forall_mem_singleton.mpr (.quiet trivial)⟩)⟩

theorem Stands.replay (h : Stands terms standing intake world) (hhost : host.Honours terms)
    (track : Track) {blocks : List Block} {high : Block}
    (hclimb : terms.tree.Climb (standing.tip track) blocks high)
    (hpassed : track = .serial → terms.tree.Below high standing.concurrent)
    (hserved : terms.firm → ∀ block ∈ blocks, terms.served block)
    (heligible : terms.firm → track = .serial → ∀ block ∈ blocks, terms.eligible block) :
    (Switching.replay host track (blocks.map Block.hash)).Yields world
      (fun _ after => ∃ last, Stands terms last intake after ∧
        standing.Shifts track .apply last ∧ last.tip track = high)
      (Halted terms track .apply standing intake) := by
  induction blocks generalizing standing world with
  | nil => exact ⟨standing, h, .refl track .apply standing, hclimb.eq_nil⟩
  | cons block rest ih =>
      cases hclimb with
      | up hchild hrest =>
          rw [List.map_cons, Switching.replay, Act.yields_bind]
          refine (h.replayOne hhost hchild (fun htrack => hrest.isBelow.trans (hpassed htrack))
            (fun hfirm => hserved hfirm block List.mem_cons_self)
            (fun hfirm htrack => heligible hfirm htrack block List.mem_cons_self)).mono ?_
            fun cause after hstuck => hstuck.halted (.refl track .apply standing)
          intro _ middle hended
          rcases hended with ⟨edits, hmiddle⟩
          have htip := track.tip_after_onto block standing edits
          have hshifts := (Standing.Shifts.refl track .apply standing).step edits
            (track.track_onto block) (track.direction_onto block)
          have hothers : track = .serial →
              (standing.after (track.onto block) edits).concurrent = standing.concurrent := by
            intro htrack
            subst htrack
            exact hshifts.other .concurrent (by decide)
          rw [Act.yields_bind]
          refine (ih hmiddle (by rw [htip]; exact hrest) ?_ ?_ ?_).mono ?_ ?_
          · intro htrack
            rw [hothers htrack]
            exact hpassed htrack
          · intro hfirm b hb
            exact hserved hfirm b (List.mem_cons_of_mem _ hb)
          · intro hfirm htrack b hb
            exact heligible hfirm htrack b (List.mem_cons_of_mem _ hb)
          · intro _ after hended
            rcases hended with ⟨last, hlast, hmore, hhigh⟩
            exact ⟨last, hlast, hshifts.trans hmore, hhigh⟩
          · intro cause after hhalted
            rcases hhalted with ⟨hloose, last, hlast, hmore⟩
            exact ⟨hloose, last, hlast, hshifts.trans hmore⟩

/-!
# Aligning
-/

theorem Stands.pointers_eq_iff (h : Stands terms standing intake world) :
    standing.concurrent.pointer = standing.serial.pointer ↔
      standing.concurrent = standing.serial := by
  constructor
  · intro heq
    exact BlockTree.eq_of_hash_eq h.chronicle.order.1 h.chronicle.serial_mem
      (congrArg Pointer.hash heq)
  · intro heq
    rw [heq]

/-- Aligning takes the concurrent track down to the serial one and replays nothing. -/
theorem Stands.align (h : Stands terms standing intake world) (hhost : host.Honours terms)
    (hserved : terms.firm → terms.served standing.concurrent) :
    (Switching.align host).Yields world
      (fun found after => ∃ last, Stands terms last intake after ∧
        standing.Shifts .concurrent .undo last ∧ last.concurrent = last.serial ∧
          ∀ switch ∈ found, switch = ⟨standing.serial.hash, standing.concurrent.hash, []⟩)
      (Halted terms .concurrent .undo standing intake) := by
  have hmem := h.chronicle.order.1
  have hbelow := h.chronicle.order.2
  have hserial := h.chronicle.serial_mem
  have hcharted (hfirm : terms.firm) : terms.charted standing.concurrent :=
    terms.served_charted hfirm (hserved hfirm)
  refine Switching.align_of_parts ?_ fun _ => ?_
  · intro hlevel
    rw [h.frontier] at hlevel
    refine ⟨standing, h, .refl _ _ _, h.pointers_eq_iff.mp hlevel, ?_⟩
    intro switch hswitch
    cases hswitch
  · rw [h.frontier]
    refine (h.find hhost hmem hcharted fun hfirm => ⟨standing.serial, hserial, rfl,
      Terms.charted_below hfirm hbelow (hcharted hfirm)⟩).mono ?_
      fun cause after hstuck => hstuck.halted (.refl _ _ _)
    intro switch found hended
    rcases hended with ⟨hfound, high, hhigh, hhash, base, blocks, hjoins⟩
    have hhighEq := BlockTree.eq_of_hash_eq hhigh hserial hhash
    subst hhighEq
    rw [hjoins.eq_of_below hbelow]
    refine (hfound.rewind hhost .concurrent hbelow (fun _ => BlockTree.Below.refl _) hserved).imp ?_
    intro _ after hended
    rcases hended with ⟨last, hlast, hshifts, htip⟩
    refine ⟨last, hlast, hshifts, ?_, ?_⟩
    · exact htip.trans (hshifts.other .serial (by decide)).symm
    · intro switch hswitch
      cases hswitch
      rfl

/-!
# Planning
-/

theorem Stands.findBest (h : Stands terms standing intake world) (hhost : host.Honours terms)
    (hcharted : terms.firm → terms.charted standing.serial) {best : BlockHash}
    (hbest : terms.firm → best = terms.best.hash) :
    (Ancestry.find host standing.serial.hash best).Yields world
      (fun switch after => Stands terms standing intake after ∧
        ∃ high ∈ terms.tree, (terms.firm → high = terms.best) ∧
          ∃ base blocks, switch.Joins terms.tree standing.serial high base blocks)
      (Stuck terms standing intake) := by
  refine (h.find hhost h.chronicle.serial_mem hcharted fun hfirm => ⟨terms.best,
    terms.best_mem hfirm, (hbest hfirm).symm,
    terms.served_charted hfirm (terms.best_served hfirm)⟩).imp ?_
  intro switch after hended
  rcases hended with ⟨hafter, high, hhigh, hhash, hjoins⟩
  refine ⟨hafter, high, hhigh, fun hfirm => ?_, hjoins⟩
  exact BlockTree.eq_of_hash_eq hhigh (terms.best_mem hfirm) (hhash.trans (hbest hfirm))

/-- No switch is planned while the serial tip is on the best chain, unless a fork has
been seen and it is not the best block.  A switch leads from the serial tip to the
best block. -/
theorem Stands.plan (h : Stands terms standing intake world) (hhost : host.Honours terms)
    (forkSeen : Bool) (hcharted : terms.firm → terms.charted standing.serial) :
    (Switching.plan host forkSeen).Yields world
      (fun found after => Stands terms standing intake after ∧
        match found with
        | none => terms.firm → terms.tree.Below standing.serial terms.best ∧
            (forkSeen = true → standing.serial = terms.best)
        | some switch => (terms.firm → terms.tree.Below standing.serial terms.best →
              forkSeen = true) ∧
            ∃ high ∈ terms.tree, (terms.firm → high = terms.best) ∧
              ∃ base blocks, switch.Joins terms.tree standing.serial high base blocks)
      (Stuck terms standing intake) := by
  have hmem := h.chronicle.serial_mem
  refine Switching.plan_of_parts ((h.bestHash hhost).imp ?_)
  intro best asked hended
  rcases hended with ⟨hasked, hbest⟩
  rw [h.frontier]
  refine ⟨?_, ?_, ?_⟩
  · intro hat
    refine ⟨hasked, fun hfirm => ?_⟩
    have heq := BlockTree.eq_of_hash_eq hmem (terms.best_mem hfirm)
      (hat.symm.trans (hbest hfirm))
    exact ⟨heq ▸ BlockTree.Below.refl _, fun _ => heq⟩
  · intro _ hfork
    refine (hasked.findBest hhost hcharted hbest).imp ?_
    intro switch after hended
    rcases hended with ⟨hafter, hswitch⟩
    exact ⟨hafter, fun _ _ => hfork, hswitch⟩
  · intro _ hfork
    refine (hasked.hashAt hhost hmem).imp ?_
    intro found looked hended
    rcases hended with ⟨hlooked, hfound⟩
    refine ⟨?_, ?_⟩
    · intro hsame
      refine ⟨hlooked, fun hfirm => ⟨(hfound hfirm).mp hsame, fun hseen => ?_⟩⟩
      rw [hfork] at hseen
      cases hseen
    · intro hsame
      refine (hlooked.findBest hhost hcharted hbest).imp ?_
      intro switch after hended
      rcases hended with ⟨hafter, hswitch⟩
      -- On the best chain the serial tip would have been found by its height.
      exact ⟨hafter, fun hfirm hserial => absurd ((hfound hfirm).mpr hserial) hsame, hswitch⟩

/-!
# Carrying a switch out
-/

theorem Stands.begun (h : Stands terms standing intake world) (switch : Switch) :
    Stands terms standing intake (Switching.begun switch world) := by
  unfold Switching.begun
  split
  · exact h
  · exact h.emit trivial

/-- Both tracks end at the block that the switch leads to. -/
theorem Stands.carryOut (h : Stands terms standing intake world) (hhost : host.Honours terms)
    (hlevel : standing.concurrent = standing.serial) {switch : Switch} {high base : Block}
    {blocks : List Block} (hjoins : switch.Joins terms.tree standing.serial high base blocks)
    (hserved : terms.firm → terms.served standing.serial) (hhigh : terms.firm → high = terms.best) :
    (Switching.carryOut host switch).Yields world
      (fun _ after => ∃ last, Stands terms last intake after ∧ last.concurrent = high ∧
        last.serial = high)
      (Cut terms) := by
  have hbest : terms.firm → ∀ block ∈ blocks, terms.tree.Below block terms.best := by
    intro hfirm block hblock
    rw [← hhigh hfirm]
    exact (hjoins.climb.bounds hblock).2
  have hserve : terms.firm → ∀ block ∈ blocks, terms.served block := by
    intro hfirm block hblock
    exact Terms.served_below hfirm (hbest hfirm block hblock) (terms.best_served hfirm)
  refine Switching.carryOut_of_parts ?_
  rw [hjoins.ancestor, hjoins.chain]
  refine ((h.begun switch).rewind hhost .serial hjoins.below (by simp) hserved).mono ?_
    fun _ _ hhalted => hhalted.cut
  intro _ world₁ hended
  rcases hended with ⟨first, hfirst, hshifts₁, hserial₁⟩
  have hconcurrent₁ : first.tip .concurrent = standing.serial :=
    (hshifts₁.other .concurrent (by decide)).trans hlevel
  refine (hfirst.rewind hhost .concurrent (hconcurrent₁ ▸ hjoins.below)
    (fun _ => hserial₁ ▸ BlockTree.Below.refl _)
    (fun hfirm => hconcurrent₁ ▸ hserved hfirm)).mono ?_ fun _ _ hhalted => hhalted.cut
  intro _ world₂ hended
  rcases hended with ⟨second, hsecond, hshifts₂, hconcurrent₂⟩
  have hserial₂ : second.tip .serial = base := (hshifts₂.other .serial (by decide)).trans hserial₁
  refine (hsecond.replay hhost .concurrent (hconcurrent₂ ▸ hjoins.climb) (by simp) hserve
    (by simp)).mono ?_ fun _ _ hhalted => hhalted.cut
  intro _ world₃ hended
  rcases hended with ⟨third, hthird, hshifts₃, hconcurrent₃⟩
  have hserial₃ : third.tip .serial = base := (hshifts₃.other .serial (by decide)).trans hserial₂
  refine (hthird.replay hhost .serial (hserial₃ ▸ hjoins.climb)
    (fun _ => hconcurrent₃ ▸ BlockTree.Below.refl _) hserve
    (fun hfirm _ block hblock =>
      terms.eligible_below hfirm (hbest hfirm block hblock))).mono ?_
    fun _ _ hhalted => hhalted.cut
  intro _ world₄ hended
  rcases hended with ⟨last, hlast, hshifts₄, hserial₄⟩
  refine ⟨last, hlast, ?_, hserial₄⟩
  exact (hshifts₄.other .concurrent (by decide)).trans hconcurrent₃

end

end ChainIndex
