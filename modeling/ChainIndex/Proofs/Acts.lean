import ChainIndex.Proofs.Terms

/-!
# Acts on terms

What the acts that reach the host come to in a world that stands on terms with it.
Asking and telling leave the tracks where they are; a block put on a track or
taken off it is a move of that track.
-/

namespace ChainIndex

/-!
# Single blocks
-/

theorem Block.pointer_below {block : Block} (low : Pointer)
    (h : block.height.toNat = low.height.toNat + 1) :
    (⟨low.hash, if block.height = 0 then 0 else block.height - 1⟩ : Pointer) = low := by
  have hpositive : block.height ≠ 0 := by
    intro hzero
    rw [hzero] at h
    cases h
  have hone : (1 : UInt64) ≤ block.height := by
    rw [UInt64.le_iff_toNat_le]
    exact Nat.le_trans (Nat.le_add_left 1 low.height.toNat) (Nat.le_of_eq h.symm)
  have hlow : block.height - 1 = low.height := by
    apply UInt64.toNat_inj.mp
    rw [UInt64.toNat_sub_of_le _ _ hone, h]
    rfl
  rw [if_neg hpositive, hlow]

theorem BlockTree.Child.destination_undo {tree : BlockTree} {low block : Block}
    (h : tree.Child low block) : Act.destination block .undo = .ok low.pointer := by
  rw [Act.destination, h.2.2]
  exact congrArg Except.ok (Block.pointer_below low.pointer h.height)

namespace Move.IsLawful

variable {tree : BlockTree} {standing : Standing} {move : Move} {block : Block}

theorem concerns (h : move.IsLawful tree standing) (hblock : move.blocks = [block]) :
    standing.Concerns tree block move.track move.direction := by
  cases move with
  | grow blocks high =>
      have hclimb : tree.Climb standing.concurrent blocks high := h
      have hmem : block ∈ blocks := by
        rw [show blocks = [block] from hblock]
        exact List.mem_cons_self
      exact hclimb.mem hmem
  | shrink gone low =>
      cases hblock
      exact ⟨h.1, h.2.1.ne_genesis⟩
  | rise high =>
      cases hblock
      exact h
  | fall gone low =>
      cases hblock
      exact ⟨h.1, h.2.ne_genesis⟩

theorem destination (h : move.IsLawful tree standing) (hblock : move.blocks = [block]) :
    Act.destination block move.direction = .ok move.target.pointer := by
  cases move with
  | grow blocks high =>
      have hclimb : tree.Climb standing.concurrent blocks high := h
      have hlast := hclimb.getLast?_eq (by rw [show blocks = [block] from hblock]; simp)
      rw [show blocks = [block] from hblock] at hlast
      cases hlast
      rfl
  | shrink gone low =>
      cases hblock
      exact h.2.1.destination_undo
  | rise high =>
      cases hblock
      rfl
  | fall gone low =>
      cases hblock
      exact h.2.destination_undo

end Move.IsLawful

theorem Gathered.single {catalogue : Catalogue} {table : Table} {track : Track}
    {direction : Direction} {block : Block} {outages : Outages} {edits : List Edit}
    (h : catalogue.edits track block direction ⟨table, outages⟩ = .ok edits) :
    Gathered catalogue table track direction [block] edits := by
  have hmore : Gathered catalogue table track direction [block] (edits ++ []) := .more h .none
  rw [List.append_nil] at hmore
  exact hmore

theorem Standing.permits_quiet {tree : BlockTree} {standing : Standing} {asked : List Entry}
    (h : ∀ entry ∈ asked, entry.IsQuiet) : ∀ entry ∈ asked, standing.Permits tree entry :=
  fun entry hentry => .quiet (h entry hentry)

theorem Standing.permits_consultation {tree : BlockTree} {standing : Standing} {track : Track}
    {block : Block} {direction : Direction} {table : Table} (outages : Outages)
    (htable : table = standing.table) (h : standing.Concerns tree block track direction) :
    ∀ entry ∈ consultation track block direction table outages,
      standing.Permits tree entry := by
  intro entry hentry
  rcases List.mem_cons.mp hentry with rfl | hentry
  · exact .consulted htable h
  · rw [List.mem_singleton.mp hentry]
    exact .quiet trivial

namespace Stands

variable {terms : Terms} {standing : Standing} {intake : Intake} {world after : World σ}
variable {host : Host σ} {asked : List Entry}

/-!
# Questions
-/

theorem quietly (h : Stands terms standing intake world) (hhost : host.Honours terms)
    (hasks : Asks host asked world after) (hasked : ∀ entry ∈ asked, entry.IsQuiet) :
    Stands terms standing intake after :=
  h.asks hhost hasks (Standing.permits_quiet hasked)

theorem bestHash (h : Stands terms standing intake world) (hhost : host.Honours terms) :
    (Act.bestHash host).Yields world
      (fun best after => Stands terms standing intake after ∧
        (terms.firm → best = terms.best.hash))
      (Stuck terms standing intake) := by
  refine (Asks.refl host world).bestHash.mono ?_ ?_
  · intro best after hended
    exact ⟨h.quietly hhost hended.1 (List.forall_mem_singleton.mpr trivial), hhost.names hended.2⟩
  · intro cause after hhalted
    exact ⟨hhost.loose_of_names hhalted.2,
      h.quietly hhost hhalted.1 (List.forall_mem_singleton.mpr trivial)⟩

theorem hashAt (h : Stands terms standing intake world) (hhost : host.Honours terms)
    {tip : Block} (htip : tip ∈ terms.tree) :
    (Act.hashAt host tip.height).Yields world
      (fun found after => Stands terms standing intake after ∧
        (terms.firm → (found = some tip.hash ↔ terms.tree.Below tip terms.best)))
      (Stuck terms standing intake) := by
  refine ((Asks.refl host world).hashAt tip.height).mono ?_ ?_
  · intro found after hended
    rcases hended with ⟨answer, hfound, hafter, hfinds⟩
    refine ⟨h.quietly hhost hafter (List.forall_mem_singleton.mpr trivial), ?_⟩
    intro hfirm
    cases hfound with
    | given block =>
        rcases hhost.finds_height hfinds with ⟨_, hheight, hbest⟩
        exact Option.some_inj.trans ((hbest hfirm).hash_eq_iff (terms.best_mem hfirm) htip
          (congrArg UInt64.toNat hheight))
    | missing what =>
        have habove := UInt64.lt_iff_toNat_lt.mp (hhost.above_best hfinds hfirm).1
        exact iff_of_false (by simp) fun hbelow => Nat.not_lt.mpr hbelow.height_le habove
  · intro cause after hhalted
    rcases hhalted with ⟨hother, hafter, hfinds⟩
    exact ⟨fun hfirm => hother (hhost.above_best hfinds hfirm).2,
      h.quietly hhost hafter (List.forall_mem_singleton.mpr trivial)⟩

theorem parentOf (h : Stands terms standing intake world) (hhost : host.Honours terms)
    {hash : BlockHash} (hcharted : terms.firm → ∃ block, block.hash = hash ∧ terms.charted block) :
    (Act.parentOf host hash).Yields world
      (fun found after => Stands terms standing intake after ∧
        match found with
        | some parent => ∃ block ∈ terms.tree, block.hash = hash ∧ block.parent = some parent
        | none => terms.firm → ∃ block ∈ terms.tree, block.hash = hash ∧ block.parent = none)
      (Stuck terms standing intake) := by
  have hloose {cause : Halt} (htells : host.Tells hash (.error cause)) : ¬ terms.firm := by
    intro hfirm
    rcases hcharted hfirm with ⟨block, rfl, hhas⟩
    exact hhost.uncharted htells hfirm hhas
  refine ((Asks.refl host world).parentOf hash).mono ?_ ?_
  · intro found after hended
    rcases hended with ⟨answer, hfound, hafter, htells⟩
    refine ⟨h.quietly hhost hafter (List.forall_mem_singleton.mpr trivial), ?_⟩
    cases hfound with
    | given header =>
        rcases hhost.tells htells with ⟨block, hblock, rfl⟩
        have hmem := BlockTree.mem_of_find? hblock
        have hhash := terms.tree.hash_of_find? hblock
        cases hparent : block.header.parent with
        | some parent => exact ⟨block, hmem, hhash, hparent⟩
        | none => exact fun _ => ⟨block, hmem, hhash, hparent⟩
    | missing what => exact fun hfirm => absurd hfirm (hloose htells)
  · intro cause after hhalted
    exact ⟨hloose hhalted.2.2,
      h.quietly hhost hhalted.2.1 (List.forall_mem_singleton.mpr trivial)⟩

/-!
# Small steps
-/

theorem emit (h : Stands terms standing intake world) {event : Event}
    (hquiet : (Entry.emitted event).IsQuiet) :
    Stands terms standing intake (world.record (.emitted event)) :=
  h.record _ hquiet

theorem enter (h : Stands terms standing intake world) (phase : Phase) :
    Stands terms standing intake
      { world.record (.entered phase) with phase := phase } :=
  { h.record (.entered phase) trivial with }

theorem remember (h : Stands terms standing intake world) (kept : Intake)
    (hgroup : kept.groupSize = intake.groupSize) (hwater : kept.highWater = intake.highWater)
    (hannounced : ∀ block ∈ kept.announced, block ∈ terms.tree) :
    Stands terms standing kept { world with intake := kept } :=
  { h with
    memory := rfl
    groupSize := hgroup ▸ h.groupSize
    highWater := hwater ▸ h.highWater
    announced := hannounced }

/-!
# Moves
-/

section

variable {track : Track} {block : Block} {direction : Direction} {cause : Halt}

theorem declined (h : Stands terms standing intake world) (hhost : host.Honours terms)
    (hconcerns : standing.Concerns terms.tree block track direction)
    (heligible : terms.firm → track = .serial → direction = .apply → terms.eligible block)
    (hdeclines : host.Declines track block direction world cause asked after) :
    ¬ terms.firm ∧ ∀ entry ∈ asked, standing.Permits terms.tree entry := by
  cases hdeclines with
  | unread hreads =>
      exact ⟨hhost.loose_of_reads hreads, List.forall_mem_singleton.mpr (.quiet trivial)⟩
  | @unfit outages _ _ hreads hedits _ _ =>
      refine ⟨fun hfirm => ?_, Standing.permits_consultation outages h.table hconcerns⟩
      rcases terms.fluent hfirm h.chronicle hconcerns (heligible hfirm) with ⟨edits, hfound⟩
      rw [hhost.reads hreads hfirm, hhost.catalogue, h.table] at hedits
      cases hedits.symm.trans hfound

theorem hindered (h : Stands terms standing intake world) (hhost : host.Honours terms)
    (hconcerns : standing.Concerns terms.tree block track direction)
    (heligible : terms.firm → track = .serial → direction = .apply → terms.eligible block)
    {pointer : Pointer} (hpointer : Act.destination block direction = .ok pointer)
    (hhinders : host.Hinders track block direction world cause asked after) :
    ¬ terms.firm ∧ ∀ entry ∈ asked, standing.Permits terms.tree entry := by
  cases hhinders with
  | declined hdeclines => exact h.declined hhost hconcerns heligible hdeclines
  | rootless _ hroot => cases hroot.symm.trans hpointer
  | @refused outages _ _ _ _ _ htakes =>
      exact ⟨hhost.loose_of_takes htakes, List.forall_mem_cons.mpr
        ⟨.quiet trivial, Standing.permits_consultation outages h.table hconcerns⟩⟩

end

theorem landed (h : Stands terms standing intake world) {move : Move} {edits : List Edit}
    (hlawful : move.IsLawful terms.tree standing)
    (hedits : Gathered terms.catalogue standing.table move.track move.direction move.blocks
      edits) :
    match move.report with
    | some event => Stands terms (standing.after move edits) intake
        ((world.landed move.track edits move.target.pointer).record (.emitted event))
    | none => Stands terms (standing.after move edits) intake
        (world.landed move.track edits move.target.pointer) := by
  have hmoved := Chronicle.next h.chronicle (.moved hlawful hedits h.told)
  have htable : world.table.commit (Standing.batch move edits) =
      (standing.after move edits).table := congrArg (Table.commit · _) h.table
  have hfrontier : world.frontier.move move.track move.target.pointer =
      ⟨(standing.after move edits).concurrent.pointer,
        (standing.after move edits).serial.pointer⟩ := by
    rw [h.frontier]
    cases move <;> rfl
  cases hreport : move.report with
  | none =>
      rw [hreport] at hmoved
      exact { h with
        chronicle := hmoved
        told := rfl
        table := htable
        frontier := hfrontier }
  | some event =>
      rw [hreport] at hmoved
      exact { h with
        chronicle := .next hmoved (.told rfl)
        told := rfl
        table := htable
        frontier := hfrontier }

theorem stepped (h : Stands terms standing intake world) (hhost : host.Honours terms)
    {move : Move} {block : Block} (hblock : move.blocks = [block])
    (hlawful : move.IsLawful terms.tree standing) (hasked : ∀ entry ∈ asked, entry.IsQuiet)
    (hstepped : Stepped host asked move.track block move.direction world after) :
    ∃ edits, Stands terms (standing.after move edits) intake after := by
  cases hstepped with
  | @step heard outages own pointer hasks _ hown hpointer =>
      have hheard := h.asks hhost hasks (List.forall_mem_append.mpr
        ⟨Standing.permits_consultation outages h.table (hlawful.concerns hblock),
          Standing.permits_quiet hasked⟩)
      rw [hhost.catalogue, h.table] at hown
      have hlanded := hheard.landed hlawful (hblock ▸ Gathered.single hown)
      rw [hlawful.destination hblock] at hpointer
      cases hpointer
      refine ⟨own, ?_⟩
      cases move with
      | grow blocks high => exact hlanded
      | shrink gone low => exact hlanded
      | rise high =>
          cases hblock
          exact hlanded
      | fall gone low =>
          cases hblock
          exact hlanded

end Stands

end ChainIndex
