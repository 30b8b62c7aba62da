import ChainIndex.Proofs.LoneIndexes
import ChainIndex.Proofs.Serving

/-!
# Times on a pile of blocks

The index of times does not remember what it overwrites: to take a block off it restores the
last time from the entry of the block's parent.  On a pile of blocks that entry is the one of
the block below, so each block is taken off without a trace, whatever times the blocks state.
-/

namespace ChainIndex

namespace Times

variable {start table other : Table} {blocks : List Block} {block : Block}
variable {pile : List (Block × Table)} {own : List Edit}

/-!
# Assigned times
-/

theorem assigned_ascending (blocks : List Block) :
    (assigned none blocks).Pairwise fun a b => a.2 < b.2 := by
  induction blocks using List.reverseRecOn with
  | nil => exact List.Pairwise.nil
  | append_singleton blocks block ih =>
      rw [assigned_none_snoc, List.pairwise_append]
      refine ⟨ih, List.pairwise_singleton _ _, fun pair hpair last hlast => ?_⟩
      rw [List.mem_singleton.mp hlast]
      exact lt_follow hpair _

theorem Fit.follow_le_iff (h : Fit blocks) (stated : Int64) :
    follow stated.toInt (Times.final blocks) ≤ Int64.maxValue.toInt ↔
      Times.final blocks ≠ some Int64.maxValue.toInt := by
  have hstated := Int64.toInt_le stated
  cases hfinal : Times.final blocks with
  | none => simp [follow, hstated]
  | some last =>
      have hlast := (h.final last hfinal).2
      rw [follow, Int.max_le, ne_eq, Option.some.injEq]
      omega

/-!
# What the index adds to a table
-/

/-- The table has gained the entries of the blocks, and all their times can be written. -/
structure Adds (start : Table) (blocks : List Block) (table : Table) : Prop where
  fit : Fit blocks
  holds : table.Holds (start.entries ++ entries blocks)

namespace Adds

theorem begin (start : Table) : Adds start [] start where
  fit := by
    intro pair hpair
    cases hpair
  holds := by
    show start.Holds (start.entries ++ [])
    rw [List.append_nil]
    exact .of_entries start

theorem exists_time (h : Adds start blocks table) {pair : Block × Int}
    (hpair : pair ∈ assigned none blocks) :
    ∃ time, timeOf (.clear table) pair.1.hash = .ok (some time) ∧ time.toInt = pair.2 :=
  ⟨_, timeOf_clear (h.fit.word hpair) (get?_blockKey_of_mem h.holds hpair),
    (h.fit.word hpair).toInt_ofInt⟩

theorem edits_apply (h : Adds start blocks table) (hfree : start.Free stem) (block : Block) :
    index.edits block .apply (.clear table) =
      if follow block.header.timestamp.toInt (final blocks) ≤ Int64.maxValue.toInt then
        .ok (applied block (Int64.ofInt (follow block.header.timestamp.toInt (final blocks))))
      else .error .overflow :=
  edits_apply_clear h.fit (get?_lastKey hfree.outside h.holds) block

theorem put (h : Adds start blocks table) (hfree : start.Free stem)
    (hpiled : Piled (blocks ++ [block]))
    (hown : index.edits block .apply (.clear table) = .ok own) :
    Adds start (blocks ++ [block]) (table.commit own) := by
  rw [h.edits_apply hfree] at hown
  split at hown
  · rename_i hfits
    have hword : Word (follow block.header.timestamp.toInt (final blocks)) :=
      ⟨Int.le_trans (Int64.minValue_le_toInt _) (stated_le_follow _ _), hfits⟩
    rw [← Except.ok.inj hown]
    exact ⟨h.fit.snoc hfits,
      holds_applied hfree.outside h.fit h.holds hpiled.fresh hword.toInt_ofInt⟩
  · cases hown

theorem parentTime_eq (h : Adds start (blocks ++ [block]) table) (hfree : start.Free stem)
    (hpiled : Piled (blocks ++ [block])) :
    parentTime (.clear table) block = .ok ((final blocks).map Int64.ofInt) := by
  unfold parentTime
  have hfinal := h.fit.of_snoc.final
  -- The parent of the lowest block has no entry, that of any other is the block below it.
  cases blocks using List.reverseRecOn with
  | nil =>
      cases hparent : block.parent with
      | none => rfl
      | some parent =>
          refine stored_eq rfl hfinal (get?_blockKey_of_not_mem hfree.outside h.holds ?_)
          intro other hother hsame
          rw [List.mem_singleton.mp hother] at hsame
          exact hpiled.lowest_parent (hsame ▸ hparent)
  | append_singleton front below =>
      rw [hpiled.parent_eq]
      exact stored_eq rfl hfinal (get?_blockKey_snoc h.holds)

theorem take (h : Adds start (blocks ++ [block]) table) (hfree : start.Free stem)
    (hpiled : Piled (blocks ++ [block])) :
    ∃ own, index.edits block .undo (.clear table) = .ok own ∧
      Adds start blocks (table.commit own) := by
  have htop := mem_assigned_snoc blocks block
  have hword := h.fit.word htop
  have hget := get?_blockKey_of_mem h.holds htop
  refine ⟨_, edits_undo_clear hword hget (h.parentTime_eq hfree hpiled), h.fit.of_snoc, ?_⟩
  exact holds_undone hfree.outside h.fit.of_snoc h.holds hpiled.fresh hword.toInt_ofInt
    h.fit.of_snoc.toInt_final

end Adds

theorem adds_of_piles (hfree : start.Free stem) (h : index.Piles start pile table) :
    Adds start (pile.map Prod.fst) table := by
  induction h with
  | begin => exact .begin start
  | put _ hpiled hafter ih =>
      rcases Index.exists_edits_of_step hafter with ⟨own, hown, rfl⟩
      rw [List.map_append]
      exact ih.put hfree hpiled hown
  | take hbelow hafter ih =>
      have hpiled := hbelow.piled
      rw [List.map_append] at ih hpiled
      rcases ih.take hfree hpiled with ⟨own, hown, hadds⟩
      rw [Index.step_of_edits hown] at hafter
      cases hafter
      exact hadds
  | failed _ hafter ih =>
      rw [Index.eq_of_step_error hafter]
      exact ih

/-- A pile leads to one table only, however it came to be. -/
theorem table_unique (hfree : start.Free stem) (h : index.Piles start pile table)
    (h' : index.Piles start pile other) : table = other := by
  apply Table.eq_of_get?
  intro key
  -- Under the stem both tables hold the same entries, elsewhere both are as they were.
  by_cases hkey : stem <+: key
  · apply Option.ext
    intro value
    have hforeign := ne_tip_of_stem hkey
    exact ((adds_of_piles hfree h).holds key hforeign value).trans
      ((adds_of_piles hfree h').holds key hforeign value).symm
  · exact (h.alike writesUnder key hkey).trans (h'.alike writesUnder key hkey).symm

end Times

/-- On a pile of blocks the index of times assigns to each block the time that it states, or one
more than the time of the block below if that is later.  So the times ascend from block to
block, and there is none left for the next block exactly if the last one is the greatest of all.
Whatever the times are, the block on top can be taken off, and the table is then what it was
before the block was put on. -/
theorem times_form_a_stack {start table : Table} {pile : List (Block × Table)}
    (hfree : start.Free Times.stem) (h : Times.index.Piles start pile table) :
    ((Times.assigned none (pile.map Prod.fst)).Pairwise fun a b => a.2 < b.2) ∧
    (∀ pair ∈ Times.assigned none (pile.map Prod.fst), ∃ time,
      Times.timeOf (.clear table) pair.1.hash = .ok (some time) ∧ time.toInt = pair.2) ∧
    (∀ block, Piled (pile.map Prod.fst ++ [block]) →
      if Times.final (pile.map Prod.fst) = some Int64.maxValue.toInt then
        Times.index.step table block .apply = (.error .overflow, table)
      else
        ∃ after time, Times.index.step table block .apply = (.ok (), after) ∧
          Times.timeOf (.clear after) block.hash = .ok (some time) ∧
          time.toInt =
            Times.follow block.header.timestamp.toInt (Times.final (pile.map Prod.fst))) ∧
    ∀ front block before, pile = front ++ [(block, before)] →
      Times.index.step table block .undo = (.ok (), before) := by
  have hadds := Times.adds_of_piles hfree h
  refine ⟨Times.assigned_ascending _, fun pair hpair => hadds.exists_time hpair, ?_, ?_⟩
  · intro block hpiled
    have hedits := hadds.edits_apply hfree block
    split
    · rename_i hfull
      rw [if_neg (fun hle => (hadds.fit.follow_le_iff _).mp hle hfull)] at hedits
      exact Index.step_of_error hedits
    · rename_i hroom
      rw [if_pos ((hadds.fit.follow_le_iff _).mpr hroom)] at hedits
      have hnext := hadds.put hfree hpiled hedits
      rcases hnext.exists_time (Times.mem_assigned_snoc _ block) with ⟨time, hread, htime⟩
      exact ⟨_, time, Index.step_of_edits hedits, hread, htime⟩
  · rintro front block before rfl
    have hpiled := h.piled
    rw [List.map_append] at hadds hpiled
    rcases hadds.take hfree hpiled with ⟨own, hown, _⟩
    have hstep := Index.step_of_edits hown
    have hbefore := h.recalls (List.prefix_refl _)
    rw [hstep, Times.table_unique hfree (h.take hstep) hbefore]

namespace Sample

def utmost : Block := ⟨⟨"c", some "b", 3, Int64.maxValue⟩, []⟩

def late : Block := ⟨⟨"d", some "c", 4, -7⟩, []⟩

def timed (table : Table) (block : Block) : Table :=
  (Times.index.step table block .apply).2

def pile : List (Block × Table) :=
  [(first, labelled), (second, timed labelled first), (utmost, timed (timed labelled first) second)]

def heaped : Table := timed (timed (timed labelled first) second) utmost

theorem piled_utmost : Piled [first, second, utmost] where
  linked := by decide
  distinct := by decide
  grounded := by decide

theorem piled_late : Piled [first, second, utmost, late] where
  linked := by decide
  distinct := by decide
  grounded := by decide

theorem piles : Times.index.Piles labelled pile heaped := by
  have hsecond : Piled ([first] ++ [second]) := piled_utmost.of_snoc
  have hfirst : Piled ([] ++ [first]) := hsecond.of_snoc
  have hone : Times.index.step labelled first .apply = (.ok (), timed labelled first) :=
    Prod.ext rfl rfl
  have htwo : Times.index.step (timed labelled first) second .apply =
      (.ok (), timed (timed labelled first) second) :=
    Prod.ext rfl rfl
  have hthree : Times.index.step (timed (timed labelled first) second) utmost .apply =
      (.ok (), heaped) :=
    Prod.ext rfl rfl
  exact .put (.put (.put .begin hfirst hone) hsecond htwo) piled_utmost hthree

end Sample

/-- The second block states a time before that of the first, the third the greatest of all, and
no other block can follow. -/
theorem times_form_a_stack_of_sample :
    Sample.labelled.Free Times.stem ∧ Times.index.Piles Sample.labelled Sample.pile Sample.heaped ∧
    (∀ pair ∈ [(Sample.first, 50), (Sample.second, 51), (Sample.utmost, 9223372036854775807)],
      ∃ time, Times.timeOf (.clear Sample.heaped) pair.1.hash = .ok (some time) ∧
        time.toInt = pair.2) ∧
    Times.index.step Sample.heaped Sample.late .apply = (.error .overflow, Sample.heaped) ∧
    Times.index.step Sample.heaped Sample.utmost .undo =
      (.ok (), Sample.timed (Sample.timed Sample.labelled Sample.first) Sample.second) := by
  have hfree : Sample.labelled.Free Times.stem := Sample.labelled_free (by decide)
  rcases times_form_a_stack hfree Sample.piles with ⟨_, hread, hput, htake⟩
  have hlate := hput Sample.late Sample.piled_late
  rw [if_pos (by decide)] at hlate
  refine ⟨hfree, Sample.piles, hread, hlate, ?_⟩
  exact htake [_, _] Sample.utmost _ rfl

end ChainIndex
