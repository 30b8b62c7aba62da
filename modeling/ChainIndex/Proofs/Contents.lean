import ChainIndex.Proofs.Chronicle
import ChainIndex.Proofs.StandardHoldings

/-!
# Contents of the table

With the standard indexes the table always holds the entries of two paths from the
genesis: those of the index of heights for the path to the concurrent tip, and those of
the index of times for the path to the serial tip.  Each move of a track adds the
entries of the blocks that are put on it, or takes out those of the block that is taken
off, and leaves the entries of the other track alone.
-/

namespace ChainIndex

variable {tree : BlockTree} {table : Table} {blocks upper lower : List Block}
variable {low high block : Block} {others : Entries}

theorem Heights.entries_outside (blocks : List Block) :
    (Heights.entries blocks).Outside Times.stem := by
  intro entry hentry
  have hapart : Heights.stem.Apart Times.stem := by decide
  exact hapart.not_under (stem_entries hentry)

theorem Times.entries_outside (blocks : List Block) :
    (Times.entries blocks).Outside Heights.stem := by
  intro entry hentry
  have hapart : Times.stem.Apart Heights.stem := by decide
  exact hapart.not_under (stem_entries hentry)

/-!
# The concurrent track
-/

theorem Heights.holds_applied (hothers : others.Outside stem)
    (h : table.Holds (others ++ entries upper)) (hpath : tree.Climb tree.genesis upper low)
    (hclimb : tree.Climb low blocks high) :
    (table.commit (blocks.flatMap (edits · .apply))).Holds
      (others ++ entries (upper ++ blocks)) := by
  induction blocks generalizing table upper low with
  | nil =>
      rw [List.append_nil]
      exact h
  | cons block rest ih =>
      cases hclimb with
      | up hchild hrest =>
          have hentered := holds_entered hothers h
            (fun other hother => (hpath.ne_of_child hchild hother).1)
            (fun other hother => (hpath.ne_of_child hchild hother).2)
          have hlater := ih hentered (hpath.snoc hchild) hrest
          rw [List.append_assoc] at hlater
          rw [List.flatMap_cons, Table.commit_append]
          exact hlater

/-!
# The serial track
-/

namespace Times

/-- Along every path to the block the times can be written. -/
def Roomy (tree : BlockTree) (block : Block) : Prop :=
  ∀ path, tree.Climb tree.genesis path block → Fit path

theorem get?_blockKey {front : List Block} (hothers : others.Outside stem)
    (h : table.Holds (others ++ entries lower)) (hpath : tree.Climb tree.genesis lower high)
    (hfront : tree.Climb tree.genesis front low) (hpart : front <+: lower) :
    table.get? (blockKey low.hash) = (final front).map Numeral.signed := by
  rcases hpart with ⟨back, rfl⟩
  cases front using List.reverseRecOn with
  | nil =>
      rw [← hfront.eq_nil]
      refine get?_blockKey_of_not_mem hothers h fun other hother hhash => ?_
      rcases (hpath.bounds hother).1 with ⟨_, _, hchild⟩
      exact hchild.ne_genesis (BlockTree.eq_of_hash_eq (hpath.mem hother) tree.genesis_mem hhash)
  | append_singleton front block =>
      rw [← hfront.of_snoc.1]
      exact get?_blockKey_snoc h

end Times

/-!
# Both tracks
-/

/-- The paths to the two tips, and the entries that the table holds for them. -/
structure Standing.Filled (tree : BlockTree) (standing : Standing) (upper lower : List Block) :
    Prop where
  toConcurrent : tree.Climb tree.genesis upper standing.concurrent
  toSerial : tree.Climb tree.genesis lower standing.serial
  fit : Times.Fit lower
  holds : standing.table.Holds (Heights.entries upper ++ Times.entries lower)

namespace Standing.Filled

variable {standing : Standing} {catalogue : Catalogue} {own : List Edit} {move : Move}

theorem blank (tree : BlockTree) : (Standing.blank tree).Filled tree [] [] where
  toConcurrent := .stay _
  toSerial := .stay _
  fit := by
    intro pair hpair
    cases hpair
  holds := .blank

theorem holds_after {entries : Entries} (h : (standing.table.commit own).Holds entries) :
    (standing.after move own).table.Holds entries := by
  show (standing.table.commit (own ++ [Frontier.edit move.track move.target.pointer])).Holds _
  rw [Table.commit_append]
  exact h.tip move.track move.target.pointer

theorem grow (h : standing.Filled tree upper lower) (hstandard : catalogue.IsStandard)
    (hclimb : tree.Climb standing.concurrent blocks high)
    (hown : Gathered catalogue standing.table .concurrent .apply blocks own) :
    (standing.after (.grow blocks high) own).Filled tree (upper ++ blocks) lower where
  toConcurrent := h.toConcurrent.append hclimb
  toSerial := h.toSerial
  fit := h.fit
  holds := by
    apply holds_after
    rw [hstandard.gathered_concurrent hown]
    exact (Heights.holds_applied (Times.entries_outside lower) h.holds.swap h.toConcurrent
      hclimb).swap

theorem shrink (h : standing.Filled tree upper lower) (hstandard : catalogue.IsStandard)
    (hblock : block = standing.concurrent) (hchild : tree.Child low block)
    (hown : Gathered catalogue standing.table .concurrent .undo [block] own) :
    ∃ front, (standing.after (.shrink block low) own).Filled tree front lower := by
  subst hblock
  rcases h.toConcurrent.eq_snoc hchild with ⟨front, rfl, hfront⟩
  refine ⟨front, hfront, h.toSerial, h.fit, holds_after ?_⟩
  rw [hstandard.gathered_concurrent hown, List.flatMap_singleton]
  exact (Heights.holds_removed (Times.entries_outside lower) h.holds.swap
    (fun other hother => (hfront.ne_of_child hchild hother).1)
    (fun other hother => (hfront.ne_of_child hchild hother).2)).swap

theorem rise (h : standing.Filled tree upper lower) (hstandard : catalogue.IsStandard)
    (hchild : tree.Child standing.serial block)
    (hown : Gathered catalogue standing.table .serial .apply [block] own) :
    (standing.after (.rise block) own).Filled tree upper (lower ++ [block]) := by
  rcases hstandard.gathered_serial hown with ⟨outages, hedits⟩
  rcases Times.edits_apply_ok hedits with ⟨found, time, hlast, hassign, rfl⟩
  have hothers := Heights.entries_outside upper
  have hfound := Times.eq_of_stored hlast h.fit.final (Times.get?_lastKey hothers h.holds)
  have htime := Times.toInt_of_assign hassign
  rw [hfound] at htime
  constructor
  · exact h.toConcurrent
  · exact h.toSerial.snoc hchild
  · exact h.fit.snoc (htime ▸ Int64.toInt_le time)
  · apply holds_after
    exact Times.holds_applied hothers h.fit h.holds
      (fun other hother => (h.toSerial.ne_of_child hchild hother).1) htime

theorem fall (h : standing.Filled tree upper lower) (hstandard : catalogue.IsStandard)
    (hblock : block = standing.serial) (hchild : tree.Child low block)
    (hown : Gathered catalogue standing.table .serial .undo [block] own) :
    ∃ front, (standing.after (.fall block low) own).Filled tree upper front := by
  subst hblock
  rcases hstandard.gathered_serial hown with ⟨outages, hedits⟩
  rcases Times.edits_undo_ok hedits with ⟨time, parent, htimeOf, hparent, rfl⟩
  rcases h.toSerial.eq_snoc hchild with ⟨front, rfl, hfront⟩
  have hothers := Heights.entries_outside upper
  have hown := Times.get?_blockKey hothers h.holds h.toSerial h.toSerial (List.prefix_refl _)
  have hlow := Times.get?_blockKey hothers h.holds h.toSerial hfront (List.prefix_append _ _)
  have htime := Times.eq_of_stored htimeOf h.fit.final hown
  rw [Times.final_snoc] at htime
  rw [Times.parentTime, hchild.2.2] at hparent
  have hfound := Times.eq_of_stored hparent h.fit.of_snoc.final hlow
  refine ⟨front, h.toConcurrent, hfront, h.fit.of_snoc, holds_after ?_⟩
  exact Times.holds_undone hothers h.fit.of_snoc h.holds
    (fun other hother => (hfront.ne_of_child hchild hother).1) (Option.some.inj htime) hfound

theorem exists_applied (h : standing.Filled tree upper lower)
    (hchild : tree.Child standing.serial block) (hroomy : Times.Roomy tree block) :
    ∃ own, Times.edits block .apply (.clear standing.table) = .ok own := by
  have hget := Times.get?_lastKey (Heights.entries_outside upper) h.holds
  have hfits := hroomy _ (h.toSerial.snoc hchild) _ (Times.mem_assigned_snoc lower block)
  rw [Times.edits_apply_clear h.fit hget, if_pos hfits]
  exact ⟨_, rfl⟩

theorem exists_undone (h : standing.Filled tree upper lower)
    (hne : standing.serial ≠ tree.genesis) :
    ∃ own, Times.edits standing.serial .undo (.clear standing.table) = .ok own := by
  have hothers := Heights.entries_outside upper
  have hmem := h.toSerial.high_mem tree.genesis_mem
  rcases BlockTree.exists_parent hmem hne with ⟨low, hchild⟩
  rcases h.toSerial.eq_snoc hchild with ⟨front, rfl, hfront⟩
  have hown := Times.get?_blockKey hothers h.holds h.toSerial h.toSerial (List.prefix_refl _)
  have hparent : Times.parentTime (.clear standing.table) standing.serial =
      .ok ((Times.final front).map Int64.ofInt) := by
    rw [Times.parentTime, hchild.2.2]
    exact Times.stored_eq rfl h.fit.of_snoc.final
      (Times.get?_blockKey hothers h.holds h.toSerial hfront (List.prefix_append _ _))
  rw [Times.final_snoc] at hown
  have hword := h.fit.final _ (Times.final_snoc front standing.serial)
  exact ⟨_, Times.edits_undo_clear hword hown hparent⟩

theorem exists_edits (h : standing.Filled tree upper lower) (hstandard : catalogue.IsStandard)
    {track : Track} {direction : Direction}
    (hconcerns : standing.Concerns tree block track direction)
    (hroomy : track = .serial → direction = .apply → Times.Roomy tree block) :
    ∃ own, catalogue.edits track block direction (.clear standing.table) = .ok own := by
  cases track with
  | concurrent => exact ⟨_, hstandard.edits_concurrent block direction _⟩
  | serial =>
      cases direction with
      | apply =>
          rcases h.exists_applied hconcerns.1 (hroomy rfl rfl) with ⟨own, hown⟩
          exact ⟨own, hstandard.edits_serial_of_ok hown⟩
      | undo =>
          rcases hconcerns with ⟨rfl, hne⟩
          rcases h.exists_undone hne with ⟨own, hown⟩
          exact ⟨own, hstandard.edits_serial_of_ok hown⟩

end Standing.Filled

namespace Chronicle

variable {catalogue : Catalogue} {course : List Entry} {standing : Standing}

/-- With the standard indexes the table is filled at every moment of a lawful course. -/
theorem filled (hstandard : catalogue.IsStandard) (h : Chronicle tree catalogue course standing) :
    ∃ upper lower, standing.Filled tree upper lower := by
  induction h with
  | blank => exact ⟨[], [], .blank tree⟩
  | @next entry past before after _ hstep ih =>
      rcases ih with ⟨upper, lower, hfilled⟩
      cases hstep with
      | quiet _ _ => exact ⟨upper, lower, hfilled⟩
      | consulted _ _ _ => exact ⟨upper, lower, hfilled⟩
      | told _ => exact ⟨upper, lower, { hfilled with }⟩
      | @moved move own hlawful hown _ =>
          have hreported {upper lower : List Block}
              (hafter : (before.after move own).Filled tree upper lower) :
              ∃ upper lower, Standing.Filled tree
                { before.after move own with owed := move.report } upper lower :=
            ⟨upper, lower, { hafter with }⟩
          cases move with
          | grow blocks high => exact hreported (hfilled.grow hstandard hlawful hown)
          | shrink block low =>
              rcases hlawful with ⟨hblock, hchild, _⟩
              rcases hfilled.shrink hstandard hblock hchild hown with ⟨front, hfront⟩
              exact hreported hfront
          | rise high => exact hreported (hfilled.rise hstandard hlawful.1 hown)
          | fall block low =>
              rcases hlawful with ⟨hblock, hchild⟩
              rcases hfilled.fall hstandard hblock hchild hown with ⟨front, hfront⟩
              exact hreported hfront

end Chronicle

end ChainIndex
