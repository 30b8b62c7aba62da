import ChainIndex.Proofs.OwnKeys
import ChainIndex.Proofs.Serving

/-!
# Heights in sight of the serial track

The serial track never moves onto a block, or off one, that the concurrent track is not
at or above.  So whenever its indexes are asked for edits, the height of the block in
question is to be read from the table they are given, as long as nothing but the index
of heights writes under the keys of that index.
-/

namespace ChainIndex

/-!
# Edits of several blocks
-/

namespace Gathered

variable {catalogue : Catalogue} {table : Table} {track : Track} {direction : Direction}
variable {blocks : List Block} {edits : List Edit}

theorem exists_of_mem (h : Gathered catalogue table track direction blocks edits) {edit : Edit}
    (hedit : edit ∈ edits) :
    ∃ block ∈ blocks, ∃ index ∈ catalogue.on track, ∃ outages own,
      index.edits block direction ⟨table, outages⟩ = .ok own ∧ edit ∈ own := by
  induction h with
  | none => cases hedit
  | @more block rest outages own edits hown _ ih =>
      rcases List.mem_append.mp hedit with hedit | hedit
      · rcases Catalogue.exists_of_mem_gather hown hedit with ⟨index, hindex, hfrom⟩
        exact ⟨block, List.mem_cons_self, index, hindex, outages, hfrom⟩
      · rcases ih hedit with ⟨other, hother, hfrom⟩
        exact ⟨other, List.mem_cons_of_mem _ hother, hfrom⟩

theorem exists_of_mem_blocks (h : Gathered catalogue table track direction blocks edits)
    {block : Block} (hblock : block ∈ blocks)
    {index : Index} (hindex : index ∈ catalogue.on track) :
    ∃ outages own, index.edits block direction ⟨table, outages⟩ = .ok own ∧
      ∀ edit ∈ own, edit ∈ edits := by
  induction h with
  | none => cases hblock
  | @more first rest outages own edits hown _ ih =>
      rcases List.mem_cons.mp hblock with rfl | hblock
      · rcases Catalogue.exists_of_mem_indexes hown hindex with ⟨found, hfound, hsub⟩
        exact ⟨outages, found, hfound,
          fun edit hedit => List.mem_append_left edits (hsub edit hedit)⟩
      · rcases ih hblock with ⟨outages, found, hfound, hsub⟩
        exact ⟨outages, found, hfound,
          fun edit hedit => List.mem_append_right own (hsub edit hedit)⟩

end Gathered

/-!
# Catalogues with the index of heights
-/

/-- The index of heights is in use, and every other index leaves its keys and those of the
tips alone. -/
structure Catalogue.HasHeights (catalogue : Catalogue) : Prop where
  mem : Heights.index ∈ catalogue
  others : ∀ index ∈ catalogue, index ≠ Heights.index → index.SparesTips ∧
    ∀ block direction view edits, index.edits block direction view = .ok edits →
      ∀ edit ∈ edits, ¬ Heights.stem <+: edit.key

namespace Heights

variable {tree : BlockTree} {catalogue : Catalogue} {table : Table} {block other : Block}
variable {direction : Direction} {view : View} {edits : List Edit}

theorem track_index : index.track = .concurrent :=
  rfl

theorem hash_eq_of_key {edit : Edit} (hedit : edit ∈ Heights.edits other direction)
    (hkey : edit.key = hashKey block.hash) :
    other.hash = block.hash ∧
      (direction = .apply →
        edit = .put (hashKey other.hash) (Numeral.decimal other.height.toNat)) := by
  cases direction with
  | apply =>
      rcases List.mem_cons.mp hedit with rfl | hedit
      · exact ⟨hashKey_injective hkey, fun _ => rfl⟩
      · rw [List.mem_singleton.mp hedit] at hkey
        exact absurd hkey.symm hashKey_ne_heightKey
  | undo =>
      rcases List.mem_cons.mp hedit with rfl | hedit
      · exact ⟨hashKey_injective hkey, fun happly => by cases happly⟩
      · rw [List.mem_singleton.mp hedit] at hkey
        exact absurd hkey.symm hashKey_ne_heightKey

end Heights

namespace Catalogue.HasHeights

variable {tree : BlockTree} {catalogue : Catalogue} {table : Table} {block other : Block}
variable {track : Track} {direction : Direction} {view : View} {blocks : List Block}
variable {edits own : List Edit} {edit : Edit}

theorem sparesTips (h : catalogue.HasHeights) : catalogue.SparesTips := by
  intro index hindex
  by_cases hheights : index = Heights.index
  · rw [hheights]
    exact Heights.writesUnder.sparesTips Heights.apart_tips
  · exact (h.others index hindex hheights).1

theorem gathered_key (h : catalogue.HasHeights)
    (hedits : Gathered catalogue table track direction blocks edits) (hedit : edit ∈ edits)
    (hkey : edit.key = Heights.hashKey block.hash) :
    track = .concurrent ∧ ∃ other ∈ blocks, other.hash = block.hash ∧
      (direction = .apply → edit =
        .put (Heights.hashKey other.hash) (Numeral.decimal other.height.toNat)) := by
  rcases hedits.exists_of_mem hedit with ⟨other, hother, index, hindex, outages, own, hown, hmem⟩
  rcases List.mem_filter.mp hindex with ⟨hindex, htrack⟩
  by_cases hheights : index = Heights.index
  · subst hheights
    cases hown
    refine ⟨(of_decide_eq_true htrack).symm.trans Heights.track_index, other, hother, ?_⟩
    exact Heights.hash_eq_of_key hmem hkey
  · have hnot := (h.others index hindex hheights).2 other direction _ own hown edit hmem
    rw [hkey] at hnot
    exact absurd (Heights.stem_hashKey block.hash) hnot

theorem gathered_entry (h : catalogue.HasHeights)
    (hedits : Gathered catalogue table .concurrent .apply blocks edits) (hblock : block ∈ blocks) :
    .put (Heights.hashKey block.hash) (Numeral.decimal block.height.toNat) ∈ edits := by
  have hindex : Heights.index ∈ catalogue.on .concurrent := by
    rw [Catalogue.on, List.mem_filter]
    exact ⟨h.mem, rfl⟩
  rcases hedits.exists_of_mem_blocks hblock hindex with ⟨outages, own, hown, hsub⟩
  cases hown
  exact hsub _ List.mem_cons_self

end Catalogue.HasHeights

/-!
# Heights in the table
-/

theorem Table.get?_commit_of_only (table : Table) {edits : List Edit} {key value : Bytes}
    (honly : ∀ edit ∈ edits, edit.key = key → edit = .put key value)
    (hthere : table.get? key = some value ∨ .put key value ∈ edits) :
    (table.commit edits).get? key = some value := by
  induction edits generalizing table with
  | nil => exact hthere.resolve_right List.not_mem_nil
  | cons edit rest ih =>
      rw [commit_cons]
      apply ih _ fun later hlater => honly later (List.mem_cons_of_mem _ hlater)
      by_cases hkey : edit.key = key
      · left
        rw [honly edit List.mem_cons_self hkey, get?_apply_put, if_pos rfl]
      · rcases hthere with hthere | hput
        · left
          rw [get?_apply_of_ne table hkey]
          exact hthere
        · rcases List.mem_cons.mp hput with rfl | hlater
          · exact absurd rfl hkey
          · exact Or.inr hlater

/-- Every block on the way from the genesis to the concurrent tip has its height in the
table; the genesis has none. -/
def Standing.ShowsHeights (tree : BlockTree) (standing : Standing) : Prop :=
  ∀ block, tree.Below block standing.concurrent → block ≠ tree.genesis →
    standing.table.get? (Heights.hashKey block.hash) =
      some (Numeral.decimal block.height.toNat)

namespace Standing.ShowsHeights

variable {tree : BlockTree} {catalogue : Catalogue} {standing : Standing} {move : Move}
variable {own : List Edit}

theorem get?_after (standing : Standing) (move : Move) (own : List Edit) (hash : BlockHash) :
    (standing.after move own).table.get? (Heights.hashKey hash) =
      (standing.table.commit own).get? (Heights.hashKey hash) :=
  Frontier.get?_commit_edit_of_ne _ _ _ (Heights.ne_tip_of_stem (Heights.stem_hashKey hash) _).symm

/-- A move that writes nothing under the hashes of the blocks that stay below the concurrent
tip leaves their heights where they are. -/
theorem kept (h : standing.ShowsHeights tree)
    (hbelow : ∀ block, tree.Below block (standing.after move own).concurrent →
      tree.Below block standing.concurrent)
    (huntouched : ∀ block, tree.Below block (standing.after move own).concurrent →
      block ≠ tree.genesis → ∀ edit ∈ own, edit.key ≠ Heights.hashKey block.hash) :
    (standing.after move own).ShowsHeights tree := by
  intro block hblock hne
  rw [get?_after, Table.get?_commit_of_untouched _ (huntouched block hblock hne)]
  exact h block (hbelow block hblock) hne

theorem moved (h : standing.ShowsHeights tree) (hheights : catalogue.HasHeights)
    (hlawful : move.IsLawful tree standing) (hmem : standing.concurrent ∈ tree)
    (hown : Gathered catalogue standing.table move.track move.direction move.blocks own) :
    (standing.after move own).ShowsHeights tree := by
  -- The serial track writes nothing under these keys.
  have hserial (htrack : move.track = .serial) :
      (standing.after move own).ShowsHeights tree := by
    have hsame : (standing.after move own).concurrent = standing.concurrent := by
      show (if move.track = .concurrent then _ else _ : Block) = _
      rw [htrack, if_neg (by decide)]
    refine h.kept (fun block hblock => hsame ▸ hblock) fun block _ _ edit hedit hkey => ?_
    have hconcurrent := (hheights.gathered_key hown hedit hkey).1
    rw [htrack] at hconcurrent
    cases hconcurrent
  cases move with
  | rise high => exact hserial rfl
  | fall block low => exact hserial rfl
  | shrink gone low =>
      rcases hlawful with ⟨rfl, hchild, _⟩
      refine h.kept (fun block hblock => BlockTree.Below.up hblock hchild) ?_
      intro block hblock _ edit hedit hkey
      have hlow : tree.Below block low := hblock
      rcases (hheights.gathered_key hown hedit hkey).2 with ⟨other, hother, hhash, _⟩
      rw [show other = standing.concurrent from List.mem_singleton.mp hother] at hhash
      have heq := BlockTree.eq_of_hash_eq hmem (hlow.mem hchild.1) hhash
      have hheight := hchild.height
      have hle := hlow.height_le
      rw [← heq] at hle
      omega
  | grow blocks high =>
      have hclimb : tree.Climb standing.concurrent blocks high := hlawful
      intro block hblock hne
      have hhigh : tree.Below block high := hblock
      rw [get?_after]
      apply Table.get?_commit_of_only
      · intro edit hedit hkey
        rcases (hheights.gathered_key hown hedit hkey).2 with ⟨other, hother, hhash, hput⟩
        have heq := BlockTree.eq_of_hash_eq (hclimb.mem hother)
          (hhigh.mem (hclimb.high_mem hmem)) hhash
        rw [hput rfl, heq]
      · by_cases hpassed : tree.Below block standing.concurrent
        · exact Or.inl (h block hpassed hne)
        · right
          have habove : tree.Below standing.concurrent block := by
            rcases Nat.le_total standing.concurrent.height.toNat block.height.toNat with hle | hle
            · exact hclimb.isBelow.total hhigh hle
            · exact absurd (hhigh.total hclimb.isBelow hle) hpassed
          rcases List.mem_cons.mp (hclimb.mem_iff.mpr ⟨habove, hhigh⟩) with rfl | hpart
          · exact absurd (.refl _) hpassed
          · exact hheights.gathered_entry hown hpart

end Standing.ShowsHeights

namespace Chronicle

variable {tree : BlockTree} {catalogue : Catalogue} {course : List Entry} {standing : Standing}

theorem showsHeights (hheights : catalogue.HasHeights)
    (h : Chronicle tree catalogue course standing) : standing.ShowsHeights tree := by
  induction h with
  | blank =>
      intro block hbelow hne
      have hgenesis : tree.Below block tree.genesis := hbelow
      have hzero := hgenesis.height_le
      rw [tree.height_genesis] at hzero
      exact absurd (hgenesis.antisymm (.genesis (hgenesis.mem tree.genesis_mem))) hne
  | @next entry past before after hpast hstep ih =>
      cases hstep with
      | quiet _ _ => exact ih
      | consulted _ _ _ => exact ih
      | told _ => exact ih
      | moved hlawful hown _ => exact ih.moved hheights hlawful hpast.order.1 hown

theorem advance_of_mem (h : Chronicle tree catalogue course standing) {entry : Entry}
    (hentry : entry ∈ course) : ∃ past before after,
      Chronicle tree catalogue past before ∧ Advance tree catalogue before entry after := by
  induction h with
  | blank => cases hentry
  | @next latest past before after hpast hstep ih =>
      rcases List.mem_cons.mp hentry with rfl | hearlier
      · exact ⟨past, before, after, hpast, hstep⟩
      · exact ih hearlier

end Chronicle

theorem Standing.Concerns.below_concurrent {tree : BlockTree} {standing : Standing} {block : Block}
    {direction : Direction} (h : standing.Concerns tree block .serial direction)
    (horder : tree.Below standing.serial standing.concurrent) :
    tree.Below block standing.concurrent ∧ block ≠ tree.genesis := by
  cases direction with
  | apply => exact ⟨h.2, h.1.ne_genesis⟩
  | undo =>
      rcases h with ⟨rfl, hne⟩
      exact ⟨horder, hne⟩

/-!
# Reading a height
-/

theorem Heights.heightOf_eq {view : View} {block : Block}
    (hreads : view.outages.onGet (hashKey block.hash) = none)
    (hvalue : view.table.get? (hashKey block.hash) =
      some (Numeral.decimal block.height.toNat))
    (hlow : block.height.toNat < 2 ^ 63) :
    heightOf view block.hash = .ok (some block.height) := by
  have hmin : Int64.minValue.toInt = -2 ^ 63 := rfl
  have hmax : Int64.maxValue.toInt = 2 ^ 63 - 1 := rfl
  have hword : Numeral.signedWord? (block.height.toNat : Int) =
      some (Int64.ofInt block.height.toNat) := if_pos ⟨by omega, by omega⟩
  have hback : (Int64.ofInt block.height.toNat).toUInt64 = block.height := by
    rw [Int64.ofInt_eq_ofNat, Int64.toUInt64_ofNat', UInt64.ofNat_toNat]
  have hstored : storedInteger name (Numeral.decimal block.height.toNat) =
      .ok (Int64.ofInt block.height.toNat) := by
    rw [storedInteger, Numeral.integer?_decimal, Option.bind_some, hword]
  unfold heightOf View.get?
  rw [hreads, hvalue]
  show (do return some (← storedInteger name (Numeral.decimal block.height.toNat)).toUInt64 :
    Except Fault (Option UInt64)) = _
  rw [hstored]
  show Except.ok (some (Int64.ofInt block.height.toNat).toUInt64) = _
  rw [hback]

/-- Whenever the indexes of the serial track are asked for the edits of a block, in either
direction, the table that they are given tells the height of that block to whoever can read
it. -/
theorem serial_track_reads_heights {tree : BlockTree} {catalogue : Catalogue} {world : World σ}
    (hheights : catalogue.HasHeights) (hlow : ∀ block ∈ tree, block.height.toNat < 2 ^ 63)
    (h : Reached tree catalogue world) {block : Block} {direction : Direction} {view : View}
    (hasked : .consulted .serial block direction view ∈ world.course) (outages : Outages)
    (hreads : outages.onGet (Heights.hashKey block.hash) = none) :
    Heights.heightOf ⟨view.table, outages⟩ block.hash = .ok (some block.height) := by
  rcases h.sound hheights.sparesTips with ⟨standing, intake, hstands⟩
  rcases hstands.chronicle.advance_of_mem hasked with ⟨past, before, after, hpast, hstep⟩
  cases hstep with
  | quiet hquiet _ => exact hquiet.elim
  | consulted htable hconcerns _ =>
      rcases hpast.order with ⟨hmem, horder⟩
      rcases hconcerns.below_concurrent horder with ⟨hbelow, hne⟩
      refine Heights.heightOf_eq hreads ?_ (hlow block (hbelow.mem hmem))
      rw [show (⟨view.table, outages⟩ : View).table = before.table from htable]
      exact hpast.showsHeights hheights block hbelow hne

namespace Sample

theorem hasHeights : catalogue.HasHeights where
  mem := List.mem_cons_self
  others := by
    intro index hindex hne
    rcases Catalogue.mem_standard hindex with rfl | rfl
    · exact absurd rfl hne
    · refine ⟨standard.sparesTips _ hindex, ?_⟩
      intro block direction view edits hedits edit hedit
      have hapart : Times.stem.Apart Heights.stem := by decide
      exact hapart.not_under (Times.writesUnder block direction view edits hedits edit hedit)

theorem low : ∀ block ∈ tree, block.height.toNat < 2 ^ 63 := by
  intro block hblock
  have hfind : chain.find? block.hash = some block := hblock
  have hmem := List.mem_of_find?_eq_some hfind
  have hall : ∀ block ∈ chain.blocks, block.height.toNat < 2 ^ 63 := by decide
  exact hall block hmem

end Sample

def Entry.asksFor (track : Track) (block : Block) (direction : Direction) : Entry → Bool
  | .consulted t b d _ => t = track ∧ b = block ∧ d = direction
  | _ => false

theorem Entry.exists_view {course : List Entry} {track : Track} {block : Block}
    {direction : Direction} (h : course.any (asksFor track block direction) = true) :
    ∃ view, .consulted track block direction view ∈ course := by
  rcases List.any_eq_true.mp h with ⟨entry, hentry, hasks⟩
  cases entry with
  | consulted t b d view =>
      rcases of_decide_eq_true hasks with ⟨rfl, rfl, rfl⟩
      exact ⟨view, hentry⟩
  | _ => cases hasks

/-- The block beside the best chain is taken off the serial track, and its height is read. -/
theorem serial_track_reads_heights_of_sample :
    Sample.catalogue.HasHeights ∧ Reached Sample.tree Sample.catalogue Sample.synced ∧
      ∃ view, .consulted .serial Sample.beside .undo view ∈ Sample.synced.course ∧
        Heights.heightOf ⟨view.table, .none⟩ Sample.beside.hash = .ok (some 1) := by
  have hasks : Sample.synced.course.any (Entry.asksFor .serial Sample.beside .undo) = true := by
    decide +kernel
  rcases Entry.exists_view hasks with ⟨view, hasked⟩
  refine ⟨Sample.hasHeights, Sample.reached_synced, view, hasked, ?_⟩
  exact serial_track_reads_heights Sample.hasHeights Sample.low Sample.reached_synced hasked .none
    rfl

end ChainIndex
