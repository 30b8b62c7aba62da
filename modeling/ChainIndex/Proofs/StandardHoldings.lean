import ChainIndex.Proofs.OwnKeys

/-!
# What the standard indexes add and take out

The edits of an index for one more block add the entries of the block to those that the table
holds, and the edits that undo the block take the same entries out again.  Other entries may
be there as long as none of them is under the stem of the index.
-/

namespace ChainIndex

variable {table : Table} {others : Entries} {entry : Bytes × Bytes} {block : Block}

/-!
# Heights
-/

namespace Heights

variable {blocks : List Block}

theorem stem_entriesOf (h : entry ∈ entriesOf block) : stem <+: entry.1 := by
  rcases key_of_mem h with hkey | hkey
  · rw [hkey]
    exact stem_hashKey block.hash
  · rw [hkey]
    exact stem_heightKey block.height

theorem stem_entries (h : entry ∈ entries blocks) : stem <+: entry.1 := by
  rcases List.mem_flatMap.mp h with ⟨block, _, hentry⟩
  exact stem_entriesOf hentry

theorem lacks_own (hothers : others.Outside stem)
    (hhash : ∀ other ∈ blocks, other.hash ≠ block.hash)
    (hheight : ∀ other ∈ blocks, other.height ≠ block.height) :
    ∀ entry ∈ entriesOf block, (others ++ entries blocks).Lacks entry.1 := by
  intro entry hentry
  exact (hothers.lacks (stem_entriesOf hentry)).append
    (entries_lacks hhash hheight entry hentry)

theorem holds_entered (hothers : others.Outside stem) (h : table.Holds (others ++ entries blocks))
    (hhash : ∀ other ∈ blocks, other.hash ≠ block.hash)
    (hheight : ∀ other ∈ blocks, other.height ≠ block.height) :
    (table.commit (edits block .apply)).Holds (others ++ entries (blocks ++ [block])) := by
  have hentered := h.enter (entriesOf_distinct block) (lacks_own hothers hhash hheight)
  rw [List.append_assoc, ← entries_snoc] at hentered
  exact hentered

theorem holds_removed (hothers : others.Outside stem)
    (h : table.Holds (others ++ entries (blocks ++ [block])))
    (hhash : ∀ other ∈ blocks, other.hash ≠ block.hash)
    (hheight : ∀ other ∈ blocks, other.height ≠ block.height) :
    (table.commit (edits block .undo)).Holds (others ++ entries blocks) := by
  rw [entries_snoc, ← List.append_assoc] at h
  exact h.remove (entriesOf_distinct block) (lacks_own hothers hhash hheight)

end Heights

/-!
# Times
-/

namespace Times

variable {lower : List Block} {time : Int64}

theorem stem_keyOf (time : Int) : stem <+: keyOf time :=
  ⟨Bytes.ofText "t/" ++ Numeral.hex 16 (time - Int64.minValue.toInt).toNat, rfl⟩

theorem stem_entriesOf {pair : Block × Int} (h : entry ∈ entriesOf pair) : stem <+: entry.1 := by
  rcases key_of_mem h with hkey | hkey
  · rw [hkey]
    exact stem_blockKey pair.1.hash
  · rw [hkey]
    exact stem_keyOf pair.2

theorem stem_entries (h : entry ∈ entries lower) : stem <+: entry.1 := by
  rcases List.mem_append.mp h with hpair | hlast
  · rcases List.mem_flatMap.mp hpair with ⟨pair, _, hentry⟩
    exact stem_entriesOf hentry
  · rcases List.mem_map.mp hlast with ⟨last, _, rfl⟩
    exact stem_lastKey

/-!
# Times that can be written
-/

theorem Fit.of_snoc (h : Fit (lower ++ [block])) : Fit lower := by
  intro pair hpair
  apply h
  rw [assigned_none_snoc]
  exact List.mem_append_left _ hpair

theorem Fit.snoc (h : Fit lower)
    (htime : follow block.header.timestamp.toInt (final lower) ≤ Int64.maxValue.toInt) :
    Fit (lower ++ [block]) := by
  intro pair hpair
  rw [assigned_none_snoc] at hpair
  rcases List.mem_append.mp hpair with hearlier | hlast
  · exact h pair hearlier
  · rw [List.mem_singleton.mp hlast]
    exact htime

theorem Fit.word (h : Fit lower) {pair : Block × Int} (hpair : pair ∈ assigned none lower) :
    Word pair.2 :=
  ⟨(mem_assigned hpair).2, h pair hpair⟩

theorem Fit.final (h : Fit lower) : ∀ time ∈ final lower, Word time := by
  intro time htime
  rcases Option.map_eq_some_iff.mp htime with ⟨pair, hlast, rfl⟩
  exact h.word (List.mem_of_getLast? hlast)

theorem Fit.toInt_final (h : Fit lower) :
    ((Times.final lower).map Int64.ofInt).map Int64.toInt = Times.final lower := by
  cases hfinal : Times.final lower with
  | none => rfl
  | some time => exact congrArg some (h.final time hfinal).toInt_ofInt

theorem mem_assigned_append {front back : List Block} {pair : Block × Int}
    (h : pair ∈ assigned none front) : pair ∈ assigned none (front ++ back) := by
  induction back using List.reverseRecOn with
  | nil =>
      rw [List.append_nil]
      exact h
  | append_singleton back block ih =>
      rw [← List.append_assoc, assigned_none_snoc]
      exact List.mem_append_left _ ih

/-!
# Entries of one more block

The entry of the last time is written anew with each block, so it is kept apart from those of
the blocks.
-/

theorem lacks_own (hothers : others.Outside stem) (hfit : Fit lower)
    (hhash : ∀ other ∈ lower, other.hash ≠ block.hash)
    (htime : time.toInt = follow block.header.timestamp.toInt (final lower)) (last : Option Int) :
    ∀ entry ∈ entriesOf (block, time.toInt),
      (others ++ (pairEntries lower ++ lastEntry last)).Lacks entry.1 := by
  intro entry hentry
  refine (hothers.lacks (stem_entriesOf hentry)).append
    (entries_lacks hfit hhash ?_ ?_ last entry hentry)
  · intro other hother
    show other.2 < time.toInt
    rw [htime]
    exact lt_follow hother _
  · exact ⟨Int64.minValue_le_toInt time, Int64.toInt_le time⟩

theorem lastEntry_erased (final : Option Int) : Entries.erase lastKey (lastEntry final) = [] := by
  cases final with
  | none => rfl
  | some time => simp [lastEntry, Entries.erase]

theorem holds_last {front : Entries} {final : Option Int}
    (h : table.Holds (front ++ lastEntry final)) (hlacks : front.Lacks lastKey)
    (found : Option Int64) :
    (table.apply (match found with
      | some time => .put lastKey (written time)
      | none => .erase lastKey)).Holds (front ++ lastEntry (found.map Int64.toInt)) := by
  have herased : Entries.erase lastKey (front ++ lastEntry final) = front := by
    have hfront := hlacks.erase_eq
    have hlast := lastEntry_erased final
    unfold Entries.erase at hfront hlast ⊢
    rw [List.filter_append, hfront, hlast, List.append_nil]
  cases found with
  | none =>
      have hnone := h.erase lastKey
      rw [herased] at hnone
      show (table.apply (.erase lastKey)).Holds (front ++ [])
      rw [List.append_nil]
      exact hnone
  | some time =>
      have hsome := h.put lastKey (written time)
      rw [herased] at hsome
      exact hsome

theorem pairEntries_snoc (lower : List Block) (block : Block) :
    pairEntries (lower ++ [block]) = pairEntries lower ++
      entriesOf (block, follow block.header.timestamp.toInt (final lower)) := by
  rw [pairEntries, assigned_none_snoc, List.flatMap_append, List.flatMap_singleton]
  rfl

theorem mem_regrouped (others : Entries) (lower : List Block) (block : Block)
    (last : Option Int) (entry : Bytes × Bytes) :
    entry ∈ (others ++ (pairEntries lower ++ lastEntry last)) ++
        entriesOf (block, follow block.header.timestamp.toInt (final lower)) ↔
      entry ∈ (others ++ pairEntries (lower ++ [block])) ++ lastEntry last := by
  rw [pairEntries_snoc]
  simp only [List.mem_append]
  tauto

theorem lacks_last (hothers : others.Outside stem) (lower : List Block) :
    (others ++ pairEntries lower).Lacks lastKey :=
  (hothers.lacks stem_lastKey).append (pairEntries_lacks_last lower)

theorem holds_applied (hothers : others.Outside stem) (hfit : Fit lower)
    (h : table.Holds (others ++ entries lower))
    (hhash : ∀ other ∈ lower, other.hash ≠ block.hash)
    (htime : time.toInt = follow block.header.timestamp.toInt (final lower)) :
    (table.commit (applied block time)).Holds (others ++ entries (lower ++ [block])) := by
  have hentered := h.enter (entriesOf_distinct (block, time.toInt))
    (lacks_own hothers hfit hhash htime (final lower))
  rw [htime] at hentered
  have hpairs := hentered.congr (mem_regrouped others lower block (final lower))
  have hlast := holds_last hpairs (lacks_last hothers _) (some time)
  rw [← htime] at hlast
  rw [entries_eq, final_snoc, ← htime, ← List.append_assoc]
  exact hlast

theorem holds_undone (hothers : others.Outside stem) (hfit : Fit lower)
    (h : table.Holds (others ++ entries (lower ++ [block])))
    (hhash : ∀ other ∈ lower, other.hash ≠ block.hash)
    (htime : time.toInt = follow block.header.timestamp.toInt (final lower))
    {found : Option Int64} (hfound : found.map Int64.toInt = final lower) :
    (table.commit (undone block time found)).Holds (others ++ entries lower) := by
  rw [entries_eq, final_snoc, ← List.append_assoc] at h
  have hpairs := h.congr fun entry => (mem_regrouped others lower block _ entry).symm
  rw [← htime] at hpairs
  have hremoved := hpairs.remove (entriesOf_distinct (block, time.toInt))
    (lacks_own hothers hfit hhash htime (some time.toInt))
  rw [← List.append_assoc] at hremoved
  have hlast := holds_last hremoved (lacks_last hothers lower) found
  rw [hfound, List.append_assoc] at hlast
  exact hlast

/-!
# Reading the times back
-/

theorem get?_lastKey (hothers : others.Outside stem) (h : table.Holds (others ++ entries lower)) :
    table.get? lastKey = (final lower).map Numeral.signed := by
  rw [entries_eq] at h
  cases hfinal : final lower with
  | none =>
      apply h.get?_eq_none (ne_tip_of_stem stem_lastKey)
      rw [hfinal]
      show Entries.Lacks (others ++ (pairEntries lower ++ [])) lastKey
      rw [List.append_nil]
      exact lacks_last hothers lower
  | some time =>
      refine (h lastKey (ne_tip_of_stem stem_lastKey) _).mpr ?_
      rw [hfinal]
      exact List.mem_append_right _ (List.mem_append_right _ List.mem_cons_self)

theorem get?_blockKey_of_mem (h : table.Holds (others ++ entries lower)) {pair : Block × Int}
    (hpair : pair ∈ assigned none lower) :
    table.get? (blockKey pair.1.hash) = some (Numeral.signed pair.2) := by
  refine (h _ (ne_tip_of_stem (stem_blockKey _)) _).mpr ?_
  have hentry : (blockKey pair.1.hash, Numeral.signed pair.2) ∈ pairEntries lower :=
    List.mem_flatMap.mpr ⟨pair, hpair, List.mem_cons_self⟩
  exact List.mem_append_right _ (List.mem_append_left _ hentry)

theorem get?_blockKey_of_not_mem (hothers : others.Outside stem)
    (h : table.Holds (others ++ entries lower)) {hash : BlockHash}
    (hhash : ∀ other ∈ lower, other.hash ≠ hash) : table.get? (blockKey hash) = none := by
  apply h.get?_eq_none (ne_tip_of_stem (stem_blockKey hash))
  refine (hothers.lacks (stem_blockKey hash)).append ?_
  intro entry hentry hsame
  rcases List.mem_append.mp hentry with hpair | hlast
  · rcases List.mem_flatMap.mp hpair with ⟨pair, hpair, hmem⟩
    rcases key_of_mem hmem with hkey | hkey
    · exact hhash pair.1 (mem_assigned hpair).1 (blockKey_injective (hkey.symm.trans hsame))
    · exact blockKey_ne_keyOf (hsame.symm.trans hkey)
  · rcases List.mem_map.mp hlast with ⟨last, _, rfl⟩
    rw [blockKey_eq, lastKey_eq] at hsame
    simp at hsame

theorem mem_assigned_snoc (lower : List Block) (block : Block) :
    (block, follow block.header.timestamp.toInt (final lower)) ∈
      assigned none (lower ++ [block]) := by
  rw [assigned_none_snoc]
  exact List.mem_append_right _ List.mem_cons_self

theorem get?_blockKey_snoc {front back : List Block}
    (h : table.Holds (others ++ entries (front ++ [block] ++ back))) :
    table.get? (blockKey block.hash) = (final (front ++ [block])).map Numeral.signed := by
  rw [final_snoc]
  exact get?_blockKey_of_mem h (mem_assigned_append (mem_assigned_snoc front block))

/-!
# Edits on such a table
-/

theorem edits_apply_clear (hfit : Fit lower)
    (hlast : table.get? lastKey = (final lower).map Numeral.signed) (block : Block) :
    edits block .apply (.clear table) =
      if follow block.header.timestamp.toInt (final lower) ≤ Int64.maxValue.toInt then
        .ok (applied block (Int64.ofInt (follow block.header.timestamp.toInt (final lower))))
      else .error .overflow := by
  have hread : last (.clear table) = .ok ((final lower).map Int64.ofInt) :=
    stored_eq rfl hfit.final hlast
  rw [edits_apply_eq, hread]
  dsimp only
  rw [assign_eq, hfit.toInt_final]
  by_cases hfits : follow block.header.timestamp.toInt (final lower) ≤ Int64.maxValue.toInt
  · rw [if_pos hfits, if_pos hfits]
  · rw [if_neg hfits, if_neg hfits]

theorem timeOf_clear {time : Int} (hword : Word time) {hash : BlockHash}
    (htime : table.get? (blockKey hash) = some (Numeral.signed time)) :
    timeOf (.clear table) hash = .ok (some (Int64.ofInt time)) := by
  have hwords : ∀ stated ∈ some time, Word stated := by
    intro stated hstated
    cases hstated
    exact hword
  have hread : timeOf (.clear table) hash = .ok ((some time).map Int64.ofInt) :=
    stored_eq rfl hwords htime
  exact hread

theorem edits_undo_clear {time : Int} (hword : Word time)
    (htime : table.get? (blockKey block.hash) = some (Numeral.signed time))
    {found : Option Int64} (hparent : parentTime (.clear table) block = .ok found) :
    edits block .undo (.clear table) = .ok (undone block (Int64.ofInt time) found) := by
  rw [edits_undo_eq, timeOf_clear hword htime]
  dsimp only
  rw [hparent]

end Times

end ChainIndex
