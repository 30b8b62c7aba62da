import ChainIndex.Proofs.HeightsInSight
import ChainIndex.Proofs.LoneIndexes
import ChainIndex.Proofs.StandardHoldings

/-!
# Looking up heights and hashes

The index of heights finds the hash of every block that it holds by the block's height.  The
height is found by the hash only if it is below 2⁶³: greater ones are written as unsigned
numerals and read as signed ones, which fails.
-/

namespace ChainIndex

namespace Heights

variable {start table : Table} {blocks others : List Block} {block : Block} {hash : BlockHash}
variable {height : UInt64} {foreign : Entries}

/-!
# What the index adds to a table
-/

theorem mem_entries_perm (h : blocks.Perm others) (entry : Bytes × Bytes) :
    entry ∈ entries blocks ↔ entry ∈ entries others :=
  (h.flatMap_right entriesOf).mem_iff

def Adds (start : Table) (blocks : List Block) (table : Table) : Prop :=
  table.Holds (start.entries ++ entries blocks)

namespace Adds

theorem begin (start : Table) : Adds start [] start := by
  show start.Holds (start.entries ++ [])
  rw [List.append_nil]
  exact .of_entries start

theorem put (h : Adds start blocks table) (hfree : start.Free stem)
    (hsundry : Sundry (blocks ++ [block])) :
    Adds start (blocks ++ [block]) (table.commit (edits block .apply)) :=
  holds_entered hfree.outside h (fun other hother => (hsundry.fresh other hother).1)
    fun other hother => (hsundry.fresh other hother).2

theorem take (h : Adds start blocks table) (hfree : start.Free stem) (hsundry : Sundry blocks)
    (hblock : block ∈ blocks) :
    Adds start (blocks.erase block) (table.commit (edits block .undo)) := by
  -- Which entries there are does not depend on the order, so the block may stand last.
  have hperm : blocks.Perm (blocks.erase block ++ [block]) :=
    (List.perm_cons_erase hblock).trans (List.perm_append_singleton _ _).symm
  have hlast := hsundry.perm hperm
  have hheld : table.Holds (start.entries ++ entries (blocks.erase block ++ [block])) := by
    apply h.congr
    intro entry
    rw [List.mem_append, List.mem_append, mem_entries_perm hperm]
  exact holds_removed hfree.outside hheld (fun other hother => (hlast.fresh other hother).1)
    fun other hother => (hlast.fresh other hother).2

end Adds

theorem step_eq (table : Table) (block : Block) (direction : Direction) :
    index.step table block direction = (.ok (), table.commit (edits block direction)) :=
  rfl

theorem adds_of_collects (hfree : start.Free stem) (h : index.Collects start blocks table) :
    Adds start blocks table := by
  induction h with
  | begin => exact .begin start
  | put _ hsundry hafter ih =>
      cases hafter
      exact ih.put hfree hsundry
  | take hbefore hblock hafter ih =>
      cases hafter
      exact ih.take hfree hbefore.sundry hblock

/-!
# Reading the entries back
-/

theorem get?_hashKey_of_mem (h : table.Holds (foreign ++ entries blocks))
    (hblock : block ∈ blocks) :
    table.get? (hashKey block.hash) = some (Numeral.decimal block.height.toNat) := by
  refine (h _ (ne_tip_of_stem (stem_hashKey _)) _).mpr ?_
  have hentry : (hashKey block.hash, Numeral.decimal block.height.toNat) ∈ entries blocks :=
    List.mem_flatMap.mpr ⟨block, hblock, List.mem_cons_self⟩
  exact List.mem_append_right _ hentry

theorem get?_heightKey_of_mem (h : table.Holds (foreign ++ entries blocks))
    (hblock : block ∈ blocks) :
    table.get? (heightKey block.height) = some (Bytes.ofText block.hash) := by
  refine (h _ (ne_tip_of_stem (stem_heightKey _)) _).mpr ?_
  have hentry : (heightKey block.height, Bytes.ofText block.hash) ∈ entries blocks :=
    List.mem_flatMap.mpr ⟨block, hblock, List.mem_cons_of_mem _ List.mem_cons_self⟩
  exact List.mem_append_right _ hentry

theorem get?_hashKey_of_not_mem (hforeign : foreign.Outside stem)
    (h : table.Holds (foreign ++ entries blocks)) (hhash : ∀ block ∈ blocks, block.hash ≠ hash) :
    table.get? (hashKey hash) = none := by
  apply h.get?_eq_none (ne_tip_of_stem (stem_hashKey hash))
  refine (hforeign.lacks (stem_hashKey hash)).append ?_
  intro entry hentry hsame
  rcases List.mem_flatMap.mp hentry with ⟨block, hblock, hentry⟩
  rcases key_of_mem hentry with hkey | hkey
  · exact hhash block hblock (hashKey_injective (hkey.symm.trans hsame))
  · exact hashKey_ne_heightKey (hsame.symm.trans hkey)

theorem get?_heightKey_of_not_mem (hforeign : foreign.Outside stem)
    (h : table.Holds (foreign ++ entries blocks))
    (hheight : ∀ block ∈ blocks, block.height ≠ height) :
    table.get? (heightKey height) = none := by
  apply h.get?_eq_none (ne_tip_of_stem (stem_heightKey height))
  refine (hforeign.lacks (stem_heightKey height)).append ?_
  intro entry hentry hsame
  rcases List.mem_flatMap.mp hentry with ⟨block, hblock, hentry⟩
  rcases key_of_mem hentry with hkey | hkey
  · exact hashKey_ne_heightKey (hkey.symm.trans hsame)
  · exact hheight block hblock (heightKey_injective (hkey.symm.trans hsame))

theorem storedInteger_decimal_high (hhigh : 2 ^ 63 ≤ height.toNat) :
    storedInteger name (Numeral.decimal height.toNat) =
      .error (.service name "corrupt integer value") := by
  have hmax : Int64.maxValue.toInt = 2 ^ 63 - 1 := rfl
  have hword : Numeral.signedWord? (height.toNat : Int) = none :=
    if_neg fun hfits => by omega
  rw [storedInteger, Numeral.integer?_decimal, Option.bind_some, hword]

theorem heightOf_clear (table : Table) (hash : BlockHash) :
    heightOf (.clear table) hash =
      match table.get? (hashKey hash) with
      | some bytes => do return some (← storedInteger name bytes).toUInt64
      | none => return none :=
  rfl

theorem hashAt_clear (table : Table) (height : UInt64) :
    hashAt (.clear table) height =
      match table.get? (heightKey height) with
      | some bytes => do return some (← storedText name bytes)
      | none => return none :=
  rfl

theorem heightOf_eq_error (h : table.get? (hashKey hash) = some (Numeral.decimal height.toNat))
    (hhigh : 2 ^ 63 ≤ height.toNat) :
    heightOf (.clear table) hash = .error (.service name "corrupt integer value") := by
  rw [heightOf_clear, h]
  dsimp only
  rw [storedInteger_decimal_high hhigh]
  rfl

theorem heightOf_eq_none (h : table.get? (hashKey hash) = none) :
    heightOf (.clear table) hash = .ok none := by
  rw [heightOf_clear, h]
  rfl

theorem hashAt_eq_some (h : table.get? (heightKey height) = some (Bytes.ofText hash)) :
    hashAt (.clear table) height = .ok (some hash) := by
  rw [hashAt_clear, h]
  dsimp only
  rw [storedText_ofText]
  rfl

theorem hashAt_eq_none (h : table.get? (heightKey height) = none) :
    hashAt (.clear table) height = .ok none := by
  rw [hashAt_clear, h]
  rfl

end Heights

/-- Blocks are put on a table without entries of the index of heights and taken off again in any
order, so that no two that are there at a time share a hash or a height.  Every step succeeds.
The hash of each block is found by its height, and nothing is found by other heights.  By the
hash of each block its height is found if it is below 2⁶³; a greater one is taken for a corrupt
value.  Nothing is found by other hashes. -/
theorem heights_are_read_below_the_sign_bit {start table : Table} {blocks : List Block}
    (hfree : start.Free Heights.stem) (h : Heights.index.Collects start blocks table) :
    (∀ block direction, ∃ after, Heights.index.step table block direction = (.ok (), after)) ∧
    (∀ block ∈ blocks, Heights.heightOf (.clear table) block.hash =
      if block.height.toNat < 2 ^ 63 then .ok (some block.height)
      else .error (.service Heights.name "corrupt integer value")) ∧
    (∀ hash, (∀ block ∈ blocks, block.hash ≠ hash) →
      Heights.heightOf (.clear table) hash = .ok none) ∧
    (∀ block ∈ blocks, Heights.hashAt (.clear table) block.height = .ok (some block.hash)) ∧
    ∀ height, (∀ block ∈ blocks, block.height ≠ height) →
      Heights.hashAt (.clear table) height = .ok none := by
  have hadds := Heights.adds_of_collects hfree h
  refine ⟨fun block direction => ⟨_, Heights.step_eq table block direction⟩, ?_, ?_, ?_, ?_⟩
  · intro block hblock
    have hvalue := Heights.get?_hashKey_of_mem hadds hblock
    split
    · rename_i hlow
      exact Heights.heightOf_eq rfl hvalue hlow
    · rename_i hhigh
      exact Heights.heightOf_eq_error hvalue (Nat.le_of_not_lt hhigh)
  · intro hash hhash
    exact Heights.heightOf_eq_none (Heights.get?_hashKey_of_not_mem hfree.outside hadds hhash)
  · intro block hblock
    exact Heights.hashAt_eq_some (Heights.get?_heightKey_of_mem hadds hblock)
  · intro height hheight
    exact Heights.hashAt_eq_none
      (Heights.get?_heightKey_of_not_mem hfree.outside hadds hheight)

namespace Sample

/-- A block at the least height that is not read back. -/
def lofty : Block := ⟨⟨"x", some "g", 9223372036854775808, 0⟩, []⟩

def shelved : Table :=
  ((((labelled.commit (Heights.edits first .apply)).commit
    (Heights.edits lofty .apply)).commit (Heights.edits second .apply)).commit
      (Heights.edits first .undo))

theorem collects : Heights.index.Collects labelled [lofty, second] shelved := by
  have hthree : Sundry ([first, lofty] ++ [second]) := by
    unfold Sundry
    decide
  have htwo : Sundry ([first] ++ [lofty]) := by
    unfold Sundry
    decide
  have hone : Sundry ([] ++ [first]) := List.pairwise_singleton _ _
  have hleft : [first, lofty, second].erase first = [lofty, second] := by decide
  rw [← hleft]
  refine .take ?_ List.mem_cons_self (Heights.step_eq _ _ _)
  exact .put (.put (.put .begin hone (Heights.step_eq _ _ _)) htwo (Heights.step_eq _ _ _)) hthree
    (Heights.step_eq _ _ _)

end Sample

theorem heights_are_read_below_the_sign_bit_of_sample :
    Sample.labelled.Free Heights.stem ∧
    Heights.index.Collects Sample.labelled [Sample.lofty, Sample.second] Sample.shelved ∧
    Heights.heightOf (.clear Sample.shelved) "x" =
      .error (.service "block" "corrupt integer value") ∧
    Heights.heightOf (.clear Sample.shelved) "b" = .ok (some 2) ∧
    Heights.heightOf (.clear Sample.shelved) "a" = .ok none ∧
    Heights.hashAt (.clear Sample.shelved) 9223372036854775808 = .ok (some "x") ∧
    Heights.hashAt (.clear Sample.shelved) 1 = .ok none := by
  have hfree : Sample.labelled.Free Heights.stem := Sample.labelled_free (by decide)
  rcases heights_are_read_below_the_sign_bit hfree Sample.collects with
    ⟨_, hheight, hnoHeight, hhash, hnoHash⟩
  refine ⟨hfree, Sample.collects, ?_, ?_, hnoHeight "a" (by decide), ?_, hnoHash 1 (by decide)⟩
  · exact hheight Sample.lofty List.mem_cons_self
  · exact hheight Sample.second (List.mem_cons_of_mem _ List.mem_cons_self)
  · exact hhash Sample.lofty List.mem_cons_self

end ChainIndex
