import ChainIndex.Index.Heights
import ChainIndex.Index.Times
import ChainIndex.Proofs.Holdings
import ChainIndex.Proofs.Numerals
import Mathlib.Data.List.Induction

/-!
# The entries of the standard indexes

For a path of blocks the index of heights has two entries for each block, and the
index of times has two more for each block and one for the path.  The times that are
assigned along a path ascend strictly, so no two of these entries share a key.
-/

namespace ChainIndex

/-!
# Heights
-/

namespace Heights

variable {hash : BlockHash} {height : UInt64} {blocks : List Block}

theorem hashKey_eq (hash : BlockHash) :
    hashKey hash = [98, 108, 111, 99, 107, 47, 104, 47] ++ Bytes.ofText hash :=
  rfl

theorem heightKey_eq (height : UInt64) :
    heightKey height = [98, 108, 111, 99, 107, 47, 110, 47] ++ Numeral.hex 16 height.toNat :=
  rfl

theorem hashKey_ne_heightKey : hashKey hash ≠ heightKey height := by
  simp [hashKey_eq, heightKey_eq]

theorem hashKey_injective {other : BlockHash} (h : hashKey hash = hashKey other) :
    hash = other :=
  Bytes.ofText_injective (List.append_cancel_left h)

theorem heightKey_injective {other : UInt64} (h : heightKey height = heightKey other) :
    height = other := by
  have hbound (word : UInt64) : word.toNat < 16 ^ 16 := word.toNat_lt
  exact UInt64.toNat_inj.mp
    (Numeral.hex_injective (hbound height) (hbound other) (List.append_cancel_left h))

def entriesOf (block : Block) : Entries :=
  [(hashKey block.hash, Numeral.decimal block.height.toNat),
    (heightKey block.height, Bytes.ofText block.hash)]

def entries (blocks : List Block) : Entries :=
  blocks.flatMap entriesOf

theorem entries_snoc (blocks : List Block) (block : Block) :
    entries (blocks ++ [block]) = entries blocks ++ entriesOf block := by
  simp [entries]

theorem key_of_mem {block : Block} {entry : Bytes × Bytes} (h : entry ∈ entriesOf block) :
    entry.1 = hashKey block.hash ∨ entry.1 = heightKey block.height := by
  rcases List.mem_cons.mp h with rfl | hrest
  · exact Or.inl rfl
  · rw [List.mem_singleton.mp hrest]
    exact Or.inr rfl

theorem entriesOf_distinct (block : Block) :
    (entriesOf block).Pairwise fun a b => a.1 ≠ b.1 := by
  simp [entriesOf, hashKey_ne_heightKey]

theorem entries_lacks {block : Block} (hhash : ∀ other ∈ blocks, other.hash ≠ block.hash)
    (hheight : ∀ other ∈ blocks, other.height ≠ block.height) :
    ∀ entry ∈ entriesOf block, (entries blocks).Lacks entry.1 := by
  intro entry hentry held hheld hsame
  rcases List.mem_flatMap.mp hheld with ⟨other, hother, hheld⟩
  rcases key_of_mem hheld with hheld | hheld
  · rw [hheld] at hsame
    rcases key_of_mem hentry with hkey | hkey
    · exact hhash other hother (hashKey_injective (hsame.trans hkey))
    · exact hashKey_ne_heightKey (hsame.trans hkey)
  · rw [hheld] at hsame
    rcases key_of_mem hentry with hkey | hkey
    · exact hashKey_ne_heightKey (hsame.trans hkey).symm
    · exact hheight other hother (heightKey_injective (hsame.trans hkey))

end Heights

/-!
# Times
-/

namespace Times

variable {hash : BlockHash} {time : Int} {blocks : List Block}

/-- The time of a block that states one, after a block with another. -/
def follow (stated : Int) : Option Int → Int
  | none => stated
  | some last => max stated (last + 1)

/-- The times assigned along a path that goes on from a block with the given time. -/
def assigned : Option Int → List Block → List (Block × Int)
  | _, [] => []
  | last, block :: rest =>
      let time := follow block.header.timestamp.toInt last
      (block, time) :: assigned (some time) rest

def final (blocks : List Block) : Option Int :=
  (assigned none blocks).getLast?.map Prod.snd

/-- The times along the path can be written. -/
def Fit (blocks : List Block) : Prop :=
  ∀ pair ∈ assigned none blocks, pair.2 ≤ Int64.maxValue.toInt

instance (blocks : List Block) : Decidable (Fit blocks) :=
  inferInstanceAs (Decidable (∀ pair ∈ assigned none blocks, pair.2 ≤ Int64.maxValue.toInt))

def keyOf (time : Int) : Bytes :=
  timeStem ++ Numeral.hex 16 (time - Int64.minValue.toInt).toNat

def entriesOf (pair : Block × Int) : Entries :=
  [(blockKey pair.1.hash, Numeral.signed pair.2), (keyOf pair.2, Bytes.ofText pair.1.hash)]

def lastEntry (final : Option Int) : Entries :=
  final.toList.map fun time => (lastKey, Numeral.signed time)

def entries (blocks : List Block) : Entries :=
  (assigned none blocks).flatMap entriesOf ++ lastEntry (final blocks)

/-!
# Assigned times
-/

theorem assigned_snoc (last : Option Int) (blocks : List Block) (block : Block) :
    assigned last (blocks ++ [block]) = assigned last blocks ++
      [(block, follow block.header.timestamp.toInt
        (((assigned last blocks).getLast?.map Prod.snd).or last))] := by
  induction blocks generalizing last with
  | nil => rfl
  | cons first rest ih =>
      rw [List.cons_append, assigned, ih, assigned, List.cons_append]
      congr 4
      cases hrest : assigned (some (follow first.header.timestamp.toInt last)) rest with
      | nil => rfl
      | cons pair more =>
          rw [List.getLast?_cons_cons, List.getLast?_eq_some_getLast (List.cons_ne_nil pair more)]
          rfl

theorem assigned_none_snoc (blocks : List Block) (block : Block) :
    assigned none (blocks ++ [block]) = assigned none blocks ++
      [(block, follow block.header.timestamp.toInt (final blocks))] := by
  rw [assigned_snoc, Option.or_none]
  rfl

theorem final_snoc (blocks : List Block) (block : Block) :
    final (blocks ++ [block]) = some (follow block.header.timestamp.toInt (final blocks)) := by
  rw [final, assigned_none_snoc, List.getLast?_append]
  rfl

theorem stated_le_follow (stated : Int) (last : Option Int) : stated ≤ follow stated last := by
  cases last with
  | none => exact Int.le_refl _
  | some last => exact Int.le_max_left _ _

theorem mem_assigned {last : Option Int} {pair : Block × Int} (h : pair ∈ assigned last blocks) :
    pair.1 ∈ blocks ∧ Int64.minValue.toInt ≤ pair.2 := by
  induction blocks generalizing last with
  | nil => cases h
  | cons block rest ih =>
      rcases List.mem_cons.mp h with rfl | hrest
      · refine ⟨List.mem_cons_self, Int.le_trans ?_ (stated_le_follow _ last)⟩
        simpa using Int64.minValue_le_toInt block.header.timestamp
      · rcases ih hrest with ⟨hmem, hle⟩
        exact ⟨List.mem_cons_of_mem _ hmem, hle⟩

theorem le_final {pair : Block × Int} (h : pair ∈ assigned none blocks) :
    ∃ last, final blocks = some last ∧ pair.2 ≤ last := by
  induction blocks using List.reverseRecOn with
  | nil => cases h
  | append_singleton blocks block ih =>
      refine ⟨_, final_snoc blocks block, ?_⟩
      rw [assigned_none_snoc] at h
      rcases List.mem_append.mp h with hearlier | hlast
      · rcases ih hearlier with ⟨last, hfinal, hle⟩
        rw [hfinal]
        have hnext : last + 1 ≤ follow block.header.timestamp.toInt (some last) :=
          Int.le_max_right _ _
        omega
      · exact Int.le_of_eq (congrArg Prod.snd (List.mem_singleton.mp hlast))

theorem lt_follow {pair : Block × Int} (h : pair ∈ assigned none blocks) (stated : Int) :
    pair.2 < follow stated (final blocks) := by
  rcases le_final h with ⟨last, hfinal, hle⟩
  rw [hfinal]
  have hnext : last + 1 ≤ follow stated (some last) := Int.le_max_right _ _
  omega

/-!
# Keys of times
-/

theorem blockKey_eq (hash : BlockHash) :
    blockKey hash = [116, 115, 47, 98, 47] ++ Bytes.ofText hash :=
  rfl

theorem keyOf_eq (time : Int) :
    keyOf time = [116, 115, 47, 116, 47] ++
      Numeral.hex 16 (time - Int64.minValue.toInt).toNat :=
  rfl

theorem lastKey_eq : lastKey = [116, 115, 47, 108, 97, 115, 116] :=
  rfl

theorem blockKey_injective {other : BlockHash} (h : blockKey hash = blockKey other) :
    hash = other :=
  Bytes.ofText_injective (List.append_cancel_left h)

theorem keyOf_injective {other : Int} (hlow : Int64.minValue.toInt ≤ time)
    (hhigh : time ≤ Int64.maxValue.toInt) (hlow' : Int64.minValue.toInt ≤ other)
    (hhigh' : other ≤ Int64.maxValue.toInt) (h : keyOf time = keyOf other) : time = other := by
  have hmin : Int64.minValue.toInt = -2 ^ 63 := rfl
  have hmax : Int64.maxValue.toInt = 2 ^ 63 - 1 := rfl
  have hnumeral := List.append_cancel_left h
  have hsame := Numeral.hex_injective (by omega) (by omega) hnumeral
  omega

theorem key_of_mem {pair : Block × Int} {entry : Bytes × Bytes} (h : entry ∈ entriesOf pair) :
    entry.1 = blockKey pair.1.hash ∨ entry.1 = keyOf pair.2 := by
  rcases List.mem_cons.mp h with rfl | hrest
  · exact Or.inl rfl
  · rw [List.mem_singleton.mp hrest]
    exact Or.inr rfl

theorem blockKey_ne_keyOf : blockKey hash ≠ keyOf time := by
  simp [blockKey_eq, keyOf_eq]

theorem entriesOf_distinct (pair : Block × Int) :
    (entriesOf pair).Pairwise fun a b => a.1 ≠ b.1 := by
  simp [entriesOf, blockKey_ne_keyOf]

theorem entriesOf_lacks_last (pair : Block × Int) : (entriesOf pair).Lacks lastKey := by
  intro entry hentry
  rcases key_of_mem hentry with hkey | hkey
  · rw [hkey, blockKey_eq, lastKey_eq]
    simp
  · rw [hkey, keyOf_eq, lastKey_eq]
    simp

def pairEntries (blocks : List Block) : Entries :=
  (assigned none blocks).flatMap entriesOf

theorem entries_eq (blocks : List Block) :
    entries blocks = pairEntries blocks ++ lastEntry (final blocks) :=
  rfl

theorem pairEntries_lacks_last (blocks : List Block) : (pairEntries blocks).Lacks lastKey := by
  intro entry hentry
  rcases List.mem_flatMap.mp hentry with ⟨pair, _, hpair⟩
  exact entriesOf_lacks_last pair entry hpair

theorem entries_lacks {pair : Block × Int} (hfit : Fit blocks)
    (hhash : ∀ other ∈ blocks, other.hash ≠ pair.1.hash)
    (hlater : ∀ other ∈ assigned none blocks, other.2 < pair.2)
    (hwritten : Int64.minValue.toInt ≤ pair.2 ∧ pair.2 ≤ Int64.maxValue.toInt)
    (last : Option Int) :
    ∀ entry ∈ entriesOf pair, (pairEntries blocks ++ lastEntry last).Lacks entry.1 := by
  intro entry hentry
  refine Entries.Lacks.append ?_ ?_
  · intro held hheld hsame
    rcases List.mem_flatMap.mp hheld with ⟨other, hother, hheld⟩
    rcases mem_assigned hother with ⟨hmem, hlow⟩
    rcases key_of_mem hheld with hheld | hheld
    · rw [hheld] at hsame
      rcases key_of_mem hentry with hkey | hkey
      · exact hhash other.1 hmem (blockKey_injective (hsame.trans hkey))
      · exact blockKey_ne_keyOf (hsame.trans hkey)
    · rw [hheld] at hsame
      rcases key_of_mem hentry with hkey | hkey
      · exact blockKey_ne_keyOf (hsame.trans hkey).symm
      · have htime := keyOf_injective hlow (hfit other hother) hwritten.1 hwritten.2
          (hsame.trans hkey)
        have hlt := hlater other hother
        omega
  · intro held hheld
    rcases List.mem_map.mp hheld with ⟨last, _, rfl⟩
    exact (entriesOf_lacks_last pair entry hentry).symm

end Times

end ChainIndex
