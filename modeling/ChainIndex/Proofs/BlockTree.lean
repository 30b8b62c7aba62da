import ChainIndex.Block
import Mathlib.Logic.Relation

/-!
# Trees of blocks

A block tree holds at most one block for each hash.  It has one parentless block,
the genesis, at height zero; the parent of any other block is in the tree, one
height below.

The tree is all that a chain of blocks may ever consist of.  What a source knows
of it, and which branch it calls the best, may change; the tree does not.
-/

namespace ChainIndex

structure BlockTree where
  genesis : Block
  find? : BlockHash → Option Block
  find?_genesis : find? genesis.hash = some genesis
  hash_of_find? {hash : BlockHash} {block : Block} :
    find? hash = some block → block.hash = hash
  parent_genesis : genesis.parent = none
  height_genesis : genesis.height = 0
  rooted {hash : BlockHash} {block : Block} :
    find? hash = some block → block ≠ genesis →
      ∃ parent, find? parent.hash = some parent ∧ block.parent = some parent.hash ∧
        block.height.toNat = parent.height.toNat + 1

namespace BlockTree

instance : Membership Block BlockTree :=
  ⟨fun tree block => tree.find? block.hash = some block⟩

variable {tree : BlockTree}

theorem mem_iff {block : Block} : block ∈ tree ↔ tree.find? block.hash = some block :=
  Iff.rfl

instance (block : Block) : Decidable (block ∈ tree) :=
  inferInstanceAs (Decidable (tree.find? block.hash = some block))

theorem mem_of_find? {hash : BlockHash} {block : Block} (h : tree.find? hash = some block) :
    block ∈ tree := by
  rw [mem_iff, tree.hash_of_find? h]
  exact h

theorem genesis_mem (tree : BlockTree) : tree.genesis ∈ tree :=
  tree.find?_genesis

theorem eq_of_hash_eq {a b : Block} (ha : a ∈ tree) (hb : b ∈ tree) (h : a.hash = b.hash) :
    a = b := by
  rw [mem_iff, h, mem_iff.mp hb] at ha
  exact (Option.some.inj ha).symm

theorem eq_genesis_of_height {block : Block} (h : block ∈ tree) (hheight : block.height = 0) :
    block = tree.genesis := by
  by_cases hgenesis : block = tree.genesis
  · exact hgenesis
  · rcases tree.rooted h hgenesis with ⟨parent, _, _, hnext⟩
    rw [hheight] at hnext
    have hzero : (0 : UInt64).toNat = 0 := rfl
    omega

/-!
# Parents and children
-/

def Child (tree : BlockTree) (parent block : Block) : Prop :=
  parent ∈ tree ∧ block ∈ tree ∧ block.parent = some parent.hash

instance (parent block : Block) : Decidable (tree.Child parent block) :=
  inferInstanceAs (Decidable (parent ∈ tree ∧ block ∈ tree ∧ block.parent = some parent.hash))

theorem exists_parent {block : Block} (h : block ∈ tree) (hgenesis : block ≠ tree.genesis) :
    ∃ parent, tree.Child parent block := by
  rcases tree.rooted h hgenesis with ⟨parent, hparent, hnamed, _⟩
  exact ⟨parent, hparent, h, hnamed⟩

theorem eq_genesis_of_parent {block : Block} (h : block ∈ tree) (hparent : block.parent = none) :
    block = tree.genesis := by
  by_cases hgenesis : block = tree.genesis
  · exact hgenesis
  · rcases exists_parent h hgenesis with ⟨parent, hchild⟩
    rw [hchild.2.2] at hparent
    cases hparent

theorem child_iff {parent block : Block} (hparent : parent ∈ tree) (hblock : block ∈ tree) :
    tree.Child parent block ↔ block.parent = some parent.hash := by
  constructor
  · intro hchild
    exact hchild.2.2
  · intro hnamed
    exact ⟨hparent, hblock, hnamed⟩

theorem exists_parent_of {block : Block} {hash : BlockHash} (h : block ∈ tree)
    (hparent : block.parent = some hash) :
    ∃ parent, tree.Child parent block ∧ parent.hash = hash := by
  have hgenesis : block ≠ tree.genesis := by
    intro heq
    rw [heq, tree.parent_genesis] at hparent
    cases hparent
  rcases exists_parent h hgenesis with ⟨parent, hchild⟩
  exact ⟨parent, hchild, Option.some.inj (hchild.2.2.symm.trans hparent)⟩

namespace Child

theorem ne_genesis {parent block : Block} (h : tree.Child parent block) :
    block ≠ tree.genesis := by
  intro heq
  have hnamed := h.2.2
  rw [heq, tree.parent_genesis] at hnamed
  cases hnamed

theorem height {parent block : Block} (h : tree.Child parent block) :
    block.height.toNat = parent.height.toNat + 1 := by
  rcases tree.rooted h.2.1 h.ne_genesis with ⟨other, hother, hnamed, hheight⟩
  have hhash : other.hash = parent.hash :=
    Option.some.inj (hnamed.symm.trans h.2.2)
  rw [eq_of_hash_eq hother h.1 hhash] at hheight
  exact hheight

theorem height_ne_zero {parent block : Block} (h : tree.Child parent block) :
    block.height ≠ 0 := by
  intro hzero
  have hheight := h.height
  rw [hzero] at hheight
  cases hheight

theorem unique {parent other block : Block} (h : tree.Child parent block)
    (h' : tree.Child other block) : parent = other :=
  eq_of_hash_eq h.1 h'.1 (Option.some.inj (h.2.2.symm.trans h'.2.2))

end Child

/-!
# Ancestry

`Below low high` says that the first block is an ancestor of the second, or is
the second itself.
-/

def Below (tree : BlockTree) : Block → Block → Prop :=
  Relation.ReflTransGen tree.Child

namespace Below

theorem refl (block : Block) : tree.Below block block :=
  Relation.ReflTransGen.refl

theorem trans {a b c : Block} (h : tree.Below a b) (h' : tree.Below b c) : tree.Below a c :=
  Relation.ReflTransGen.trans h h'

theorem up {low parent block : Block} (h : tree.Below low parent)
    (hchild : tree.Child parent block) : tree.Below low block :=
  Relation.ReflTransGen.tail h hchild

theorem of_child {parent block : Block} (h : tree.Child parent block) :
    tree.Below parent block :=
  Relation.ReflTransGen.single h

theorem eq_or_down {low high : Block} (h : tree.Below low high) :
    low = high ∨ ∃ parent, tree.Below low parent ∧ tree.Child parent high := by
  rcases Relation.ReflTransGen.cases_tail h with heq | ⟨parent, hlow, hchild⟩
  · exact Or.inl heq.symm
  · exact Or.inr ⟨parent, hlow, hchild⟩

theorem down {low parent block : Block} (h : tree.Below low block) (hne : low ≠ block)
    (hchild : tree.Child parent block) : tree.Below low parent := by
  rcases h.eq_or_down with heq | ⟨other, hlow, hother⟩
  · exact absurd heq hne
  · rw [hchild.unique hother]
    exact hlow

theorem mem {low high : Block} (h : tree.Below low high) (hhigh : high ∈ tree) :
    low ∈ tree := by
  induction h with
  | refl => exact hhigh
  | tail _ hchild ih => exact ih hchild.1

theorem height_le {low high : Block} (h : tree.Below low high) :
    low.height.toNat ≤ high.height.toNat := by
  induction h with
  | refl => exact Nat.le_refl _
  | tail _ hchild ih =>
      have := hchild.height
      omega

theorem eq_of_height_le {low high : Block} (h : tree.Below low high)
    (hheight : high.height.toNat ≤ low.height.toNat) : low = high := by
  rcases h.eq_or_down with heq | ⟨parent, hlow, hchild⟩
  · exact heq
  · have hle := hlow.height_le
    have hnext := hchild.height
    omega

theorem antisymm {a b : Block} (h : tree.Below a b) (h' : tree.Below b a) : a = b :=
  h.eq_of_height_le h'.height_le

theorem total {a b high : Block} (ha : tree.Below a high) (hb : tree.Below b high)
    (hheight : a.height.toNat ≤ b.height.toNat) : tree.Below a b := by
  induction ha with
  | refl => exact (hb.eq_of_height_le hheight) ▸ refl _
  | @tail parent block hlow hchild ih =>
      by_cases heq : b = block
      · rw [heq]
        exact up hlow hchild
      · exact ih (hb.down heq hchild)

theorem eq_of_height {a b high : Block} (ha : tree.Below a high) (hb : tree.Below b high)
    (hheight : a.height.toNat = b.height.toNat) : a = b :=
  (ha.total hb (Nat.le_of_eq hheight)).eq_of_height_le (Nat.le_of_eq hheight.symm)

theorem hash_eq_iff {low tip high : Block} (hlow : tree.Below low high) (hhigh : high ∈ tree)
    (htip : tip ∈ tree) (hheight : low.height.toNat = tip.height.toNat) :
    low.hash = tip.hash ↔ tree.Below tip high := by
  constructor
  · intro hhash
    rw [← eq_of_hash_eq (hlow.mem hhigh) htip hhash]
    exact hlow
  · intro hbelow
    rw [hlow.eq_of_height hbelow hheight]

theorem eq_or_up {low high : Block} (h : tree.Below low high) :
    low = high ∨ ∃ next, tree.Child low next ∧ tree.Below next high := by
  rcases Relation.ReflTransGen.cases_head h with heq | ⟨next, hchild, hhigh⟩
  · exact Or.inl heq
  · exact Or.inr ⟨next, hchild, hhigh⟩

theorem child_of_height {low block high : Block} (hlow : tree.Below low high)
    (hblock : tree.Below block high) (hheight : block.height.toNat = low.height.toNat + 1) :
    tree.Child low block := by
  have hbelow : tree.Below low block := hlow.total hblock (by omega)
  rcases hbelow.eq_or_down with rfl | ⟨parent, hparent, hchild⟩
  · omega
  · have hnext := hchild.height
    rw [hparent.eq_of_height_le (by omega)]
    exact hchild

theorem genesis {block : Block} (h : block ∈ tree) : tree.Below tree.genesis block := by
  induction hn : block.height.toNat using Nat.strongRecOn generalizing block with
  | _ n ih =>
      by_cases hgenesis : block = tree.genesis
      · rw [hgenesis]
        exact refl _
      · rcases exists_parent h hgenesis with ⟨parent, hchild⟩
        have hlower : parent.height.toNat < n := by
          have := hchild.height
          omega
        exact (ih _ hlower hchild.1 rfl).up hchild

end Below

/-!
# Climbing

A climb lists the blocks passed on the way up, the last one included and the
first one not.
-/

inductive Climb (tree : BlockTree) : Block → List Block → Block → Prop where
  | stay (block : Block) : Climb tree block [] block
  | up {low next high : Block} {rest : List Block} :
      tree.Child low next → Climb tree next rest high → Climb tree low (next :: rest) high

namespace Climb

theorem append {a b c : Block} {front back : List Block} (h : tree.Climb a front b)
    (h' : tree.Climb b back c) : tree.Climb a (front ++ back) c := by
  induction h with
  | stay _ => exact h'
  | up hchild _ ih => exact up hchild (ih h')

theorem split {a c : Block} {front back : List Block} (h : tree.Climb a (front ++ back) c) :
    ∃ b, tree.Climb a front b ∧ tree.Climb b back c := by
  induction front generalizing a with
  | nil => exact ⟨a, stay a, h⟩
  | cons next rest ih =>
      cases h with
      | up hchild htail =>
          rcases ih htail with ⟨b, hfront, hback⟩
          exact ⟨b, up hchild hfront, hback⟩

theorem snoc {a b c : Block} {blocks : List Block} (h : tree.Climb a blocks b)
    (hchild : tree.Child b c) : tree.Climb a (blocks ++ [c]) c :=
  h.append (up hchild (stay c))

theorem isBelow {low high : Block} {blocks : List Block} (h : tree.Climb low blocks high) :
    tree.Below low high := by
  induction h with
  | stay block => exact Below.refl block
  | up hchild _ ih => exact (Below.of_child hchild).trans ih

theorem height {low high : Block} {blocks : List Block} (h : tree.Climb low blocks high) :
    high.height.toNat = low.height.toNat + blocks.length := by
  induction h with
  | stay _ => rfl
  | up hchild _ ih =>
      have := hchild.height
      rw [ih, List.length_cons]
      omega

theorem of_below {low high : Block} (h : tree.Below low high) :
    ∃ blocks, tree.Climb low blocks high := by
  induction h with
  | refl => exact ⟨[], stay low⟩
  | tail _ hchild ih =>
      rcases ih with ⟨blocks, hclimb⟩
      exact ⟨_, hclimb.snoc hchild⟩

theorem high_unique {low high other : Block} {blocks : List Block}
    (h : tree.Climb low blocks high) (h' : tree.Climb low blocks other) : high = other := by
  induction h with
  | stay block =>
      cases h'
      rfl
  | up _ _ ih =>
      cases h' with
      | up _ htail => exact ih htail

theorem eq_nil {low high : Block} (h : tree.Climb low [] high) : low = high := by
  cases h
  rfl

theorem of_snoc {low high block : Block} {blocks : List Block}
    (h : tree.Climb low (blocks ++ [block]) high) :
    block = high ∧ ∃ parent, tree.Climb low blocks parent ∧ tree.Child parent block := by
  rcases h.split with ⟨parent, hfront, hlast⟩
  cases hlast with
  | up hchild hstay => exact ⟨hstay.eq_nil, parent, hfront, hchild⟩

theorem bounds {low high block : Block} {blocks : List Block} (h : tree.Climb low blocks high)
    (hmem : block ∈ blocks) : (∃ parent, tree.Below low parent ∧ tree.Child parent block) ∧
      tree.Below block high := by
  rcases List.append_of_mem hmem with ⟨front, back, rfl⟩
  rcases h.split with ⟨parent, hfront, hrest⟩
  cases hrest with
  | up hchild hback => exact ⟨⟨parent, hfront.isBelow, hchild⟩, hback.isBelow⟩

theorem mem {low high block : Block} {blocks : List Block} (h : tree.Climb low blocks high)
    (hmem : block ∈ blocks) : block ∈ tree := by
  rcases (h.bounds hmem).1 with ⟨_, _, hchild⟩
  exact hchild.2.1

theorem ne_of_child {low high block next : Block} {blocks : List Block}
    (h : tree.Climb low blocks high) (hchild : tree.Child high next) (hmem : block ∈ blocks) :
    block.hash ≠ next.hash ∧ block.height ≠ next.height := by
  have hbelow := (h.bounds hmem).2.height_le
  have hnext := hchild.height
  have hheight : block.height ≠ next.height := by
    intro hsame
    rw [← hsame] at hnext
    omega
  refine ⟨?_, hheight⟩
  intro hhash
  exact hheight (congrArg Block.height (eq_of_hash_eq (h.mem hmem) hchild.2.1 hhash))

theorem getLast?_eq {low high : Block} {blocks : List Block} (h : tree.Climb low blocks high)
    (hne : blocks ≠ []) : blocks.getLast? = some high := by
  induction h with
  | stay _ => exact absurd rfl hne
  | @up low next high rest _ htail ih =>
      cases rest with
      | nil =>
          rw [htail.eq_nil]
          rfl
      | cons second more =>
          rw [List.getLast?_cons_cons]
          exact ih (by simp)

theorem high_mem {low high : Block} {blocks : List Block} (h : tree.Climb low blocks high)
    (hlow : low ∈ tree) : high ∈ tree := by
  induction h with
  | stay _ => exact hlow
  | up hchild _ ih => exact ih hchild.2.1

theorem height_of_getElem? {low high block : Block} {blocks : List Block}
    (h : tree.Climb low blocks high) {n : Nat} (hblock : (low :: blocks)[n]? = some block) :
    block.height.toNat = low.height.toNat + n := by
  induction h generalizing n with
  | stay low =>
      cases n with
      | zero =>
          cases hblock
          rfl
      | succ n => cases hblock
  | up hchild _ ih =>
      cases n with
      | zero =>
          cases hblock
          rfl
      | succ n =>
          rw [List.getElem?_cons_succ] at hblock
          rw [ih hblock, hchild.height]
          omega

theorem unique {low high : Block} {blocks others : List Block} (h : tree.Climb low blocks high)
    (h' : tree.Climb low others high) : blocks = others := by
  induction h generalizing others with
  | stay block =>
      have hlength := h'.height
      exact (List.length_eq_zero_iff.mp (by omega)).symm
  | @up low next high rest hchild htail ih =>
      cases h' with
      | stay _ =>
          have hlow := hchild.height
          have hhigh := htail.height
          omega
      | @up _ next' _ rest' hchild' htail' =>
          have hheight := hchild.height
          have hheight' := hchild'.height
          have hnext := htail.isBelow.eq_of_height htail'.isBelow (by omega)
          subst hnext
          rw [ih htail']

theorem eq_snoc {low block : Block} {blocks : List Block}
    (h : tree.Climb tree.genesis blocks block) (hchild : tree.Child low block) :
    ∃ front, blocks = front ++ [block] ∧ tree.Climb tree.genesis front low := by
  rcases of_below (Below.genesis hchild.1) with ⟨front, hfront⟩
  exact ⟨front, h.unique (hfront.snoc hchild), hfront⟩

theorem mem_iff {low high block : Block} {blocks : List Block} (h : tree.Climb low blocks high) :
    block ∈ low :: blocks ↔ tree.Below low block ∧ tree.Below block high := by
  constructor
  · intro hmem
    rcases List.mem_cons.mp hmem with rfl | hmem
    · exact ⟨Below.refl _, h.isBelow⟩
    · rcases h.bounds hmem with ⟨⟨parent, hlow, hchild⟩, hhigh⟩
      exact ⟨hlow.up hchild, hhigh⟩
  · intro hboth
    rcases hboth with ⟨hlow, hhigh⟩
    rcases of_below hlow with ⟨front, hfront⟩
    rcases of_below hhigh with ⟨back, hback⟩
    rw [h.unique (hfront.append hback)]
    by_cases hempty : front = []
    · rw [hempty] at hfront
      rw [hfront.eq_nil]
      exact List.mem_cons_self
    · have hlast := List.mem_of_getLast? (hfront.getLast?_eq hempty)
      exact List.mem_cons_of_mem _ (List.mem_append_left _ hlast)

theorem getElem?_of_mem {low high block : Block} {blocks : List Block}
    (h : tree.Climb low blocks high) (hmem : block ∈ low :: blocks) :
    (low :: blocks)[block.height.toNat - low.height.toNat]? = some block := by
  rcases List.mem_iff_getElem?.mp hmem with ⟨n, hn⟩
  rw [h.height_of_getElem? hn, Nat.add_sub_cancel_left]
  exact hn

end Climb

end BlockTree

end ChainIndex
