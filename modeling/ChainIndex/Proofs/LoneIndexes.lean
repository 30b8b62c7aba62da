import ChainIndex.Proofs.OwnKeys
import Mathlib.Data.List.Chain

/-!
# One index by itself

Blocks are put on a table and taken off it by one index alone, the edits of each step in a
batch of their own.  Where the index has no edits for a step, the table stays as it is.

The blocks may form a pile, where only the one on top can be taken off; or a collection, where
any of them can.
-/

namespace ChainIndex

namespace Index

/-- What the index answers for the block, and the table after its edits, if any, have landed. -/
def step (index : Index) (table : Table) (block : Block) (direction : Direction) :
    Except Halt Unit × Table :=
  match index.edits block direction (.clear table) with
  | .ok own => (.ok (), table.commit own)
  | .error cause => (.error cause, table)

variable {index : Index} {start table after before : Table} {block : Block}
variable {direction : Direction} {own : List Edit} {cause : Halt} {stem : Bytes}

theorem step_of_edits (h : index.edits block direction (.clear table) = .ok own) :
    index.step table block direction = (.ok (), table.commit own) := by
  rw [step, h]

theorem step_of_error (h : index.edits block direction (.clear table) = .error cause) :
    index.step table block direction = (.error cause, table) := by
  rw [step, h]

theorem exists_edits_of_step (h : index.step table block direction = (.ok (), after)) :
    ∃ own, index.edits block direction (.clear table) = .ok own ∧ after = table.commit own := by
  unfold step at h
  cases hown : index.edits block direction (.clear table) with
  | ok own =>
      rw [hown] at h
      exact ⟨own, rfl, (congrArg Prod.snd h).symm⟩
  | error cause =>
      rw [hown] at h
      cases h

theorem eq_of_step_error (h : index.step table block direction = (.error cause, after)) :
    after = table := by
  unfold step at h
  cases hown : index.edits block direction (.clear table) with
  | ok own =>
      rw [hown] at h
      cases h
  | error cause =>
      rw [hown] at h
      exact (congrArg Prod.snd h).symm

theorem WritesUnder.step (hwrites : index.WritesUnder stem) (table : Table) (block : Block)
    (direction : Direction) :
    Table.Alike (¬ stem <+: ·) (index.step table block direction).2 table := by
  unfold Index.step
  cases hown : index.edits block direction (.clear table) with
  | ok own =>
      apply Table.Alike.of_untouched
      intro edit hedit hnot
      exact hnot (hwrites block direction _ own hown edit hedit)
  | error cause => exact .refl _ table

end Index

/-!
# Piles

The blocks of a pile are listed from the lowest one up.
-/

/-- Each block but the lowest has the one below it for parent, no two blocks share a hash, and
the parent of the lowest one is none of the blocks. -/
structure Piled (blocks : List Block) : Prop where
  linked : blocks.IsChain fun below above => above.parent = some below.hash
  distinct : blocks.Pairwise fun a b => a.hash ≠ b.hash
  grounded : ∀ lowest ∈ blocks.head?, ∀ block ∈ blocks, lowest.parent ≠ some block.hash

namespace Piled

variable {blocks front : List Block} {block below : Block}

theorem blank : Piled [] where
  linked := List.isChain_nil
  distinct := List.Pairwise.nil
  grounded := by
    intro lowest hlowest
    cases hlowest

theorem of_snoc (h : Piled (blocks ++ [block])) : Piled blocks where
  linked := h.linked.left_of_append
  distinct := (List.pairwise_append.mp h.distinct).1
  grounded := by
    intro lowest hlowest other hother
    refine h.grounded lowest ?_ other (List.mem_append_left _ hother)
    rw [List.head?_append, Option.mem_def.mp hlowest]
    rfl

theorem fresh (h : Piled (blocks ++ [block])) : ∀ other ∈ blocks, other.hash ≠ block.hash := by
  intro other hother
  exact (List.pairwise_append.mp h.distinct).2.2 other hother block List.mem_cons_self

theorem parent_eq (h : Piled (front ++ [below] ++ [block])) : block.parent = some below.hash := by
  refine (List.isChain_append.mp h.linked).2.2 below ?_ block rfl
  rw [List.getLast?_append]
  rfl

theorem lowest_parent (h : Piled [block]) : block.parent ≠ some block.hash :=
  h.grounded block rfl block List.mem_cons_self

end Piled

/-- The index has put the blocks on the starting table one after the other, each while the
table was the one listed with it, and has since taken off others that were above them.  Steps
that failed may have come in between. -/
inductive Index.Piles (index : Index) (start : Table) : List (Block × Table) → Table → Prop where
  | begin : Piles index start [] start
  | put {pile : List (Block × Table)} {table after : Table} {block : Block} :
      Piles index start pile table → Piled (pile.map Prod.fst ++ [block]) →
      index.step table block .apply = (.ok (), after) →
      Piles index start (pile ++ [(block, table)]) after
  | take {pile : List (Block × Table)} {before table after : Table} {block : Block} :
      Piles index start (pile ++ [(block, before)]) table →
      index.step table block .undo = (.ok (), after) → Piles index start pile after
  | failed {pile : List (Block × Table)} {table after : Table} {block : Block}
      {direction : Direction} {cause : Halt} :
      Piles index start pile table →
      index.step table block direction = (.error cause, after) → Piles index start pile after

namespace Index.Piles

variable {index : Index} {start table before : Table} {pile front : List (Block × Table)}
variable {block : Block} {stem : Bytes}

theorem piled (h : index.Piles start pile table) : Piled (pile.map Prod.fst) := by
  induction h with
  | begin => exact .blank
  | put _ hpiled _ _ =>
      rw [List.map_append]
      exact hpiled
  | take _ _ ih =>
      rw [List.map_append] at ih
      exact ih.of_snoc
  | failed _ _ ih => exact ih

theorem recalls (h : index.Piles start pile table) (hpart : front ++ [(block, before)] <+: pile) :
    index.Piles start front before := by
  induction h with
  | begin =>
      have hnil := List.prefix_nil.mp hpart
      exact absurd hnil (List.append_ne_nil_of_right_ne_nil _ (List.cons_ne_nil _ _))
  | put hbelow _ _ ih =>
      rcases List.prefix_concat_iff.mp hpart with hall | hpart
      · rcases List.append_inj' hall rfl with ⟨rfl, hlast⟩
        cases hlast
        exact hbelow
      · exact ih hpart
  | take _ _ ih => exact ih (hpart.trans (List.prefix_append _ _))
  | failed _ _ ih => exact ih hpart

theorem alike (h : index.Piles start pile table) (hwrites : index.WritesUnder stem) :
    Table.Alike (¬ stem <+: ·) table start := by
  have hstep {table after : Table} {block : Block} {direction : Direction}
      {answer : Except Halt Unit} (hafter : index.step table block direction = (answer, after)) :
      Table.Alike (¬ stem <+: ·) after table := by
    have hunder := hwrites.step table block direction
    rw [hafter] at hunder
    exact hunder
  induction h with
  | begin => exact .refl _ start
  | put _ _ hafter ih => exact (hstep hafter).trans ih
  | take _ hafter ih => exact (hstep hafter).trans ih
  | failed _ hafter ih => exact (hstep hafter).trans ih

end Index.Piles

/-!
# Collections
-/

/-- No two of the blocks share a hash or a height. -/
def Sundry (blocks : List Block) : Prop :=
  blocks.Pairwise fun a b => a.hash ≠ b.hash ∧ a.height ≠ b.height

/-- The index has put blocks on the starting table and taken others off again in any order, and
these are the ones that are left. -/
inductive Index.Collects (index : Index) (start : Table) : List Block → Table → Prop where
  | begin : Collects index start [] start
  | put {blocks : List Block} {table after : Table} {block : Block} :
      Collects index start blocks table → Sundry (blocks ++ [block]) →
      index.step table block .apply = (.ok (), after) →
      Collects index start (blocks ++ [block]) after
  | take {blocks : List Block} {table after : Table} {block : Block} :
      Collects index start blocks table → block ∈ blocks →
      index.step table block .undo = (.ok (), after) →
      Collects index start (blocks.erase block) after

namespace Sundry

variable {blocks others : List Block} {block : Block}

theorem fresh (h : Sundry (blocks ++ [block])) :
    ∀ other ∈ blocks, other.hash ≠ block.hash ∧ other.height ≠ block.height := by
  intro other hother
  exact (List.pairwise_append.mp h).2.2 other hother block List.mem_cons_self

theorem perm (h : Sundry blocks) (hperm : blocks.Perm others) : Sundry others :=
  hperm.pairwise h fun hab => ⟨hab.1.symm, hab.2.symm⟩

theorem erase (h : Sundry blocks) (block : Block) : Sundry (blocks.erase block) :=
  h.sublist List.erase_sublist

end Sundry

theorem Index.Collects.sundry {index : Index} {start table : Table} {blocks : List Block}
    (h : index.Collects start blocks table) : Sundry blocks := by
  induction h with
  | begin => exact List.Pairwise.nil
  | put _ hsundry _ _ => exact hsundry
  | take _ _ _ ih => exact ih.erase _

namespace Sample

def labelled : Table :=
  Table.empty.apply (.put (Bytes.ofText "tag") (Bytes.ofText "1"))

theorem labelled_free {stem : Bytes} (h : ¬ stem <+: Bytes.ofText "tag") : labelled.Free stem := by
  intro key hkey
  have hother : Bytes.ofText "tag" ≠ key := by
    rintro rfl
    exact h hkey
  exact (Table.get?_apply_put _ _ _ key).trans (if_neg hother)

end Sample

end ChainIndex
