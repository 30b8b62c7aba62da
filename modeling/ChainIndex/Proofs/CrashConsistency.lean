import ChainIndex.Proofs.Contents
import ChainIndex.Proofs.Serving

/-!
# Crash consistency

Whatever happens to an indexer with the standard indexes, its table is that of two
blocks at every moment: it records them as the tips, and what it holds besides are the
entries of the paths to them.
-/

namespace ChainIndex

structure Table.Describes (table : Table) (tree : BlockTree) (concurrent serial : Block) :
    Prop where
  /-- The entries are those of the two paths from the genesis, and there are no others. -/
  entries : ∃ upper lower, tree.Climb tree.genesis upper concurrent ∧
    tree.Climb tree.genesis lower serial ∧
      table.Holds (Heights.entries upper ++ Times.entries lower)
  concurrent : table.get? (Frontier.key .concurrent) = some concurrent.pointer.write ∨
    (table.get? (Frontier.key .concurrent) = none ∧ concurrent = tree.genesis)
  serial : table.get? (Frontier.key .serial) = some serial.pointer.write ∨
    (table.get? (Frontier.key .serial) = none ∧ serial = tree.genesis)

theorem Chronicle.describes {tree : BlockTree} {catalogue : Catalogue} {course : List Entry}
    {standing : Standing} (hstandard : catalogue.IsStandard)
    (h : Chronicle tree catalogue course standing) :
    (Table.replayed course).Describes tree standing.concurrent standing.serial := by
  rcases h.filled hstandard with ⟨upper, lower, hfilled⟩
  rw [← h.table_eq]
  constructor
  · exact ⟨upper, lower, hfilled.toConcurrent, hfilled.toSerial, hfilled.holds⟩
  · exact h.records hstandard.sparesTips .concurrent
  · exact h.records hstandard.sparesTips .serial

/-- At every moment of a history the table is that of two blocks. -/
theorem table_describes_tips {tree : BlockTree} {catalogue : Catalogue} {world : World σ}
    (hstandard : catalogue.IsStandard) (h : Reached tree catalogue world) :
    (∀ past, past <:+ world.course → ∃ concurrent serial,
      (Table.replayed past).Describes tree concurrent serial) ∧
    world.table = Table.replayed world.course := by
  rcases h.sound hstandard.sparesTips with ⟨standing, intake, hstands⟩
  constructor
  · intro past hpast
    rcases hstands.chronicle.earlier hpast with ⟨before, hbefore⟩
    exact ⟨before.concurrent, before.serial, hbefore.describes hstandard⟩
  · rw [hstands.table]
    exact hstands.chronicle.table_eq

theorem table_describes_tips_of_sample :
    Sample.catalogue.IsStandard ∧ Reached Sample.tree Sample.catalogue Sample.synced ∧
    (∀ past, past <:+ Sample.synced.course → ∃ concurrent serial,
      (Table.replayed past).Describes Sample.tree concurrent serial) ∧
    Sample.synced.table = Table.replayed Sample.synced.course :=
  ⟨Sample.standard, Sample.reached_synced,
    table_describes_tips Sample.standard Sample.reached_synced⟩

end ChainIndex
