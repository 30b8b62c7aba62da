import ChainIndex.Frontier

/-!
# Batches and what can be read after them

A batch changes what can be read under the keys it touches, and nothing else.  Of
several edits under one key the last counts.
-/

namespace ChainIndex

namespace Table

theorem get?_apply_of_ne (table : Table) {edit : Edit} {key : Bytes} (h : edit.key ≠ key) :
    (table.apply edit).get? key = table.get? key := by
  cases edit with
  | put k value => exact (get?_apply_put table k value key).trans (if_neg h)
  | erase k => exact (get?_apply_erase table k key).trans (if_neg h)

theorem get?_commit_of_untouched (table : Table) {edits : List Edit} {key : Bytes}
    (h : ∀ edit ∈ edits, edit.key ≠ key) : (table.commit edits).get? key = table.get? key := by
  induction edits generalizing table with
  | nil => rfl
  | cons edit rest ih =>
      rw [commit_cons, ih (table.apply edit) fun e he => h e (List.mem_cons_of_mem _ he)]
      exact get?_apply_of_ne table (h edit List.mem_cons_self)

theorem get?_commit_append_put (table : Table) (edits : List Edit) (key value k : Bytes) :
    (table.commit (edits ++ [.put key value])).get? k =
      if key = k then some value else (table.commit edits).get? k := by
  rw [commit_append, commit_cons, commit_nil, get?_apply_put]

end Table

/-!
# Keys of the frontier
-/

namespace Frontier

theorem key_ne (track other : Track) (h : track ≠ other) : key track ≠ key other := by
  intro hkey
  have htext := Bytes.ofText_injective (s := "meta/tip/concurrent") (t := "meta/tip/serial")
  cases track <;> cases other
  · exact h rfl
  · exact absurd (htext hkey) (by decide)
  · exact absurd (htext hkey.symm) (by decide)
  · exact h rfl

theorem get?_commit_edit_same (table : Table) (edits : List Edit) (track : Track)
    (pointer : Pointer) :
    (table.commit (edits ++ [edit track pointer])).get? (key track) = some pointer.write := by
  rw [edit, Table.get?_commit_append_put, if_pos rfl]

theorem get?_commit_edit_of_ne (table : Table) (edits : List Edit) {track : Track}
    (pointer : Pointer) {k : Bytes} (h : key track ≠ k) :
    (table.commit (edits ++ [edit track pointer])).get? k = (table.commit edits).get? k := by
  rw [edit, Table.get?_commit_append_put, if_neg h]

end Frontier

end ChainIndex
