import ChainIndex.Bytes

/-!
# The table

The table behind the indexes is an ordered map from keys to values, both byte
strings.  It is a list of entries whose keys ascend strictly; its view is
`Table.get?`, and every operation is described by what it does to that view.

Edits come in batches.  A batch is applied in order, and the table is only ever
changed by a whole batch.
-/

namespace ChainIndex

inductive Edit where
  | put (key value : Bytes)
  | erase (key : Bytes)
deriving DecidableEq

def Edit.key : Edit → Bytes
  | .put key _ => key
  | .erase key => key

abbrev Entries := List (Bytes × Bytes)

namespace Entries

def Ascending (entries : Entries) : Prop :=
  entries.Pairwise fun a b => a.1 < b.1

/-!
# Lists of entries in ascending order
-/

def get? (key : Bytes) : Entries → Option Bytes
  | [] => none
  | (k, v) :: rest => if k = key then some v else get? key rest

def put (key value : Bytes) : Entries → Entries
  | [] => [(key, value)]
  | (k, v) :: rest =>
      if key < k then (key, value) :: (k, v) :: rest
      else if key = k then (key, value) :: rest
      else (k, v) :: put key value rest

def erase (key : Bytes) (entries : Entries) : Entries :=
  entries.filter fun entry => entry.1 ≠ key

theorem mem_put {key value : Bytes} {entries : Entries} {e : Bytes × Bytes}
    (h : e ∈ put key value entries) : e = (key, value) ∨ e ∈ entries := by
  induction entries with
  | nil => simpa [put] using h
  | cons first rest ih =>
      rw [put] at h
      split at h
      · simpa using h
      · split at h
        · rcases List.mem_cons.mp h with h | h
          · exact Or.inl h
          · exact Or.inr (List.mem_cons_of_mem _ h)
        · rcases List.mem_cons.mp h with h | h
          · exact Or.inr (by simp [h])
          · rcases ih h with h | h
            · exact Or.inl h
            · exact Or.inr (List.mem_cons_of_mem _ h)

theorem ascending_put {entries : Entries} (h : Ascending entries) (key value : Bytes) :
    Ascending (put key value entries) := by
  induction entries with
  | nil => simp [Ascending, put]
  | cons first rest ih =>
      obtain ⟨above, tail⟩ := List.pairwise_cons.mp h
      rw [put]
      split
      · next below =>
          refine List.pairwise_cons.mpr ⟨fun e he => ?_, h⟩
          rcases List.mem_cons.mp he with rfl | he
          · exact below
          · exact Std.lt_trans below (above e he)
      · split
        · next same =>
            exact List.pairwise_cons.mpr ⟨fun e he => same ▸ above e he, tail⟩
        · next notBelow notSame =>
            refine List.pairwise_cons.mpr ⟨fun e he => ?_, ih tail⟩
            rcases mem_put he with rfl | he
            · rcases Std.lt_trichotomy key first.1 with lt | eq | gt
              · exact absurd lt notBelow
              · exact absurd eq notSame
              · exact gt
            · exact above e he

theorem ascending_erase {entries : Entries} (h : Ascending entries) (key : Bytes) :
    Ascending (erase key entries) :=
  List.Pairwise.filter _ h

theorem get?_put (key value k : Bytes) (entries : Entries) :
    get? k (put key value entries) = if key = k then some value else get? k entries := by
  induction entries with
  | nil => simp [put, get?]
  | cons first rest ih =>
      rw [put]
      split
      · rw [get?]
      · split
        · next same =>
            subst same
            simp only [get?]
            split <;> rfl
        · next notSame =>
            simp only [get?]
            rw [ih]
            by_cases hk : first.1 = k
            · subst hk
              simp [notSame]
            · simp [hk]

theorem get?_erase (key k : Bytes) (entries : Entries) :
    get? k (erase key entries) = if key = k then none else get? k entries := by
  induction entries with
  | nil => simp [erase, get?]
  | cons first rest ih =>
      unfold erase at ih ⊢
      by_cases hf : first.1 = key
      · have dropped : (first :: rest).filter (fun entry => entry.1 ≠ key) =
            rest.filter (fun entry => entry.1 ≠ key) := by simp [hf]
        rw [dropped, ih, get?, hf]
        split <;> rfl
      · have kept : (first :: rest).filter (fun entry => entry.1 ≠ key) =
            first :: rest.filter (fun entry => entry.1 ≠ key) := by simp [hf]
        rw [kept]
        simp only [get?]
        rw [ih]
        by_cases hk : first.1 = k
        · subst hk
          simp [Ne.symm hf]
        · simp [hk]

end Entries

structure Table where
  entries : Entries
  ascending : entries.Ascending

namespace Table

def empty : Table :=
  ⟨[], List.Pairwise.nil⟩

instance : Inhabited Table := ⟨empty⟩

def get? (table : Table) (key : Bytes) : Option Bytes :=
  table.entries.get? key

def apply (table : Table) : Edit → Table
  | .put key value => ⟨table.entries.put key value, Entries.ascending_put table.ascending key value⟩
  | .erase key => ⟨table.entries.erase key, Entries.ascending_erase table.ascending key⟩

def commit (table : Table) (edits : List Edit) : Table :=
  edits.foldl apply table

/-- The entries with keys from `start` on and below `stop`, in ascending order. -/
def scan (table : Table) (start : Bytes) (stop : Option Bytes) : Entries :=
  table.entries.filter fun entry => start ≤ entry.1 ∧ ∀ bound ∈ stop, entry.1 < bound

def scanStem (table : Table) (stem : Bytes) : Entries :=
  table.scan stem stem.ceiling

/-!
# The view
-/

@[simp] theorem get?_empty (key : Bytes) : empty.get? key = none := rfl

theorem get?_apply_put (table : Table) (key value k : Bytes) :
    (table.apply (.put key value)).get? k = if key = k then some value else table.get? k :=
  Entries.get?_put key value k table.entries

theorem get?_apply_erase (table : Table) (key k : Bytes) :
    (table.apply (.erase key)).get? k = if key = k then none else table.get? k :=
  Entries.get?_erase key k table.entries

@[simp] theorem commit_nil (table : Table) : table.commit [] = table := rfl

@[simp] theorem commit_cons (table : Table) (edit : Edit) (rest : List Edit) :
    table.commit (edit :: rest) = (table.apply edit).commit rest := rfl

theorem commit_append (table : Table) (front back : List Edit) :
    table.commit (front ++ back) = (table.commit front).commit back :=
  List.foldl_append

end Table

end ChainIndex
