import ChainIndex.Proofs.Batches

/-!
# What a table holds

A table holds a list of entries if these are exactly what can be read from it, the
keys of the tips aside.  Which entries a table holds changes with each edit, and it
changes simply if the keys that are written or erased are not those of other entries.
-/

namespace ChainIndex

/-!
# What is read, and what is listed
-/

theorem Entries.get?_eq_some_iff {entries : Entries} (h : entries.Ascending) {key value : Bytes} :
    entries.get? key = some value ↔ (key, value) ∈ entries := by
  induction entries with
  | nil => simp [get?]
  | cons first rest ih =>
      rcases List.pairwise_cons.mp h with ⟨habove, hrest⟩
      rw [get?, List.mem_cons]
      by_cases hkey : first.1 = key
      · subst hkey
        rw [if_pos rfl]
        constructor
        · intro hvalue
          exact Or.inl (Prod.ext rfl (Option.some.inj hvalue).symm)
        · rintro (hsame | hlater)
          · exact congrArg some (congrArg Prod.snd hsame).symm
          · exact absurd (habove _ hlater) (List.lt_irrefl _)
      · rw [if_neg hkey, ih hrest]
        constructor
        · exact Or.inr
        · rintro (hsame | hlater)
          · exact absurd (congrArg Prod.fst hsame).symm hkey
          · exact hlater

theorem Table.mem_entries_iff (table : Table) {key value : Bytes} :
    (key, value) ∈ table.entries ↔ table.get? key = some value :=
  (Entries.get?_eq_some_iff table.ascending).symm

def Entries.Lacks (entries : Entries) (key : Bytes) : Prop :=
  ∀ entry ∈ entries, entry.1 ≠ key

/-- Outside the keys of the tips the table has exactly these entries. -/
def Table.Holds (table : Table) (entries : Entries) : Prop :=
  ∀ key, (∀ track, key ≠ Frontier.key track) →
    ∀ value, table.get? key = some value ↔ (key, value) ∈ entries

namespace Entries.Lacks

variable {front back : Entries} {key : Bytes}

theorem erase_eq (h : Entries.Lacks front key) : Entries.erase key front = front := by
  rw [Entries.erase, List.filter_eq_self]
  intro entry hentry
  simpa using h entry hentry

theorem append (h : Entries.Lacks front key) (h' : Entries.Lacks back key) :
    Entries.Lacks (front ++ back) key := by
  intro entry hentry
  rcases List.mem_append.mp hentry with hfront | hback
  · exact h entry hfront
  · exact h' entry hback

end Entries.Lacks

namespace Table.Holds

variable {table : Table} {entries own front back : Entries} {key value : Bytes}

theorem blank : Table.empty.Holds [] := by
  intro key _ value
  simp

theorem of_entries (table : Table) : table.Holds table.entries := by
  intro key _ value
  exact table.mem_entries_iff.symm

theorem congr {others : Entries} (h : table.Holds entries)
    (hsame : ∀ entry, entry ∈ entries ↔ entry ∈ others) : table.Holds others := by
  intro key hkey value
  rw [h key hkey value, hsame]

theorem swap (h : table.Holds (front ++ back)) : table.Holds (back ++ front) := by
  apply h.congr
  intro entry
  rw [List.mem_append, List.mem_append, or_comm]

theorem get?_eq_none (h : table.Holds entries) (hkey : ∀ track, key ≠ Frontier.key track)
    (hlacks : entries.Lacks key) : table.get? key = none := by
  cases hget : table.get? key with
  | none => rfl
  | some value => exact absurd rfl (hlacks _ ((h key hkey value).mp hget))

/-!
# Edits
-/

theorem put (h : table.Holds entries) (key value : Bytes) :
    (table.apply (.put key value)).Holds (Entries.erase key entries ++ [(key, value)]) := by
  intro k hk v
  rw [Table.get?_apply_put, List.mem_append, List.mem_singleton, Entries.erase, List.mem_filter]
  by_cases hsame : key = k
  · subst hsame
    simp [eq_comm]
  · rw [if_neg hsame, h k hk v]
    simp [Ne.symm hsame]

theorem erase (h : table.Holds entries) (key : Bytes) :
    (table.apply (.erase key)).Holds (Entries.erase key entries) := by
  intro k hk v
  rw [Table.get?_apply_erase, Entries.erase, List.mem_filter]
  by_cases hsame : key = k
  · simp [hsame]
  · rw [if_neg hsame, h k hk v]
    simp [Ne.symm hsame]

theorem tip (h : table.Holds entries) (track : Track) (pointer : Pointer) :
    (table.apply (Frontier.edit track pointer)).Holds entries := by
  intro key hkey value
  have hother : (Frontier.edit track pointer).key ≠ key := (hkey track).symm
  rw [Table.get?_apply_of_ne table hother]
  exact h key hkey value

theorem enter (h : table.Holds entries) (hdistinct : own.Pairwise fun a b => a.1 ≠ b.1)
    (hfresh : ∀ entry ∈ own, entries.Lacks entry.1) :
    (table.commit (own.map fun entry => .put entry.1 entry.2)).Holds (entries ++ own) := by
  induction own generalizing table entries with
  | nil =>
      rw [List.append_nil]
      exact h
  | cons entry rest ih =>
      rcases List.pairwise_cons.mp hdistinct with ⟨hfirst, hrest⟩
      have hput := h.put entry.1 entry.2
      rw [(hfresh entry List.mem_cons_self).erase_eq] at hput
      have hnext := ih hput hrest (by
        intro later hlater
        refine (hfresh later (List.mem_cons_of_mem _ hlater)).append ?_
        intro e he
        rw [List.mem_singleton.mp he]
        exact hfirst later hlater)
      rw [List.append_assoc] at hnext
      exact hnext

theorem remove (h : table.Holds (entries ++ own)) (hdistinct : own.Pairwise fun a b => a.1 ≠ b.1)
    (hfresh : ∀ entry ∈ own, entries.Lacks entry.1) :
    (table.commit (own.map fun entry => .erase entry.1)).Holds entries := by
  induction own generalizing table with
  | nil =>
      rw [List.append_nil] at h
      exact h
  | cons entry rest ih =>
      rcases List.pairwise_cons.mp hdistinct with ⟨hfirst, hrest⟩
      apply ih _ hrest fun later hlater => hfresh later (List.mem_cons_of_mem _ hlater)
      have herase := h.erase entry.1
      have hlater : Entries.Lacks rest entry.1 := fun later hlater =>
        (hfirst later hlater).symm
      have hothers := (hfresh entry List.mem_cons_self).append hlater
      have hsame : Entries.erase entry.1 (entries ++ entry :: rest) = entries ++ rest := by
        rw [← hothers.erase_eq, Entries.erase, Entries.erase, List.filter_append,
          List.filter_append, List.filter_cons_of_neg (by simp)]
      rw [hsame] at herase
      exact herase

end Table.Holds

end ChainIndex
