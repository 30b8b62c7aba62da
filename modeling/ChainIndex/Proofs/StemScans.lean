import ChainIndex.Index.Basic
import ChainIndex.Proofs.Holdings
import Mathlib.Data.List.Induction

/-!
# Scans of a stem

The keys that start with a stem are those from the stem on and below its ceiling.  So a scan
of that interval finds the entries under the stem, no more and no fewer, and which entries
these are is told by the edits that the table has taken: of the edits under one key the last
one counts, whichever batch it came in.
-/

namespace ChainIndex

namespace Bytes

variable {b k : UInt8} {rest others above : Bytes}

/-!
# The interval of a stem

A first byte decides which of two byte strings comes first, and where they share it the
remaining bytes do.
-/

theorem not_cons_le_nil (b : UInt8) (rest : Bytes) : ¬ b :: rest ≤ [] := by
  intro hle
  exact hle (List.nil_lt_cons b rest)

theorem cons_le_cons_lt_iff :
    (b :: rest ≤ k :: others ∧ k :: others < b :: above) ↔
      b = k ∧ rest ≤ others ∧ others < above := by
  rw [List.cons_le_cons_iff, List.cons_lt_cons_iff]
  constructor
  · rintro ⟨hlow, hhigh⟩
    rcases hlow with hlow | ⟨rfl, hlow⟩
    · rcases hhigh with hhigh | ⟨rfl, _⟩
      · exact absurd hhigh (UInt8.lt_asymm hlow)
      · exact absurd hlow (UInt8.lt_irrefl k)
    · rcases hhigh with hhigh | ⟨_, hhigh⟩
      · exact absurd hhigh (UInt8.lt_irrefl b)
      · exact ⟨rfl, hlow, hhigh⟩
  · rintro ⟨rfl, hle, hlt⟩
    exact ⟨Or.inr ⟨rfl, hle⟩, Or.inr ⟨rfl, hlt⟩⟩

theorem cons_le_cons_of_le_iff (hle : k ≤ b) :
    b :: rest ≤ k :: others ↔ b = k ∧ rest ≤ others := by
  rw [List.cons_le_cons_iff]
  constructor
  · intro h
    exact h.resolve_left (UInt8.not_lt.mpr hle)
  · exact Or.inr

theorem cons_lt_raised_iff (hroom : b < 255) : k :: others < [b + 1] ↔ k ≤ b := by
  rw [List.cons_lt_cons_iff]
  have hbyte : k < b + 1 ↔ k ≤ b := by
    rw [UInt8.lt_iff_toNat_lt] at hroom ⊢
    rw [UInt8.le_iff_toNat_le, UInt8.toNat_add]
    have hone : (1 : UInt8).toNat = 1 := rfl
    have htop : (255 : UInt8).toNat = 255 := rfl
    omega
  simp [hbyte]

theorem le_of_not_lt_top (h : ¬ b < 255) : k ≤ b := by
  rw [UInt8.lt_iff_toNat_lt] at h
  rw [UInt8.le_iff_toNat_le]
  have hbound := k.toNat_lt
  have htop : (255 : UInt8).toNat = 255 := rfl
  omega

/-- Byte strings from the stem on and below its ceiling are those that start with it. -/
theorem within_ceiling_iff (stem key : Bytes) :
    (stem ≤ key ∧ ∀ bound ∈ stem.ceiling, key < bound) ↔ stem <+: key := by
  induction stem generalizing key with
  | nil => simp [ceiling]
  | cons b rest ih =>
      cases key with
      | nil =>
          constructor
          · intro h
            exact absurd h.1 (not_cons_le_nil b rest)
          · intro h
            cases List.prefix_nil.mp h
      | cons k others =>
          rw [List.cons_prefix_cons, ← ih others, ceiling]
          cases hrest : ceiling rest with
          | some above =>
              simpa using cons_le_cons_lt_iff
          | none =>
              by_cases hroom : b < 255
              · simp only [hroom, if_true, Option.mem_def, Option.some.injEq, forall_eq',
                  cons_lt_raised_iff hroom, reduceCtorEq, false_implies, implies_true, and_true]
                constructor
                · rintro ⟨hlow, hhigh⟩
                  exact (cons_le_cons_of_le_iff hhigh).mp hlow
                · rintro ⟨rfl, hle⟩
                  exact ⟨(cons_le_cons_of_le_iff UInt8.le_rfl).mpr ⟨rfl, hle⟩, UInt8.le_rfl⟩
              · simp [hroom, cons_le_cons_of_le_iff (le_of_not_lt_top hroom)]

/-!
# The ceiling
-/

def Exceeds (bound stem : Bytes) : Prop :=
  ∀ key, stem <+: key → key < bound

variable {stem bound : Bytes}

theorem Exceeds.ceiling_le (h : bound.Exceeds stem) :
    ∃ top, stem.ceiling = some top ∧ top ≤ bound := by
  -- Such a bound comes after the stem and is not under it, so it is not below the ceiling.
  have hself : stem < bound := h stem (List.prefix_refl stem)
  have hnot : ¬ stem <+: bound := fun hunder => List.lt_irrefl bound (h bound hunder)
  cases htop : stem.ceiling with
  | none =>
      refine absurd ((within_ceiling_iff stem bound).mp ⟨Std.le_of_lt hself, ?_⟩) hnot
      simp [htop]
  | some top =>
      refine ⟨top, rfl, List.not_lt.mp fun hlt => hnot ?_⟩
      apply (within_ceiling_iff stem bound).mp
      refine ⟨Std.le_of_lt hself, ?_⟩
      simpa [htop] using hlt

theorem exceeds_ceiling (h : stem.ceiling = some bound) : bound.Exceeds stem := by
  intro key hkey
  exact ((within_ceiling_iff stem key).mpr hkey).2 bound h

/-- The ceiling is the least byte string after everything under the stem. -/
theorem ceiling_eq_some_iff :
    stem.ceiling = some bound ↔
      bound.Exceeds stem ∧ ∀ other : Bytes, other.Exceeds stem → bound ≤ other := by
  constructor
  · intro h
    refine ⟨exceeds_ceiling h, fun other hother => ?_⟩
    rcases hother.ceiling_le with ⟨top, htop, hle⟩
    rw [h] at htop
    exact Option.some.inj htop ▸ hle
  · rintro ⟨hexceeds, hleast⟩
    rcases hexceeds.ceiling_le with ⟨top, htop, hle⟩
    rw [htop, List.le_antisymm hle (hleast top (exceeds_ceiling htop))]

theorem ceiling_eq_none_iff : stem.ceiling = none ↔ ∀ bound : Bytes, ¬ bound.Exceeds stem := by
  constructor
  · intro h bound hexceeds
    rcases hexceeds.ceiling_le with ⟨top, htop, _⟩
    rw [h] at htop
    cases htop
  · intro h
    rw [Option.eq_none_iff_forall_ne_some]
    intro top htop
    exact h top (exceeds_ceiling htop)

example : ceiling [1, 255] = some [2] ∧ ceiling [255, 255] = none := by decide

end Bytes

/-!
# Scans
-/

namespace Table

theorem mem_scan_iff (table : Table) {start : Bytes} {stop : Option Bytes} {key value : Bytes} :
    (key, value) ∈ table.scan start stop ↔
      table.get? key = some value ∧ start ≤ key ∧ ∀ bound ∈ stop, key < bound := by
  rw [scan, List.mem_filter, mem_entries_iff]
  simp

theorem mem_scanStem_iff (table : Table) {stem key value : Bytes} :
    (key, value) ∈ table.scanStem stem ↔ stem <+: key ∧ table.get? key = some value := by
  rw [scanStem, mem_scan_iff, Bytes.within_ceiling_iff, and_comm]

theorem scan_ascending (table : Table) (start : Bytes) (stop : Option Bytes) :
    (table.scan start stop).Ascending :=
  table.ascending.filter _

end Table

/-!
# The last edit under a key
-/

def Edit.left : Edit → Option Bytes
  | .put _ value => some value
  | .erase _ => none

def Edit.last? (key : Bytes) (edits : List Edit) : Option Edit :=
  (edits.filter fun edit => edit.key = key).getLast?

namespace Edit

variable {key value : Bytes} {edits : List Edit} {edit : Edit}

theorem last?_snoc (key : Bytes) (edits : List Edit) (edit : Edit) :
    last? key (edits ++ [edit]) = if edit.key = key then some edit else last? key edits := by
  unfold last?
  rw [List.filter_append]
  by_cases hkey : edit.key = key
  · simp [hkey]
  · simp [hkey]

theorem key_of_last? (h : last? key edits = some edit) : edit.key = key := by
  have hmem := List.mem_of_getLast? h
  simpa using (List.mem_filter.mp hmem).2

theorem eq_put_iff (h : edit.key = key) : edit = .put key value ↔ edit.left = some value := by
  cases edit with
  | put k v =>
      subst h
      simp [left, Edit.key]
  | erase k => simp [left]

end Edit

namespace Table

theorem get?_apply_own (table : Table) (edit : Edit) :
    (table.apply edit).get? edit.key = edit.left := by
  cases edit with
  | put key value => rw [Edit.key, get?_apply_put, if_pos rfl, Edit.left]
  | erase key => rw [Edit.key, get?_apply_erase, if_pos rfl, Edit.left]

theorem get?_commit (table : Table) (edits : List Edit) (key : Bytes) :
    (table.commit edits).get? key =
      match Edit.last? key edits with
      | some edit => edit.left
      | none => table.get? key := by
  induction edits using List.reverseRecOn with
  | nil => rfl
  | append_singleton edits edit ih =>
      rw [commit_append, commit_cons, commit_nil, Edit.last?_snoc]
      by_cases hkey : edit.key = key
      · subst hkey
        rw [if_pos rfl, get?_apply_own]
      · rw [if_neg hkey, get?_apply_of_ne _ hkey, ih]

theorem foldl_commit (table : Table) (batches : List (List Edit)) :
    batches.foldl commit table = table.commit batches.flatten := by
  induction batches generalizing table with
  | nil => rfl
  | cons batch rest ih => rw [List.foldl_cons, ih, List.flatten_cons, commit_append]

theorem get?_commit_empty_iff (edits : List Edit) {key value : Bytes} :
    (empty.commit edits).get? key = some value ↔
      Edit.last? key edits = some (.put key value) := by
  rw [get?_commit]
  cases hlast : Edit.last? key edits with
  | none => simp
  | some edit =>
      rw [Option.some.injEq, Edit.eq_put_iff (Edit.key_of_last? hlast)]

end Table

/-- On a table that began empty, a scan of a stem lists in strictly ascending order those
entries under the stem that the last edit under their key has put there.  The scan ends at the
least byte string after everything under the stem, and runs on to the end where there is none. -/
theorem stem_scan_is_exact (batches : List (List Edit)) (stem : Bytes) :
    (∃ found, (View.clear (batches.foldl Table.commit .empty)).scanStem stem = .ok found ∧
      found.Ascending ∧
      ∀ key value, (key, value) ∈ found ↔
        stem <+: key ∧ Edit.last? key batches.flatten = some (.put key value)) ∧
    (∀ bound, stem.ceiling = some bound ↔
      bound.Exceeds stem ∧ ∀ other : Bytes, other.Exceeds stem → bound ≤ other) ∧
    (stem.ceiling = none ↔ ∀ bound : Bytes, ¬ bound.Exceeds stem) := by
  refine ⟨⟨_, rfl, Table.scan_ascending _ _ _, fun key value => ?_⟩,
    fun bound => Bytes.ceiling_eq_some_iff, Bytes.ceiling_eq_none_iff⟩
  rw [← Table.get?_commit_empty_iff, ← Table.foldl_commit]
  exact Table.mem_scanStem_iff _

end ChainIndex
