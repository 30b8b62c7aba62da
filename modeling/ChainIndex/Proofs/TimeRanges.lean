import ChainIndex.Proofs.StemScans
import ChainIndex.Proofs.TimeStack

/-!
# Blocks by time

Numerals of one width are ordered as the numbers they denote, so the keys of times are ordered
as the times.  A scan over a range of keys then finds the blocks of a pile whose times lie in
the range, in the order of these times.
-/

namespace ChainIndex

/-!
# The order of keys
-/

namespace Bytes

theorem append_lt_append_iff {stem a b : Bytes} : stem ++ a < stem ++ b ↔ a < b := by
  induction stem with
  | nil => rfl
  | cons first rest ih =>
      rw [List.cons_append, List.cons_append, List.cons_lt_cons_iff, ih]
      simp [UInt8.lt_irrefl]

theorem snoc_lt_snoc_iff {a b : Bytes} {x y : UInt8} (h : a.length = b.length) :
    a ++ [x] < b ++ [y] ↔ a < b ∨ a = b ∧ x < y := by
  induction a generalizing b with
  | nil =>
      rw [List.eq_nil_of_length_eq_zero h.symm]
      simp [List.cons_lt_cons_iff]
  | cons first rest ih =>
      cases b with
      | nil => cases h
      | cons second others =>
          rw [List.cons_append, List.cons_append, List.cons_lt_cons_iff, List.cons_lt_cons_iff,
            ih (Nat.succ.inj h), List.cons.injEq]
          tauto

end Bytes

namespace Numeral

theorem hexDigit_lt_iff {a b : Nat} (ha : a < 16) (hb : b < 16) :
    hexDigit a < hexDigit b ↔ a < b := by
  have key : ∀ j k : Fin 16, hexDigit j.val < hexDigit k.val ↔ j.val < k.val := by decide
  exact key ⟨a, ha⟩ ⟨b, hb⟩

theorem hex_lt_iff {width a b : Nat} (ha : a < 16 ^ width) (hb : b < 16 ^ width) :
    hex width a < hex width b ↔ a < b := by
  induction width generalizing a b with
  | zero =>
      have hzero : b = 0 := by simpa using hb
      simp [hex, hzero]
  | succ width ih =>
      -- The last digit counts only where the digits before it are the same.
      have hpow : 16 ^ (width + 1) = 16 ^ width * 16 := Nat.pow_succ 16 width
      have ha' : a / 16 < 16 ^ width := Nat.div_lt_of_lt_mul (by omega)
      have hb' : b / 16 < 16 ^ width := Nat.div_lt_of_lt_mul (by omega)
      have hsame : hex width (a / 16) = hex width (b / 16) ↔ a / 16 = b / 16 :=
        ⟨hex_injective ha' hb', congrArg _⟩
      rw [hex, hex, Bytes.snoc_lt_snoc_iff (by simp), ih ha' hb', hsame,
        hexDigit_lt_iff (Nat.mod_lt _ (by decide)) (Nat.mod_lt _ (by decide))]
      omega

end Numeral

namespace Times

variable {start table : Table} {blocks : List Block} {time : Int} {first final : Int64}

theorem keyOf_lt_iff {other : Int} (hword : Word time) (hother : Word other) :
    keyOf time < keyOf other ↔ time < other := by
  have hmin : Int64.minValue.toInt = -2 ^ 63 := rfl
  have hmax : Int64.maxValue.toInt = 2 ^ 63 - 1 := rfl
  unfold Word at hword hother
  rw [keyOf, keyOf, Bytes.append_lt_append_iff, Numeral.hex_lt_iff (by omega) (by omega)]
  omega

theorem keyOf_le_iff {other : Int} (hword : Word time) (hother : Word other) :
    keyOf time ≤ keyOf other ↔ time ≤ other := by
  rw [← List.not_lt, keyOf_lt_iff hother hword, Int.not_lt]

/-!
# Ranges of keys
-/

def rangeEnd (final : Int64) : Option Bytes :=
  match next? final with
  | some time => some (timeKey time)
  | none => timeStem.ceiling

theorem between_clear (table : Table) (first final : Int64) :
    between (.clear table) first final =
      if final < first then .ok []
      else (table.scan (timeKey first) (rangeEnd final)).mapM
        fun entry => storedText name entry.2 :=
  rfl

theorem word_toInt (time : Int64) : Word time.toInt :=
  ⟨Int64.minValue_le_toInt time, Int64.toInt_le time⟩

theorem under_keyOf (time : Int) : timeStem <+: keyOf time :=
  List.prefix_append _ _

theorem below_rangeEnd_iff (hword : Word time) :
    (∀ bound ∈ rangeEnd final, keyOf time < bound) ↔ time ≤ final.toInt := by
  unfold rangeEnd
  cases hnext : next? final with
  | some next =>
      have hkey : keyOf time < timeKey next ↔ time < next.toInt :=
        keyOf_lt_iff hword (word_toInt next)
      have hstep := next?_eq_some hnext
      simp only [Option.mem_def, Option.some.injEq, forall_eq', hkey]
      omega
  | none =>
      have hunder := (Bytes.within_ceiling_iff timeStem (keyOf time)).mpr (under_keyOf time)
      have htop := next?_eq_none hnext
      exact ⟨fun _ => htop ▸ hword.2, fun _ => hunder.2⟩

theorem under_of_within {key : Bytes} (hlow : timeKey first ≤ key)
    (hhigh : ∀ bound ∈ rangeEnd final, key < bound) : timeStem <+: key := by
  apply (Bytes.within_ceiling_iff timeStem key).mp
  have hfirst := (Bytes.within_ceiling_iff timeStem (timeKey first)).mpr (List.prefix_append _ _)
  refine ⟨List.le_trans hfirst.1 hlow, fun bound hbound => ?_⟩
  unfold rangeEnd at hhigh
  cases hnext : next? final with
  | some next =>
      rw [hnext] at hhigh
      have hnext := (Bytes.within_ceiling_iff timeStem (timeKey next)).mpr (List.prefix_append _ _)
      exact List.lt_trans (hhigh _ rfl) (hnext.2 bound hbound)
  | none =>
      rw [hnext] at hhigh
      exact hhigh bound hbound

/-!
# Scans over a range
-/

def timeEntry (pair : Block × Int) : Bytes × Bytes :=
  (keyOf pair.2, Bytes.ofText pair.1.hash)

def within (blocks : List Block) (first final : Int64) : List (Block × Int) :=
  (assigned none blocks).filter fun pair => first.toInt ≤ pair.2 ∧ pair.2 ≤ final.toInt

theorem mem_within {pair : Block × Int} :
    pair ∈ within blocks first final ↔
      pair ∈ assigned none blocks ∧ first.toInt ≤ pair.2 ∧ pair.2 ≤ final.toInt := by
  rw [within, List.mem_filter, decide_eq_true_eq]

theorem within_eq_nil (h : final < first) : within blocks first final = [] := by
  rw [List.eq_nil_iff_forall_not_mem]
  intro pair hpair
  have hrange := (mem_within.mp hpair).2
  have hlt := Int64.lt_iff_toInt_lt.mp h
  omega

theorem within_ascending (blocks : List Block) (first final : Int64) :
    (within blocks first final).Pairwise fun a b => a.2 < b.2 :=
  (assigned_ascending blocks).filter _

theorem map_fst_assigned (last : Option Int) (blocks : List Block) :
    (assigned last blocks).map Prod.fst = blocks := by
  induction blocks generalizing last with
  | nil => rfl
  | cons block rest ih => rw [assigned, List.map_cons, ih]

theorem within_hashes_nodup (hdistinct : blocks.Pairwise fun a b => a.hash ≠ b.hash)
    (first final : Int64) : ((within blocks first final).map fun pair => pair.1.hash).Nodup := by
  rw [← map_fst_assigned none blocks, List.pairwise_map] at hdistinct
  exact List.pairwise_map.mpr (hdistinct.filter _)

theorem exists_timeEntry {entry : Bytes × Bytes} (h : entry ∈ entries blocks)
    (hunder : timeStem <+: entry.1) : ∃ pair ∈ assigned none blocks, entry = timeEntry pair := by
  rcases List.mem_append.mp h with hpair | hlast
  · rcases List.mem_flatMap.mp hpair with ⟨pair, hpair, hentry⟩
    rcases List.mem_cons.mp hentry with rfl | hentry
    · have hapart : (Bytes.ofText "ts/b/").Apart timeStem := by decide
      exact absurd hunder (hapart.not_under (List.prefix_append _ _))
    · exact ⟨pair, hpair, List.mem_singleton.mp hentry⟩
  · rcases List.mem_map.mp hlast with ⟨last, _, rfl⟩
    exact absurd hunder (show ¬ timeStem <+: lastKey by decide)

theorem Fit.within_keys_iff (h : Fit blocks) {pair : Block × Int}
    (hpair : pair ∈ assigned none blocks) :
    (timeKey first ≤ keyOf pair.2 ∧ ∀ bound ∈ rangeEnd final, keyOf pair.2 < bound) ↔
      first.toInt ≤ pair.2 ∧ pair.2 ≤ final.toInt := by
  rw [below_rangeEnd_iff (h.word hpair)]
  exact and_congr_left' (keyOf_le_iff (word_toInt first) (h.word hpair))

namespace Adds

theorem mem_scan_iff (h : Adds start blocks table) (hfree : start.Free stem) {key value : Bytes} :
    (key, value) ∈ table.scan (timeKey first) (rangeEnd final) ↔
      (key, value) ∈ (within blocks first final).map timeEntry := by
  rw [Table.mem_scan_iff, List.mem_map]
  constructor
  · rintro ⟨hget, hlow, hhigh⟩
    have hunder := under_of_within hlow hhigh
    have hstem : stem <+: key := List.IsPrefix.trans ⟨Bytes.ofText "t/", rfl⟩ hunder
    have hentry := (h.holds key (ne_tip_of_stem hstem) value).mp hget
    rcases List.mem_append.mp hentry with hstart | hown
    · exact absurd hstem (hfree.outside _ hstart)
    · rcases exists_timeEntry hown hunder with ⟨pair, hpair, hentry⟩
      cases hentry
      exact ⟨pair, mem_within.mpr ⟨hpair, (h.fit.within_keys_iff hpair).mp ⟨hlow, hhigh⟩⟩, rfl⟩
  · rintro ⟨pair, hpair, hentry⟩
    cases hentry
    rcases mem_within.mp hpair with ⟨hpair, hrange⟩
    refine ⟨(h.holds _ (ne_tip_of_stem (stem_keyOf pair.2)) _).mpr ?_,
      (h.fit.within_keys_iff hpair).mpr hrange⟩
    have hentry : timeEntry pair ∈ pairEntries blocks :=
      List.mem_flatMap.mpr ⟨pair, hpair, List.mem_cons_of_mem _ List.mem_cons_self⟩
    exact List.mem_append_right _ (List.mem_append_left _ hentry)

theorem scan_eq (h : Adds start blocks table) (hfree : start.Free stem) (first final : Int64) :
    table.scan (timeKey first) (rangeEnd final) = (within blocks first final).map timeEntry := by
  have hkeys : Entries.Ascending ((within blocks first final).map timeEntry) := by
    refine List.pairwise_map.mpr ((within_ascending blocks first final).imp_of_mem ?_)
    intro a b ha hb hlt
    exact (keyOf_lt_iff (h.fit.word (mem_within.mp ha).1) (h.fit.word (mem_within.mp hb).1)).mpr hlt
  exact Entries.eq_of_mem_iff (Table.scan_ascending _ _ _) hkeys fun key value =>
    h.mem_scan_iff hfree

end Adds

theorem mapM_storedText (pairs : List (Block × Int)) :
    (pairs.map timeEntry).mapM (fun entry => storedText name entry.2) =
      .ok (pairs.map fun pair => pair.1.hash) := by
  induction pairs with
  | nil => rfl
  | cons pair rest ih =>
      have hfirst : storedText name (timeEntry pair).2 = .ok pair.1.hash :=
        storedText_ofText name pair.1.hash
      rw [List.map_cons, List.mapM_cons, hfirst, ih]
      rfl

theorem Adds.between_eq (h : Adds start blocks table) (hfree : start.Free stem)
    (first final : Int64) :
    between (.clear table) first final =
      .ok ((within blocks first final).map fun pair => pair.1.hash) := by
  rw [between_clear, h.scan_eq hfree, mapM_storedText]
  by_cases hempty : final < first
  · rw [if_pos hempty, within_eq_nil hempty]
    rfl
  · rw [if_neg hempty]

end Times

/-- On a pile of blocks a query by time finds the blocks whose assigned times are from the first
to the final one, both included, each of them once and in the order of these times. -/
theorem blocks_are_found_by_time {start table : Table} {pile : List (Block × Table)}
    (hfree : start.Free Times.stem) (h : Times.index.Piles start pile table)
    (first final : Int64) :
    ∃ hits : List (Block × Int),
      Times.between (.clear table) first final = .ok (hits.map fun hit => hit.1.hash) ∧
      hits.Pairwise (fun a b => a.2 < b.2) ∧ (hits.map fun hit => hit.1.hash).Nodup ∧
      (∀ hit, hit ∈ hits ↔ hit ∈ Times.assigned none (pile.map Prod.fst) ∧
        first.toInt ≤ hit.2 ∧ hit.2 ≤ final.toInt) ∧
      (∀ hit ∈ hits, ∃ time,
        Times.timeOf (.clear table) hit.1.hash = .ok (some time) ∧ time.toInt = hit.2) ∧
      (final < first → hits = []) := by
  have hadds := Times.adds_of_piles hfree h
  refine ⟨Times.within (pile.map Prod.fst) first final, hadds.between_eq hfree first final,
    Times.within_ascending _ _ _, Times.within_hashes_nodup h.piled.distinct first final, ?_, ?_,
    Times.within_eq_nil⟩
  · intro hit
    exact Times.mem_within
  · intro hit hhit
    exact hadds.exists_time (Times.mem_within.mp hhit).1

/-- A range that begins at the time of the second block and ends at the greatest time. -/
theorem blocks_are_found_by_time_of_sample :
    Sample.labelled.Free Times.stem ∧ Times.index.Piles Sample.labelled Sample.pile Sample.heaped ∧
    Times.between (.clear Sample.heaped) 51 Int64.maxValue = .ok ["b", "c"] ∧
    ∃ hits : List (Block × Int), (hits.map fun hit => hit.1.hash) = ["b", "c"] ∧
      (Sample.first, 50) ∉ hits ∧ (Sample.second, 51) ∈ hits ∧
      (Sample.utmost, 9223372036854775807) ∈ hits := by
  have hfree : Sample.labelled.Free Times.stem := Sample.labelled_free (by decide)
  rcases blocks_are_found_by_time hfree Sample.piles 51 Int64.maxValue with
    ⟨hits, hbetween, _, _, hhits, _⟩
  have hfound : Times.between (.clear Sample.heaped) 51 Int64.maxValue = .ok ["b", "c"] := rfl
  refine ⟨hfree, Sample.piles, hfound, hits,
    Except.ok.inj (hbetween.symm.trans hfound), ?_, ?_, ?_⟩
  · rw [hhits]
    decide
  · rw [hhits]
    decide
  · rw [hhits]
    decide

end ChainIndex
