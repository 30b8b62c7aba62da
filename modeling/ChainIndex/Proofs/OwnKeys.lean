import ChainIndex.Proofs.StandardIndexes
import Mathlib.Data.List.Sort

/-!
# Keys of one's own

An index keeps to itself if it writes under one stem only.  If the stems of several indexes
are apart from one another and from that of the tips, then a batch with the edits of all of
them does under each stem what the edits of that index would do alone.

An index that reads under its stem only has the same edits for every two tables that are
alike there.
-/

namespace ChainIndex

/-!
# Stems apart
-/

/-- Neither of the two stems begins the other, so no key is under both. -/
def Bytes.Apart (a b : Bytes) : Prop :=
  ¬ a <+: b ∧ ¬ b <+: a

instance (a b : Bytes) : Decidable (a.Apart b) :=
  inferInstanceAs (Decidable (¬ a <+: b ∧ ¬ b <+: a))

namespace Bytes.Apart

variable {a b key : Bytes}

theorem symm (h : a.Apart b) : b.Apart a :=
  ⟨h.2, h.1⟩

theorem not_under (h : a.Apart b) (hkey : a <+: key) : ¬ b <+: key := by
  intro hother
  rcases List.prefix_or_prefix_of_prefix hkey hother with hbegins | hbegins
  · exact h.1 hbegins
  · exact h.2 hbegins

end Bytes.Apart

def Frontier.stem : Bytes :=
  Bytes.ofText "meta/tip/"

theorem Frontier.stem_key (track : Track) : Frontier.stem <+: Frontier.key track := by
  cases track
  · exact ⟨Bytes.ofText "concurrent", rfl⟩
  · exact ⟨Bytes.ofText "serial", rfl⟩

theorem Bytes.Apart.ne_tip {stem key : Bytes} (h : stem.Apart Frontier.stem) (hkey : stem <+: key)
    (track : Track) : key ≠ Frontier.key track := by
  intro hsame
  exact h.not_under hkey (hsame ▸ Frontier.stem_key track)

/-!
# Tables that are alike
-/

/-- The same can be read from both tables under these keys. -/
def Table.Alike (keys : Bytes → Prop) (a b : Table) : Prop :=
  ∀ key, keys key → a.get? key = b.get? key

namespace Table.Alike

variable {keys : Bytes → Prop} {a b c : Table}

theorem refl (keys : Bytes → Prop) (table : Table) : Alike keys table table :=
  fun _ _ => rfl

theorem symm (h : Alike keys a b) : Alike keys b a :=
  fun key hkey => (h key hkey).symm

theorem trans (h : Alike keys a b) (h' : Alike keys b c) : Alike keys a c :=
  fun key hkey => (h key hkey).trans (h' key hkey)

theorem mono {fewer : Bytes → Prop} (h : Alike keys a b) (hfewer : ∀ key, fewer key → keys key) :
    Alike fewer a b :=
  fun key hkey => h key (hfewer key hkey)

theorem apply (h : Alike keys a b) (edit : Edit) : Alike keys (a.apply edit) (b.apply edit) := by
  intro key hkey
  cases edit with
  | put k value => rw [get?_apply_put, get?_apply_put, h key hkey]
  | erase k => rw [get?_apply_erase, get?_apply_erase, h key hkey]

theorem commit (h : Alike keys a b) (edits : List Edit) :
    Alike keys (a.commit edits) (b.commit edits) := by
  induction edits generalizing a b with
  | nil => exact h
  | cons edit rest ih => exact ih (h.apply edit)

theorem of_untouched (table : Table) {edits : List Edit}
    (h : ∀ edit ∈ edits, ¬ keys edit.key) : Alike keys (table.commit edits) table := by
  intro key hkey
  apply get?_commit_of_untouched
  intro edit hedit hsame
  exact h edit hedit (hsame ▸ hkey)

end Table.Alike

theorem Entries.eq_of_mem_iff {a b : Entries} (ha : a.Ascending) (hb : b.Ascending)
    (h : ∀ key value, (key, value) ∈ a ↔ (key, value) ∈ b) : a = b := by
  have hirrefl : Std.Irrefl fun a b : Bytes × Bytes => a.1 < b.1 :=
    ⟨fun entry => List.lt_irrefl entry.1⟩
  have hantisymm : Std.Antisymm fun a b : Bytes × Bytes => a.1 < b.1 :=
    ⟨fun a _ hab hba => absurd (List.lt_trans hab hba) (List.lt_irrefl a.1)⟩
  exact List.Pairwise.eq_of_mem_iff ha hb fun entry => h entry.1 entry.2

theorem Entries.eq_of_get? {a b : Entries} (ha : a.Ascending) (hb : b.Ascending)
    (h : ∀ key, get? key a = get? key b) : a = b := by
  apply eq_of_mem_iff ha hb
  intro key value
  rw [← get?_eq_some_iff ha, ← get?_eq_some_iff hb, h key]

theorem Table.eq_of_get? {a b : Table} (h : ∀ key, a.get? key = b.get? key) : a = b := by
  cases a with
  | mk entries ascending =>
      cases b with
      | mk others ascending' =>
          have hsame : entries = others := Entries.eq_of_get? ascending ascending' h
          subst hsame
          rfl

/-!
# Nothing under a stem
-/

def Entries.Outside (entries : Entries) (stem : Bytes) : Prop :=
  ∀ entry ∈ entries, ¬ stem <+: entry.1

theorem Entries.Outside.lacks {entries : Entries} {stem key : Bytes} (h : entries.Outside stem)
    (hkey : stem <+: key) : entries.Lacks key := by
  intro entry hentry hsame
  exact h entry hentry (hsame ▸ hkey)

def Table.Free (table : Table) (stem : Bytes) : Prop :=
  ∀ key, stem <+: key → table.get? key = none

theorem Table.Free.outside {table : Table} {stem : Bytes} (h : table.Free stem) :
    table.entries.Outside stem := by
  intro entry hentry hunder
  have hfound := table.mem_entries_iff.mp hentry
  rw [h entry.1 hunder] at hfound
  cases hfound

/-!
# What an index keeps to itself
-/

def Index.WritesUnder (index : Index) (stem : Bytes) : Prop :=
  ∀ block direction view own, index.edits block direction view = .ok own →
    ∀ edit ∈ own, stem <+: edit.key

theorem Index.WritesUnder.sparesTips {index : Index} {stem : Bytes} (h : index.WritesUnder stem)
    (hapart : stem.Apart Frontier.stem) : index.SparesTips := by
  intro block direction view own hown edit hedit
  exact hapart.ne_tip (h block direction view own hown edit hedit)

def Index.ReadsUnder (index : Index) (stem : Bytes) : Prop :=
  ∀ block direction a b, Table.Alike (stem <+: ·) a b →
    index.edits block direction (.clear a) = index.edits block direction (.clear b)

/-- Each index has a stem of its own, apart from the other stems and from that of the tips,
and writes under this stem only. -/
structure Catalogue.KeepsApart (catalogue : Catalogue) (stem : Index → Bytes) : Prop where
  apart : catalogue.Pairwise fun a b => (stem a).Apart (stem b)
  tips : ∀ index ∈ catalogue, (stem index).Apart Frontier.stem
  writes : ∀ index ∈ catalogue, index.WritesUnder (stem index)

namespace Catalogue

variable {catalogue : Catalogue} {stem : Index → Bytes} {indexes : List Index} {index : Index}
variable {block : Block} {direction : Direction} {view : View} {edits : List Edit} {edit : Edit}

theorem mem_of_mem_on {track : Track} (h : index ∈ catalogue.on track) : index ∈ catalogue :=
  (List.mem_filter.mp h).1

/-!
# Edits that are gathered
-/

theorem exists_of_mem_gather (h : gather block direction view indexes = .ok edits)
    (hedit : edit ∈ edits) :
    ∃ index ∈ indexes, ∃ own, index.edits block direction view = .ok own ∧ edit ∈ own := by
  induction indexes generalizing edits with
  | nil =>
      cases h
      cases hedit
  | cons index rest ih =>
      rw [gather] at h
      split at h
      · cases h
      · rename_i own hown
        split at h
        · cases h
        · rename_i more hmore
          cases h
          rcases List.mem_append.mp hedit with hedit | hedit
          · exact ⟨index, List.mem_cons_self, own, Index.edits_of_editsFor hown, hedit⟩
          · rcases ih hmore hedit with ⟨other, hother, hfrom⟩
            exact ⟨other, List.mem_cons_of_mem _ hother, hfrom⟩

theorem exists_of_mem_indexes (h : gather block direction view indexes = .ok edits)
    (hindex : index ∈ indexes) :
    ∃ own, index.edits block direction view = .ok own ∧ ∀ edit ∈ own, edit ∈ edits := by
  induction indexes generalizing edits with
  | nil => cases hindex
  | cons first rest ih =>
      rw [gather] at h
      split at h
      · cases h
      · rename_i own hown
        split at h
        · cases h
        · rename_i more hmore
          cases h
          rcases List.mem_cons.mp hindex with rfl | hindex
          · exact ⟨own, Index.edits_of_editsFor hown, fun edit => List.mem_append_left more⟩
          · rcases ih hmore hindex with ⟨found, hfound, hsub⟩
            exact ⟨found, hfound, fun edit hedit => List.mem_append_right own (hsub edit hedit)⟩

theorem exists_gather (h : ∀ index ∈ indexes, ∃ own, index.edits block direction view = .ok own) :
    ∃ edits, gather block direction view indexes = .ok edits := by
  induction indexes with
  | nil => exact ⟨[], rfl⟩
  | cons index rest ih =>
      rcases h index List.mem_cons_self with ⟨own, hown⟩
      rcases ih fun other hother => h other (List.mem_cons_of_mem _ hother) with ⟨more, hmore⟩
      refine ⟨own ++ more, ?_⟩
      rw [gather, Index.editsFor_of_edits hown, hmore]

theorem gather_congr {other : View}
    (h : ∀ index ∈ indexes, index.edits block direction view = index.edits block direction other) :
    gather block direction view indexes = gather block direction other indexes := by
  induction indexes with
  | nil => rfl
  | cons index rest ih =>
      have hown : index.editsFor block direction view = index.editsFor block direction other := by
        rw [Index.editsFor, Index.editsFor, h index List.mem_cons_self]
      rw [gather, gather, hown, ih fun other hother => h other (List.mem_cons_of_mem _ hother)]

theorem alike_gathered (hapart : indexes.Pairwise fun a b => (stem a).Apart (stem b))
    (hwrites : ∀ index ∈ indexes, index.WritesUnder (stem index))
    (h : gather block direction view indexes = .ok edits) (hindex : index ∈ indexes)
    {own : List Edit} (hown : index.edits block direction view = .ok own) (table : Table) :
    Table.Alike (stem index <+: ·) (table.commit edits) (table.commit own) := by
  induction indexes generalizing edits table with
  | nil => cases hindex
  | cons first rest ih =>
      rcases List.pairwise_cons.mp hapart with ⟨hfirst, hrest⟩
      rw [gather] at h
      split at h
      · cases h
      · rename_i front hfront
        split at h
        · cases h
        · rename_i more hmore
          cases h
          rw [Table.commit_append]
          have hfound := Index.edits_of_editsFor hfront
          rcases List.mem_cons.mp hindex with rfl | hlater
          · have hsame : front = own := Except.ok.inj (hfound.symm.trans hown)
            rw [hsame]
            apply Table.Alike.of_untouched
            intro edit hedit
            rcases exists_of_mem_gather hmore hedit with ⟨other, hother, found, hedits, hmem⟩
            have hunder := hwrites other (List.mem_cons_of_mem _ hother) _ _ _ _ hedits edit hmem
            exact (hfirst other hother).symm.not_under hunder
          · refine (ih hrest (fun other hother => hwrites other (List.mem_cons_of_mem _ hother))
              hmore hlater (table.commit front)).trans (Table.Alike.commit ?_ own)
            apply Table.Alike.of_untouched
            intro edit hedit
            have hunder := hwrites first List.mem_cons_self _ _ _ _ hfound edit hedit
            exact (hfirst index hlater).not_under hunder

namespace KeepsApart

variable {track : Track}

theorem on (h : catalogue.KeepsApart stem) (track : Track) :
    (catalogue.on track).Pairwise (fun a b => (stem a).Apart (stem b)) ∧
      ∀ index ∈ catalogue.on track, index.WritesUnder (stem index) :=
  ⟨h.apart.filter _, fun index hindex => h.writes index (mem_of_mem_on hindex)⟩

theorem exists_under (h : catalogue.KeepsApart stem)
    (hedits : catalogue.edits track block direction view = .ok edits) (hedit : edit ∈ edits) :
    ∃ index ∈ catalogue.on track, stem index <+: edit.key := by
  rcases exists_of_mem_gather hedits hedit with ⟨index, hindex, own, hown, hmem⟩
  exact ⟨index, hindex, (h.on track).2 index hindex _ _ _ _ hown edit hmem⟩

theorem alike (h : catalogue.KeepsApart stem)
    (hedits : catalogue.edits track block direction view = .ok edits)
    (hindex : index ∈ catalogue.on track) {own : List Edit}
    (hown : index.edits block direction view = .ok own) (table : Table) :
    Table.Alike (stem index <+: ·) (table.commit edits) (table.commit own) :=
  alike_gathered (h.on track).1 (h.on track).2 hedits hindex hown table

theorem ne_tip (h : catalogue.KeepsApart stem) (hindex : index ∈ catalogue) {key : Bytes}
    (hkey : stem index <+: key) (track : Track) : key ≠ Frontier.key track :=
  (h.tips index hindex).ne_tip hkey track

theorem sparesTips (h : catalogue.KeepsApart stem) : catalogue.SparesTips :=
  fun index hindex => (h.writes index hindex).sparesTips (h.tips index hindex)

end KeepsApart

end Catalogue

/-!
# The standard indexes
-/

namespace Heights

def stem : Bytes :=
  Bytes.ofText "block/"

theorem apart_tips : stem.Apart Frontier.stem := by
  decide

theorem ne_tip_of_stem {key : Bytes} (hkey : stem <+: key) (track : Track) :
    key ≠ Frontier.key track :=
  apart_tips.ne_tip hkey track

theorem stem_hashKey (hash : BlockHash) : stem <+: hashKey hash :=
  ⟨Bytes.ofText "h/" ++ Bytes.ofText hash, rfl⟩

theorem stem_heightKey (height : UInt64) : stem <+: heightKey height :=
  ⟨Bytes.ofText "n/" ++ Numeral.hex 16 height.toNat, rfl⟩

theorem writesUnder : index.WritesUnder stem := by
  intro block direction view own hown edit hedit
  cases hown
  cases direction <;> simp only [edits, List.mem_cons, List.not_mem_nil, or_false] at hedit <;>
    rcases hedit with rfl | rfl
  · exact stem_hashKey block.hash
  · exact stem_heightKey block.height
  · exact stem_hashKey block.hash
  · exact stem_heightKey block.height

theorem readsUnder (stem : Bytes) : index.ReadsUnder stem :=
  fun _ _ _ _ _ => rfl

end Heights

namespace Times

def stem : Bytes :=
  Bytes.ofText "ts/"

theorem apart_tips : stem.Apart Frontier.stem := by
  decide

theorem ne_tip_of_stem {key : Bytes} (hkey : stem <+: key) (track : Track) :
    key ≠ Frontier.key track :=
  apart_tips.ne_tip hkey track

theorem stem_blockKey (hash : BlockHash) : stem <+: blockKey hash :=
  ⟨Bytes.ofText "b/" ++ Bytes.ofText hash, rfl⟩

theorem stem_timeKey (time : Int64) : stem <+: timeKey time :=
  ⟨Bytes.ofText "t/" ++ Numeral.hex 16 (fromLeast time), rfl⟩

theorem stem_lastKey : stem <+: lastKey :=
  ⟨Bytes.ofText "last", rfl⟩

theorem writesUnder : index.WritesUnder stem := by
  intro block direction view own hown edit hedit
  cases direction with
  | apply =>
      rcases edits_apply_ok hown with ⟨_, time, _, _, rfl⟩
      simp only [applied, List.mem_cons, List.not_mem_nil, or_false] at hedit
      rcases hedit with rfl | rfl | rfl
      · exact stem_blockKey block.hash
      · exact stem_timeKey time
      · exact stem_lastKey
  | undo =>
      rcases edits_undo_ok hown with ⟨time, parent, _, _, rfl⟩
      simp only [undone, List.mem_cons, List.not_mem_nil, or_false] at hedit
      rcases hedit with rfl | rfl | rfl
      · exact stem_blockKey block.hash
      · exact stem_timeKey time
      · cases parent <;> exact stem_lastKey

theorem readsUnder : index.ReadsUnder stem := by
  intro block direction a b halike
  have hstored (key : Bytes) (hkey : stem <+: key) :
      stored (.clear a) key = stored (.clear b) key := by
    unfold stored
    rw [View.get?_clear, View.get?_clear, halike key hkey]
  have hlast : last (.clear a) = last (.clear b) := hstored lastKey stem_lastKey
  have htime (hash : BlockHash) : timeOf (.clear a) hash = timeOf (.clear b) hash :=
    hstored (blockKey hash) (stem_blockKey hash)
  have hparent : parentTime (.clear a) block = parentTime (.clear b) block := by
    unfold parentTime
    cases block.parent with
    | none => rfl
    | some parent => exact htime parent
  show edits block direction (.clear a) = edits block direction (.clear b)
  cases direction with
  | apply => rw [edits_apply_eq, edits_apply_eq, hlast]
  | undo => rw [edits_undo_eq, edits_undo_eq, htime, hparent]

end Times

theorem Catalogue.IsStandard.sparesTips {catalogue : Catalogue} (h : catalogue.IsStandard) :
    catalogue.SparesTips := by
  intro index hindex
  have hon : index ∈ catalogue.on index.track := by
    rw [Catalogue.on, List.mem_filter]
    exact ⟨hindex, by simp⟩
  cases htrack : index.track with
  | concurrent =>
      rw [htrack, h.concurrent, List.mem_singleton] at hon
      rw [hon]
      exact Heights.writesUnder.sparesTips Heights.apart_tips
  | serial =>
      rw [htrack, h.serial, List.mem_singleton] at hon
      rw [hon]
      exact Times.writesUnder.sparesTips Times.apart_tips

def Index.standardStem (index : Index) : Bytes :=
  if index.ordered then Times.stem else Heights.stem

namespace Catalogue

theorem mem_standard {index : Index} (h : index ∈ [Heights.index, Times.index]) :
    index = Heights.index ∨ index = Times.index := by
  rcases List.mem_cons.mp h with rfl | hlater
  · exact Or.inl rfl
  · exact Or.inr (List.mem_singleton.mp hlater)

theorem keepsApart_standard : KeepsApart [Heights.index, Times.index] Index.standardStem where
  apart := by
    rw [List.pairwise_pair]
    decide
  tips := by
    intro index hindex
    rcases mem_standard hindex with rfl | rfl <;> decide
  writes := by
    intro index hindex
    rcases mem_standard hindex with rfl | rfl
    · exact Heights.writesUnder
    · exact Times.writesUnder

theorem readsUnder_standard :
    ∀ index ∈ [Heights.index, Times.index], index.ReadsUnder index.standardStem := by
  intro index hindex
  rcases mem_standard hindex with rfl | rfl
  · exact Heights.readsUnder _
  · exact Times.readsUnder

end Catalogue

end ChainIndex
