import ChainIndex.Proofs.CalmHosts
import ChainIndex.Proofs.Replays
import ChainIndex.Proofs.Stages
import Mathlib.Data.List.Pairwise

/-!
# Two replays woven into one table

Blocks may be put on the concurrent track in groups and on the serial track one by one, and
the two tracks may take turns.  If the edits of the concurrent track depend on the block alone,
and the indexes of the serial track read nothing but their own entries, then neither track sees
what the other has done: under the keys of the serial track the table is where a replay of that
track leads, and under all other keys it is where a replay of the concurrent track leads.
-/

namespace ChainIndex

/-- The edits that enter a block depend on nothing but the block. -/
def Index.IsBlind (index : Index) : Prop :=
  ∀ block a b, index.edits block .apply (.clear a) = index.edits block .apply (.clear b)

namespace Catalogue

variable {catalogue : Catalogue} {stem : Index → Bytes} {track : Track} {block last : Block}
variable {blocks group : List Block} {table after high : Table} {own edits : List Edit}
variable {edit : Edit} {direction : Direction} {view : View}

/-!
# Keys of the serial track
-/

/-- The key is that of the serial tip, or it is one that an index of the serial track keeps to
itself. -/
def SerialKey (catalogue : Catalogue) (stem : Index → Bytes) (key : Bytes) : Prop :=
  key = Frontier.key .serial ∨ ∃ index ∈ catalogue.on .serial, stem index <+: key

namespace KeepsApart

theorem serialKey_of_serial (h : catalogue.KeepsApart stem)
    (hedits : catalogue.edits .serial block direction view = .ok edits) (hedit : edit ∈ edits) :
    catalogue.SerialKey stem edit.key :=
  Or.inr (h.exists_under hedits hedit)

theorem not_serialKey_of_concurrent (h : catalogue.KeepsApart stem)
    (hedits : catalogue.edits .concurrent block direction view = .ok edits)
    (hedit : edit ∈ edits) : ¬ catalogue.SerialKey stem edit.key := by
  rcases h.exists_under hedits hedit with ⟨index, hindex, hstem⟩
  have hmem := mem_of_mem_on hindex
  rintro (htip | ⟨other, hother, hunder⟩)
  · exact h.ne_tip hmem hstem .serial htip
  · have hne : index ≠ other := by
      rintro rfl
      have htrack := of_decide_eq_true (List.mem_filter.mp hindex).2
      have htrack' := of_decide_eq_true (List.mem_filter.mp hother).2
      cases htrack.symm.trans htrack'
    have hsymm : Std.Symm fun a b => (stem a).Apart (stem b) := ⟨fun _ _ => Bytes.Apart.symm⟩
    exact (h.apart.forall hmem (mem_of_mem_on hother) hne).not_under hstem hunder

theorem not_serialKey_tip (h : catalogue.KeepsApart stem) :
    ¬ catalogue.SerialKey stem (Frontier.key .concurrent) := by
  rintro (htip | ⟨index, hindex, hunder⟩)
  · exact Frontier.key_ne _ _ (by decide) htip
  · exact h.ne_tip (mem_of_mem_on hindex) hunder .concurrent rfl

end KeepsApart

/-!
# What a replay leaves alone
-/

theorem Leads.alike {keys : Bytes → Prop} (h : catalogue.Leads track table blocks after)
    (htip : ¬ keys (Frontier.key track))
    (hown : ∀ block view own, catalogue.edits track block .apply view = .ok own →
      ∀ edit ∈ own, ¬ keys edit.key) : Table.Alike keys after table := by
  induction h with
  | stay table => exact .refl keys table
  | @on table after block rest own hedits _ ih =>
      refine ih.trans (Table.Alike.of_untouched table ?_)
      intro edit hedit
      rcases List.mem_append.mp hedit with hedit | hedit
      · exact hown _ _ _ hedits edit hedit
      · rw [List.mem_singleton.mp hedit]
        exact htip

theorem Leads.alike_serial (h : catalogue.Leads .concurrent table blocks after)
    (hapart : catalogue.KeepsApart stem) :
    Table.Alike (catalogue.SerialKey stem) after table :=
  h.alike hapart.not_serialKey_tip fun _ _ _ hedits _ hedit =>
    hapart.not_serialKey_of_concurrent hedits hedit

theorem Leads.alike_others (h : catalogue.Leads .serial table blocks after)
    (hapart : catalogue.KeepsApart stem) :
    Table.Alike (fun key => ¬ catalogue.SerialKey stem key) after table :=
  h.alike (fun hnone => hnone (Or.inl rfl)) fun _ _ _ hedits _ hedit hnone =>
    hnone (hapart.serialKey_of_serial hedits hedit)

theorem Leads.get?_tip (h : catalogue.Leads track table blocks after)
    (hlast : blocks.getLast? = some last) :
    after.get? (Frontier.key track) = some last.pointer.write := by
  rcases List.eq_nil_or_concat blocks with rfl | ⟨front, block, rfl⟩
  · cases hlast
  · rw [List.concat_eq_append] at h hlast
    rw [List.getLast?_concat] at hlast
    rcases h.of_snoc with ⟨middle, own, _, _, rfl⟩
    rw [Frontier.get?_commit_edit_same, Option.some.inj hlast]

/-!
# Groups
-/

theorem edits_blind (hblind : ∀ index ∈ catalogue.on track, index.IsBlind) (block : Block)
    (a b : Table) :
    catalogue.edits track block .apply (.clear a) = catalogue.edits track block .apply (.clear b) :=
  gather_congr fun index hindex => hblind index hindex block a b

theorem Leads.exists_edits (h : catalogue.Leads track table blocks after)
    (hblind : ∀ index ∈ catalogue.on track, index.IsBlind) (hblock : block ∈ blocks)
    (other : Table) : ∃ own, catalogue.edits track block .apply (.clear other) = .ok own := by
  induction h with
  | stay _ => cases hblock
  | on hown _ ih =>
      rcases List.mem_cons.mp hblock with rfl | hblock
      · exact ⟨_, (edits_blind hblind _ other _).trans hown⟩
      · exact ih hblock

end Catalogue

namespace Forward.Gathers

variable {host : Host σ} {stem : Index → Bytes} {track : Track} {blocks : List Block}
variable {last : Block} {table : Table} {edits : List Edit}

/-- A batch with the edits of a whole group leads where the blocks of the group lead one by one,
but for the tips in between. -/
theorem exists_leads (h : Gathers host table track blocks edits) (hcalm : host.IsCalm)
    (hblind : ∀ index ∈ host.catalogue.on track, index.IsBlind) (start : Table) :
    ∃ high, host.catalogue.Leads track start blocks high ∧
      Table.Alike (· ≠ Frontier.key track) high (start.commit edits) := by
  induction h generalizing start with
  | none => exact ⟨start, .stay start, .refl _ start⟩
  | @more block rest outages own edits hreads hown _ ih =>
      rw [hcalm.reads hreads] at hown
      have hsame := (Catalogue.edits_blind hblind block start table).trans hown
      rcases ih (start.commit (own ++ [Frontier.edit track block.pointer])) with
        ⟨high, hleads, halike⟩
      refine ⟨high, .on hsame hleads, ?_⟩
      rw [Table.commit_append]
      refine halike.trans (Table.Alike.commit ?_ edits)
      intro key hkey
      exact Frontier.get?_commit_edit_of_ne start own block.pointer hkey.symm

theorem leads (h : Gathers host table track blocks edits) (hcalm : host.IsCalm)
    (hblind : ∀ index ∈ host.catalogue.on track, index.IsBlind)
    (hlast : blocks.getLast? = some last) (start : Table) :
    ∃ high, host.catalogue.Leads track start blocks high ∧
      high = start.commit (edits ++ [Frontier.edit track last.pointer]) := by
  rcases h.exists_leads hcalm hblind start with ⟨high, hleads, halike⟩
  refine ⟨high, hleads, Table.eq_of_get? fun key => ?_⟩
  by_cases hkey : key = Frontier.key track
  · rw [hkey, hleads.get?_tip hlast, Frontier.get?_commit_edit_same]
  · rw [halike key hkey, Frontier.get?_commit_edit_of_ne start edits last.pointer (Ne.symm hkey)]

theorem not_serialKey (h : Gathers host table .concurrent blocks edits)
    (hapart : host.catalogue.KeepsApart stem) :
    ∀ edit ∈ edits, ¬ host.catalogue.SerialKey stem edit.key := by
  induction h with
  | none => simp
  | more _ hown _ ih =>
      intro edit hedit
      rcases List.mem_append.mp hedit with hedit | hedit
      · exact hapart.not_serialKey_of_concurrent hown hedit
      · exact ih edit hedit

end Forward.Gathers

/-!
# Woven tables
-/

/-- The upper blocks have been put on the concurrent track and the lower ones on the serial
track.  The replay of the serial track is one that begins where all blocks are on the concurrent
track already. -/
structure Woven (catalogue : Catalogue) (stem : Index → Bytes) (start full : Table)
    (upper lower : List Block) (table : Table) : Prop where
  others : ∃ high, catalogue.Leads .concurrent start upper high ∧
    Table.Alike (fun key => ¬ catalogue.SerialKey stem key) table high
  own : ∃ low, catalogue.Leads .serial full lower low ∧
    Table.Alike (catalogue.SerialKey stem) table low

namespace Woven

variable {host : Host σ} {catalogue : Catalogue} {stem : Index → Bytes}
variable {start full table ended : Table} {upper lower group blocks : List Block}
variable {block last : Block} {edits own : List Edit} {pointer : Pointer}

theorem begin (hapart : catalogue.KeepsApart stem)
    (hfull : catalogue.Leads .concurrent start blocks full) :
    Woven catalogue stem start full [] [] start where
  others := ⟨start, .stay start, .refl _ start⟩
  own := ⟨full, .stay full, (hfull.alike_serial hapart).symm⟩

theorem grow (h : Woven host.catalogue stem start full upper lower table) (hcalm : host.IsCalm)
    (hapart : host.catalogue.KeepsApart stem)
    (hblind : ∀ index ∈ host.catalogue.on .concurrent, index.IsBlind)
    (hlast : group.getLast? = some last)
    (hgathers : Forward.Gathers host table .concurrent group edits) :
    Woven host.catalogue stem start full (upper ++ group) lower
      (table.commit (edits ++ [Frontier.edit .concurrent last.pointer])) where
  others := by
    rcases h.others with ⟨high, hleads, halike⟩
    rcases hgathers.leads hcalm hblind hlast high with ⟨higher, hgroup, rfl⟩
    exact ⟨_, hleads.append hgroup, halike.commit _⟩
  own := by
    rcases h.own with ⟨low, hleads, halike⟩
    refine ⟨low, hleads, (Table.Alike.of_untouched table ?_).trans halike⟩
    intro edit hedit
    rcases List.mem_append.mp hedit with hedit | hedit
    · exact hgathers.not_serialKey hapart edit hedit
    · rw [List.mem_singleton.mp hedit]
      exact hapart.not_serialKey_tip

theorem rise (h : Woven catalogue stem start full upper lower table)
    (hapart : catalogue.KeepsApart stem)
    (hreads : ∀ index ∈ catalogue.on .serial, index.ReadsUnder (stem index))
    (henters : catalogue.Enters start blocks)
    (hfull : catalogue.Leads .concurrent start blocks full) (hpart : lower ++ [block] <+: blocks) :
    ∃ own, catalogue.edits .serial block .apply (.clear table) = .ok own ∧
      Woven catalogue stem start full upper (lower ++ [block])
        (table.commit (own ++ [Frontier.edit .serial block.pointer])) := by
  rcases h.own with ⟨low, hleads, halike⟩
  have hvisits : catalogue.Visits start blocks .serial block low :=
    ⟨full, lower, hfull, hpart, hleads⟩
  rcases Catalogue.exists_gather (henters .serial block low hvisits) with ⟨own, hown⟩
  have hsame : catalogue.edits .serial block .apply (.clear table) = .ok own := by
    refine Eq.trans (Catalogue.gather_congr fun index hindex => ?_) hown
    exact hreads index hindex _ _ _ _ (halike.mono fun key hkey => Or.inr ⟨index, hindex, hkey⟩)
  refine ⟨own, hsame, ?_, ⟨_, hleads.snoc hown, halike.commit _⟩⟩
  rcases h.others with ⟨high, hhigh, halikeHigh⟩
  refine ⟨high, hhigh, (Table.Alike.of_untouched table ?_).trans halikeHigh⟩
  intro edit hedit hnone
  rcases List.mem_append.mp hedit with hedit | hedit
  · exact hnone (hapart.serialKey_of_serial hsame hedit)
  · rw [List.mem_singleton.mp hedit] at hnone
    exact hnone (Or.inl rfl)

/-- Once all blocks are on both tracks, the table is where the one replay after the other
leads. -/
theorem eq (h : Woven catalogue stem start full blocks blocks table)
    (hapart : catalogue.KeepsApart stem) (hfull : catalogue.Leads .concurrent start blocks full)
    (hended : catalogue.Leads .serial full blocks ended) : table = ended := by
  rcases h.others with ⟨high, hhigh, hothers⟩
  rcases h.own with ⟨low, hlow, hown⟩
  rw [hhigh.unique hfull] at hothers
  rw [hlow.unique hended] at hown
  apply Table.eq_of_get?
  intro key
  by_cases hkey : catalogue.SerialKey stem key
  · exact hown key hkey
  · exact (hothers key hkey).trans (hended.alike_others hapart key hkey).symm

end Woven

end ChainIndex
