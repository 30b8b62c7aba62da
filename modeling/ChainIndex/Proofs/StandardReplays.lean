import ChainIndex.Proofs.Contents
import ChainIndex.Proofs.AtRest
import ChainIndex.Proofs.Replays

/-!
# Replays with the standard indexes

From a table that is filled up to where the tracks stand, the standard indexes have edits for
every block of a climb, and each of them can take back what it has just done.
-/

namespace ChainIndex

variable {tree : BlockTree} {catalogue : Catalogue} {standing : Standing}
variable {upper lower blocks : List Block} {high low block : Block} {table : Table}
variable {entries : Entries}

theorem Table.Holds.alike {a b : Table} (ha : a.Holds entries) (hb : b.Holds entries) :
    Table.Alike Frontier.Foreign a b := by
  intro key hkey
  apply Option.ext
  intro value
  exact (ha key hkey value).trans (hb key hkey value).symm

namespace Standing.Filled

theorem leads_concurrent (h : standing.Filled tree upper lower) (hstandard : catalogue.IsStandard)
    (hleads : catalogue.Leads .concurrent standing.table blocks table)
    (hclimb : tree.Climb standing.concurrent blocks high) :
    ∃ next : Standing, next.table = table ∧ next.concurrent = high ∧
      next.serial = standing.serial ∧ next.Filled tree (upper ++ blocks) lower := by
  induction blocks generalizing standing upper with
  | nil =>
      cases hleads
      rw [List.append_nil]
      exact ⟨standing, rfl, hclimb.eq_nil, rfl, h⟩
  | cons block rest ih =>
      cases hleads with
      | on hown hrest =>
          cases hclimb with
          | up hchild htail =>
              have hgrown := h.grow hstandard (.up hchild (.stay block)) (Gathered.single hown)
              rcases ih hgrown hrest htail with ⟨next, htable, htop, hserial, hnext⟩
              rw [List.append_assoc] at hnext
              exact ⟨next, htable, htop, hserial, hnext⟩

theorem leads_serial (h : standing.Filled tree upper lower) (hstandard : catalogue.IsStandard)
    (hleads : catalogue.Leads .serial standing.table blocks table)
    (hclimb : tree.Climb standing.serial blocks high) :
    ∃ next : Standing, next.table = table ∧ next.concurrent = standing.concurrent ∧
      next.serial = high ∧ next.Filled tree upper (lower ++ blocks) := by
  induction blocks generalizing standing lower with
  | nil =>
      cases hleads
      rw [List.append_nil]
      exact ⟨standing, rfl, rfl, hclimb.eq_nil, h⟩
  | cons block rest ih =>
      cases hleads with
      | on hown hrest =>
          cases hclimb with
          | up hchild htail =>
              have hrisen := h.rise hstandard hchild (Gathered.single hown)
              rcases ih hrisen hrest htail with ⟨next, htable, htop, hserial, hnext⟩
              rw [List.append_assoc] at hnext
              exact ⟨next, htable, htop, hserial, hnext⟩

theorem visits (h : standing.Filled tree upper lower) (hstandard : catalogue.IsStandard)
    (hlevel : standing.concurrent = standing.serial)
    (hclimb : tree.Climb standing.serial blocks high) {track : Track}
    (hvisits : catalogue.Visits standing.table blocks track block table) :
    ∃ (next : Standing) (path path' : List Block), next.table = table ∧
      next.Filled tree path path' ∧ tree.Child (next.tip track) block ∧ tree.Below block high := by
  rcases hvisits with ⟨base, front, hbegins, hpart, hleads⟩
  rcases hpart with ⟨back, rfl⟩
  rcases hclimb.split with ⟨middle, hfront, hback⟩
  rcases hfront.of_snoc with ⟨rfl, parent, hlow, hchild⟩
  cases track with
  | concurrent =>
      rw [show base = standing.table from hbegins] at hleads
      rcases h.leads_concurrent hstandard hleads (hlevel ▸ hlow) with
        ⟨next, htable, rfl, _, hnext⟩
      exact ⟨next, _, _, htable, hnext, hchild, hback.isBelow⟩
  | serial =>
      rcases h.leads_concurrent hstandard hbegins (hlevel ▸ hclimb) with
        ⟨grown, rfl, _, hserial, hgrown⟩
      rcases hgrown.leads_serial hstandard hleads (hserial ▸ hlow) with
        ⟨next, htable, _, rfl, hnext⟩
      exact ⟨next, _, _, htable, hnext, hchild, hback.isBelow⟩

end Standing.Filled

namespace Catalogue.IsStandard

variable {index : Index}

theorem eq_of_mem_on (h : catalogue.IsStandard) {track : Track}
    (hindex : index ∈ catalogue.on track) :
    match track with
    | .concurrent => index = Heights.index
    | .serial => index = Times.index := by
  cases track with
  | concurrent =>
      rw [h.concurrent] at hindex
      exact List.mem_singleton.mp hindex
  | serial =>
      rw [h.serial] at hindex
      exact List.mem_singleton.mp hindex

theorem enters (h : catalogue.IsStandard) (hfilled : standing.Filled tree upper lower)
    (hlevel : standing.concurrent = standing.serial)
    (hclimb : tree.Climb standing.serial blocks high) (hroomy : Times.Roomy tree high) :
    catalogue.Enters standing.table blocks := by
  intro track block table hvisits index hindex
  rcases hfilled.visits h hlevel hclimb hvisits with ⟨next, _, _, rfl, hnext, hchild, hbelow⟩
  cases track with
  | concurrent =>
      rw [h.eq_of_mem_on hindex]
      exact ⟨_, rfl⟩
  | serial =>
      rw [h.eq_of_mem_on hindex]
      exact hnext.exists_applied hchild (hroomy.below hbelow)

theorem restores (h : catalogue.IsStandard) (hfilled : standing.Filled tree upper lower)
    (hlevel : standing.concurrent = standing.serial)
    (hclimb : tree.Climb standing.serial blocks high) :
    catalogue.Restores Index.standardStem standing.table blocks := by
  intro track block table own hvisits hown index hindex
  rcases hfilled.visits h hlevel hclimb hvisits with ⟨next, path, path', rfl, hnext, hchild, _⟩
  -- The table after the block has been taken off again holds what it held before.
  have hback {after : Table} {undone : List Edit} {stem : Bytes} {pointer : Pointer}
      (hapart : stem.Apart Frontier.stem)
      (hholds : (after.commit (undone ++ [Frontier.edit track pointer])).Holds
        (Heights.entries path ++ Times.entries path')) :
      Table.Alike (stem <+: ·) (after.commit undone) next.table := by
    have hforeign : ∀ key, stem <+: key → Frontier.Foreign key := fun key hkey track hsame =>
      hapart.not_under hkey (hsame ▸ Frontier.stem_key track)
    exact ((Table.Alike.tip after undone track pointer).symm.trans
      (hholds.alike hnext.holds)).mono hforeign
  cases track with
  | concurrent =>
      rw [h.eq_of_mem_on hindex]
      have hgrown := hnext.grow h (.up hchild (.stay block)) (Gathered.single hown)
      have hundone : Gathered catalogue (next.after (.grow [block] block) own).table .concurrent
          .undo [block] (Heights.edits block .undo) :=
        Gathered.single (h.edits_concurrent block .undo ⟨_, .none⟩)
      rcases hgrown.shrink h rfl hchild hundone with ⟨front, hshrunk⟩
      have hsame := hshrunk.toConcurrent.unique hnext.toConcurrent
      subst hsame
      exact ⟨_, rfl, hback (show Heights.stem.Apart Frontier.stem by decide) hshrunk.holds⟩
  | serial =>
      rw [h.eq_of_mem_on hindex]
      have hrisen := hnext.rise h hchild (Gathered.single hown)
      rcases hrisen.exists_undone hchild.ne_genesis with ⟨undone, hundone⟩
      rcases hrisen.fall h rfl hchild (Gathered.single (h.edits_serial_of_ok hundone)) with
        ⟨front, hfallen⟩
      have hsame := hfallen.toSerial.unique hnext.toSerial
      subst hsame
      exact ⟨undone, hundone, hback (show Times.stem.Apart Frontier.stem by decide) hfallen.holds⟩

end Catalogue.IsStandard

end ChainIndex
