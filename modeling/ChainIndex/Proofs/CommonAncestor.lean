import ChainIndex.Proofs.Acts
import ChainIndex.Proofs.SwitchSteps

/-!
# The search for a common ancestor

Each walk goes down the tree from where it began, and whatever both have visited
is where one of them stands now.  So the first hash at which they meet is that of
the highest block that lies below both, even though one walk may be past it.
-/

namespace ChainIndex

/-- The switch leads from the one block to the other over the highest block that is
below both. -/
structure Switch.Joins (switch : Switch) (tree : BlockTree) (old new base : Block)
    (blocks : List Block) : Prop where
  ancestor : switch.ancestor = base.hash
  leaving : switch.leaving = old.hash
  chain : switch.chain = blocks.map Block.hash
  below : tree.Below base old
  climb : tree.Climb base blocks new
  fork : ∀ block ∈ blocks, ¬ tree.Below block old

theorem Switch.Joins.eq_of_below {switch : Switch} {tree : BlockTree} {old new base : Block}
    {blocks : List Block} (h : switch.Joins tree old new base blocks)
    (hbelow : tree.Below new old) :
    switch = ⟨new.hash, old.hash, []⟩ := by
  have hblocks : blocks = [] := by
    by_cases hempty : blocks = []
    · exact hempty
    · have hlast := List.mem_of_getLast? (h.climb.getLast?_eq hempty)
      exact absurd hbelow (h.fork new hlast)
  subst hblocks
  rcases switch with ⟨ancestor, leaving, chain⟩
  have hbase := h.climb.eq_nil
  subst hbase
  rw [show ancestor = base.hash from h.ancestor, show leaving = old.hash from h.leaving,
    show chain = [] from h.chain]

namespace Ancestry

/-!
# Meetings
-/

theorem meeting?_eq_some {walks : Walks} {hash : BlockHash} (h : meeting? walks = some hash) :
    (walks.newAt = some hash ∧ hash ∈ walks.oldSeen) ∨
      (walks.oldAt = some hash ∧ hash ∈ walks.newSeen) := by
  unfold meeting? at h
  split at h
  · rename_i found hfound
    cases h
    have hboth := Option.filter_eq_some_iff.mp hfound
    exact Or.inl ⟨hboth.1, List.contains_iff_mem.mp hboth.2⟩
  · have hboth := Option.filter_eq_some_iff.mp h
    exact Or.inr ⟨hboth.1, List.contains_iff_mem.mp hboth.2⟩

theorem meeting?_eq_none {walks : Walks} (h : meeting? walks = none) :
    (∀ other, walks.newAt = some other → other ∉ walks.oldSeen) ∧
      ∀ other, walks.oldAt = some other → other ∉ walks.newSeen := by
  unfold meeting? at h
  split at h
  · cases h
  · rename_i hnone
    constructor
    · intro other hother hmem
      exact Option.filter_eq_none_iff.mp hnone other hother (List.contains_iff_mem.mpr hmem)
    · intro other hother hmem
      exact Option.filter_eq_none_iff.mp h other hother (List.contains_iff_mem.mpr hmem)

/-!
# Trails

What a walk has left behind, and how far above the genesis it stands.
-/

inductive Trail (terms : Terms) :
    BlockHash → Option BlockHash → List BlockHash → Nat → Prop where
  | known {low high : Block} {blocks : List Block} {place : Option BlockHash} :
      high ∈ terms.tree → terms.tree.Climb low blocks high → (terms.firm → terms.charted low) →
      (place = some low.hash ∨ (place = none ∧ (terms.firm → low = terms.tree.genesis))) →
      Trail terms high.hash place ((low :: blocks).map Block.hash) low.height.toNat
  | strange {start : BlockHash} {place : Option BlockHash} :
      ¬ terms.firm → (∀ block ∈ terms.tree, block.hash ≠ start) →
      (place = some start ∨ place = none) →
      Trail terms start place [start] 0

namespace Trail

variable {terms : Terms} {start : BlockHash} {place : Option BlockHash}
variable {seen : List BlockHash} {left : Nat}

theorem of_mem {high : Block} (h : Trail terms high.hash place seen left)
    (hhigh : high ∈ terms.tree) :
    ∃ low blocks, terms.tree.Climb low blocks high ∧ seen = (low :: blocks).map Block.hash ∧
      left = low.height.toNat ∧
      (place = some low.hash ∨ (place = none ∧ (terms.firm → low = terms.tree.genesis))) := by
  generalize hstart : high.hash = start at h
  cases h with
  | @known low other blocks _ hother hclimb _ hplace =>
      rw [BlockTree.eq_of_hash_eq hhigh hother hstart]
      exact ⟨low, blocks, hclimb, rfl, rfl, hplace⟩
  | strange _ hstrange _ => exact absurd hstart (hstrange high hhigh)

theorem begin {block : Block} (hblock : block ∈ terms.tree)
    (hcharted : terms.firm → terms.charted block) :
    Trail terms block.hash (some block.hash) [block.hash] block.height.toNat :=
  known hblock (.stay block) hcharted (Or.inl rfl)

theorem descend (h : Trail terms start place seen left) {standing : Standing} {intake : Intake}
    {world : World σ} {host : Host σ} (hstands : Stands terms standing intake world)
    (hhost : host.Honours terms) :
    (Ancestry.descend host place).Yields world
      (fun found after => Stands terms standing intake after ∧ ∃ less,
        Trail terms start found (found.toList ++ seen) less ∧ less ≤ left ∧
          (found ≠ none → less < left) ∧ (terms.firm → place ≠ none → left ≠ 0 → less < left))
      (Stuck terms standing intake) := by
  cases place with
  | none =>
      refine ⟨hstands, left, h, Nat.le_refl left, fun hfound => absurd rfl hfound, ?_⟩
      intro _ hplace
      exact absurd rfl hplace
  | some hash =>
      rw [Ancestry.descend]
      cases h with
      | @known low high blocks _ hhigh hclimb hcharted hplace =>
          have hlow : low ∈ terms.tree := hclimb.isBelow.mem hhigh
          have hhash : hash = low.hash := by
            rcases hplace with hplace | ⟨hplace, _⟩
            · exact Option.some.inj hplace
            · cases hplace
          subst hhash
          refine (hstands.parentOf hhost fun hfirm => ⟨low, rfl, hcharted hfirm⟩).imp ?_
          intro found after hended
          rcases hended with ⟨hafter, hfound⟩
          refine ⟨hafter, ?_⟩
          cases found with
          | some parentHash =>
              rcases hfound with ⟨block, hblock, hsame, hparent⟩
              have heq := BlockTree.eq_of_hash_eq hblock hlow hsame
              subst heq
              rcases BlockTree.exists_parent_of hblock hparent with ⟨parent, hchild, rfl⟩
              have hheight := hchild.height
              refine ⟨parent.height.toNat, ?_, by omega, fun _ => by omega, fun _ _ _ => by omega⟩
              exact known hhigh (.up hchild hclimb)
                (fun hfirm => terms.charted_down hfirm hchild (hcharted hfirm)) (Or.inl rfl)
          | none =>
              have hlowest : terms.firm → low = terms.tree.genesis := by
                intro hfirm
                rcases hfound hfirm with ⟨block, hblock, hsame, hparent⟩
                rw [← BlockTree.eq_of_hash_eq hblock hlow hsame]
                exact BlockTree.eq_genesis_of_parent hblock hparent
              refine ⟨low.height.toNat, ?_, Nat.le_refl _, fun hfound => absurd rfl hfound, ?_⟩
              · exact known hhigh hclimb hcharted (Or.inr ⟨rfl, hlowest⟩)
              · intro hfirm _ hleft
                rw [hlowest hfirm, terms.tree.height_genesis] at hleft
                exact absurd rfl hleft
      | strange hloose hstrange hplace =>
          have hhash : hash = start := by
            rcases hplace with hplace | hplace
            · exact Option.some.inj hplace
            · cases hplace
          subst hhash
          refine (hstands.parentOf hhost fun hfirm => absurd hfirm hloose).imp ?_
          intro found after hended
          rcases hended with ⟨hafter, hfound⟩
          cases found with
          | some parent =>
              rcases hfound with ⟨block, hblock, hsame, _⟩
              exact absurd hsame (hstrange block hblock)
          | none =>
              exact ⟨hafter, 0, strange hloose hstrange (Or.inr rfl), Nat.le_refl 0,
                fun hfound => absurd rfl hfound, fun hfirm => absurd hfirm hloose⟩

end Trail

/-!
# Where the walks meet
-/

theorem above_climb {tree : BlockTree} {low base high : Block} {blocks : List Block}
    (hclimb : tree.Climb low blocks high) (hmem : high ∈ tree) (hbase : base ∈ low :: blocks) :
    ∃ rest, above base.hash ((low :: blocks).map Block.hash) = some (rest.map Block.hash) ∧
      tree.Climb base rest high := by
  induction hclimb with
  | stay block =>
      rw [List.mem_singleton.mp hbase]
      exact ⟨[], by simp [above], .stay block⟩
  | @up low next high rest hchild htail ih =>
      by_cases heq : low = base
      · subst heq
        exact ⟨next :: rest, by simp [above], .up hchild htail⟩
      · have hnext : base ∈ next :: rest := by
          rcases List.mem_cons.mp hbase with hsame | hlater
          · exact absurd hsame.symm heq
          · exact hlater
        have htree : base ∈ tree := by
          rcases (htail.mem_iff.mp hnext) with ⟨_, hbelow⟩
          exact hbelow.mem hmem
        have hhash : low.hash ≠ base.hash := by
          intro hsame
          exact heq (BlockTree.eq_of_hash_eq hchild.1 htree hsame)
        rcases ih hmem hnext with ⟨above', habove, hclimb⟩
        refine ⟨above', ?_, hclimb⟩
        rw [← habove]
        simp [above, hhash]

def Meets (walks : Walks) : Prop :=
  ∀ hash, hash ∈ walks.oldSeen → hash ∈ walks.newSeen →
    walks.oldAt = some hash ∨ walks.newAt = some hash

theorem apart_of_not_meeting {walks : Walks} (hmeets : Meets walks)
    (hnone : meeting? walks = none) (hash : BlockHash) :
    ¬ (hash ∈ walks.oldSeen ∧ hash ∈ walks.newSeen) := by
  intro hboth
  rcases hboth with ⟨hold, hnew⟩
  rcases hmeets hash hold hnew with hplace | hplace
  · exact (meeting?_eq_none hnone).2 hash hplace hnew
  · exact (meeting?_eq_none hnone).1 hash hplace hold

theorem meets_of_not_meeting {walks : Walks} (hmeets : Meets walks)
    (hnone : meeting? walks = none) (oldAt newAt : Option BlockHash) :
    Meets ⟨oldAt, newAt, oldAt.toList ++ walks.oldSeen, newAt.toList ++ walks.newSeen⟩ := by
  intro hash hold hnew
  rcases List.mem_append.mp hold with hold | hold
  · exact Or.inl (Option.mem_toList.mp hold)
  · rcases List.mem_append.mp hnew with hnew | hnew
    · exact Or.inr (Option.mem_toList.mp hnew)
    · exact absurd ⟨hold, hnew⟩ (apart_of_not_meeting hmeets hnone hash)

theorem exists_met {terms : Terms} {old lowOld lowNew high : Block}
    {oldBlocks newBlocks : List Block} {oldAt newAt : Option BlockHash} {hash : BlockHash}
    (hold : old ∈ terms.tree) (hhigh : high ∈ terms.tree)
    (holdClimb : terms.tree.Climb lowOld oldBlocks old)
    (hnewClimb : terms.tree.Climb lowNew newBlocks high)
    (holdPlace : oldAt = some hash → hash = lowOld.hash)
    (hnewPlace : newAt = some hash → hash = lowNew.hash)
    (hmeeting : meeting? ⟨oldAt, newAt, (lowOld :: oldBlocks).map Block.hash,
      (lowNew :: newBlocks).map Block.hash⟩ = some hash) :
    ∃ base, hash = base.hash ∧ base ∈ lowOld :: oldBlocks ∧ base ∈ lowNew :: newBlocks := by
  have holdMem {block : Block} (h : block ∈ lowOld :: oldBlocks) : block ∈ terms.tree :=
    (holdClimb.mem_iff.mp h).2.mem hold
  have hnewMem {block : Block} (h : block ∈ lowNew :: newBlocks) : block ∈ terms.tree :=
    (hnewClimb.mem_iff.mp h).2.mem hhigh
  rcases meeting?_eq_some hmeeting with ⟨hplace, hseen⟩ | ⟨hplace, hseen⟩
  · rcases List.mem_map.mp hseen with ⟨base, hbase, hhash⟩
    have hlow := hnewPlace hplace
    have heq := BlockTree.eq_of_hash_eq (holdMem hbase) (hnewMem List.mem_cons_self)
      (hhash.trans hlow)
    exact ⟨base, hhash.symm, hbase, heq ▸ List.mem_cons_self⟩
  · rcases List.mem_map.mp hseen with ⟨base, hbase, hhash⟩
    have hlow := holdPlace hplace
    have heq := BlockTree.eq_of_hash_eq (hnewMem hbase) (holdMem List.mem_cons_self)
      (hhash.trans hlow)
    exact ⟨base, hhash.symm, heq ▸ List.mem_cons_self, hbase⟩

theorem Trail.joins {terms : Terms} {walks : Walks} {old : Block} {new hash : BlockHash}
    {oldLeft newLeft : Nat} (hold : old ∈ terms.tree)
    (holdTrail : Trail terms old.hash walks.oldAt walks.oldSeen oldLeft)
    (hnewTrail : Trail terms new walks.newAt walks.newSeen newLeft)
    (hmeets : Meets walks) (hmeeting : meeting? walks = some hash) :
    ∃ chain, above hash walks.newSeen = some chain ∧
      ∃ high ∈ terms.tree, high.hash = new ∧
        ∃ base blocks, Switch.Joins ⟨hash, old.hash, chain⟩ terms.tree old high base blocks := by
  rcases walks with ⟨oldAt, newAt, oldSeen, newSeen⟩
  rcases holdTrail.of_mem hold with ⟨lowOld, oldBlocks, holdClimb, rfl, _, holdPlace⟩
  have holdAt {hash : BlockHash} (hplace : oldAt = some hash) : hash = lowOld.hash := by
    rcases holdPlace with hsome | ⟨hnone, _⟩
    · exact Option.some.inj (hplace.symm.trans hsome)
    · cases hplace.symm.trans hnone
  cases hnewTrail with
  | @known lowNew high newBlocks _ hhigh hnewClimb _ hnewPlace =>
      have hnewAt {hash : BlockHash} (hplace : newAt = some hash) : hash = lowNew.hash := by
        rcases hnewPlace with hsome | ⟨hnone, _⟩
        · exact Option.some.inj (hplace.symm.trans hsome)
        · cases hplace.symm.trans hnone
      rcases exists_met hold hhigh holdClimb hnewClimb holdAt hnewAt hmeeting with
        ⟨base, rfl, hbaseOld, hbaseNew⟩
      rcases above_climb hnewClimb hhigh hbaseNew with ⟨rest, habove, hclimb⟩
      have hlow := holdClimb.mem_iff.mp hbaseOld
      refine ⟨_, habove, high, hhigh, rfl, base, rest, rfl, rfl, rfl, hlow.2, hclimb, ?_⟩
      intro block hblock hbelow
      rcases hclimb.bounds hblock with ⟨⟨parent, hparent, hchild⟩, hunder⟩
      have hbase := hparent.up hchild
      have hpassedOld := holdClimb.mem_iff.mpr ⟨hlow.1.trans hbase, hbelow⟩
      have hpassedNew := hnewClimb.mem_iff.mpr
        ⟨(hnewClimb.mem_iff.mp hbaseNew).1.trans hbase, hunder⟩
      have hstrict : base.height.toNat < block.height.toNat := by
        have hheight := hchild.height
        have hle := hparent.height_le
        omega
      have hmem := hclimb.mem hblock
      -- A block above the base at which a walk still stands would lie below it.
      rcases hmeets block.hash (List.mem_map_of_mem hpassedOld)
        (List.mem_map_of_mem hpassedNew) with hplace | hplace
      · have heq := BlockTree.eq_of_hash_eq hmem (hlow.1.mem (hlow.2.mem hold)) (holdAt hplace)
        have hle := hlow.1.height_le
        rw [← heq] at hle
        omega
      · have hlowNew := (hnewClimb.mem_iff.mp hbaseNew)
        have heq := BlockTree.eq_of_hash_eq hmem (hlowNew.1.mem (hlowNew.2.mem hhigh))
          (hnewAt hplace)
        have hle := hlowNew.1.height_le
        rw [← heq] at hle
        omega
  | strange _ hstrange hnewPlace =>
      exfalso
      have holdMem {block : Block} (h : block ∈ lowOld :: oldBlocks) : block ∈ terms.tree :=
        (holdClimb.mem_iff.mp h).2.mem hold
      rcases meeting?_eq_some hmeeting with ⟨hplace, hseen⟩ | ⟨hplace, hseen⟩
      · rcases List.mem_map.mp hseen with ⟨block, hblock, hhash⟩
        rcases hnewPlace with hsome | hnone
        · exact hstrange block (holdMem hblock)
            (hhash.trans (Option.some.inj (hplace.symm.trans hsome)))
        · cases hplace.symm.trans hnone
      · have hsame : hash = new := List.mem_singleton.mp hseen
        exact hstrange lowOld (holdMem List.mem_cons_self) ((holdAt hplace).symm.trans hsame)

/-!
# The search
-/

theorem Trail.genesis_seen {terms : Terms} {start : BlockHash} {place : Option BlockHash}
    {seen : List BlockHash} {left : Nat} (h : Trail terms start place seen left)
    (hfirm : terms.firm) (hend : place = none ∨ left = 0) : terms.tree.genesis.hash ∈ seen := by
  cases h with
  | @known low high blocks _ hhigh hclimb _ hplace =>
      have hlow : low = terms.tree.genesis := by
        rcases hend with hnone | hzero
        · rcases hplace with hsome | ⟨_, hlow⟩
          · cases hsome.symm.trans hnone
          · exact hlow hfirm
        · exact BlockTree.eq_genesis_of_height (hclimb.isBelow.mem hhigh)
            (UInt64.toNat_inj.mp hzero)
      rw [hlow]
      exact List.mem_cons_self
  | strange hloose _ _ => exact absurd hfirm hloose

variable {terms : Terms} {standing : Standing} {intake : Intake} {world : World σ}
variable {host : Host σ}

/-- Both walks have left their trails, and on firm terms there are turns left for the
blocks below them. -/
def Searching (terms : Terms) (standing : Standing) (intake : Intake) (old new : BlockHash)
    (left : Nat) (walks : Walks) (world : World σ) : Prop :=
  Stands terms standing intake world ∧ ∃ oldLeft newLeft,
    Trail terms old walks.oldAt walks.oldSeen oldLeft ∧
      Trail terms new walks.newAt walks.newSeen newLeft ∧ Meets walks ∧
        (terms.firm → oldLeft + newLeft < left)

theorem Searching.turn {old : Block} {new : BlockHash} {left : Nat} {walks : Walks}
    (h : Searching terms standing intake old.hash new (left + 1) walks world)
    (hhost : host.Honours terms) (hold : old ∈ terms.tree) :
    (Ancestry.turn host old.hash new walks).Yields world
      (fun result after => result.Is
        (Searching terms standing intake old.hash new left · after)
        fun switch => Stands terms standing intake after ∧
          ∃ high ∈ terms.tree, high.hash = new ∧
            ∃ base blocks, switch.Joins terms.tree old high base blocks)
      (Stuck terms standing intake) := by
  rcases h with ⟨hstands, oldLeft, newLeft, holdTrail, hnewTrail, hmeets, hleft⟩
  refine Ancestry.turn_of_parts ?_ ?_ fun hmeeting _ => ?_
  · intro hash hmeeting
    rcases Trail.joins hold holdTrail hnewTrail hmeets hmeeting with ⟨chain, habove, hjoins⟩
    rw [habove]
    exact ⟨hstands, hjoins⟩
  · intro hmeeting holdEnd hnewEnd
    refine ⟨fun hfirm => ?_, hstands⟩
    exact apart_of_not_meeting hmeets hmeeting terms.tree.genesis.hash
      ⟨holdTrail.genesis_seen hfirm (Or.inl holdEnd),
        hnewTrail.genesis_seen hfirm (Or.inl hnewEnd)⟩
  · refine (holdTrail.descend hstands hhost).imp ?_
    intro oldAt middle hended
    rcases hended with ⟨hmiddle, oldLess, holdNext, holdLe, _, holdLt⟩
    refine (hnewTrail.descend hmiddle hhost).imp ?_
    intro newAt after hended
    rcases hended with ⟨hafter, newLess, hnewNext, hnewLe, _, hnewLt⟩
    refine ⟨hafter, oldLess, newLess, holdNext, hnewNext, ?_, ?_⟩
    · exact meets_of_not_meeting hmeets hmeeting oldAt newAt
    · intro hfirm
      have hless := hleft hfirm
      by_cases holdEnd : walks.oldAt = none ∨ oldLeft = 0
      · by_cases hnewEnd : walks.newAt = none ∨ newLeft = 0
        · exact absurd
            ⟨holdTrail.genesis_seen hfirm holdEnd, hnewTrail.genesis_seen hfirm hnewEnd⟩
            (apart_of_not_meeting hmeets hmeeting terms.tree.genesis.hash)
        · have hlt := hnewLt hfirm (fun h => hnewEnd (Or.inl h)) (fun h => hnewEnd (Or.inr h))
          omega
      · have hlt := holdLt hfirm (fun h => holdEnd (Or.inl h)) (fun h => holdEnd (Or.inr h))
        omega

end Ancestry

/-- The search leads over the highest common ancestor, and on firm terms it ends. -/
theorem Stands.find {terms : Terms} {standing : Standing} {intake : Intake} {world : World σ}
    {host : Host σ} (h : Stands terms standing intake world) (hhost : host.Honours terms)
    {old : Block} {new : BlockHash} (hold : old ∈ terms.tree)
    (holdCharted : terms.firm → terms.charted old)
    (hnewCharted : terms.firm → ∃ high ∈ terms.tree, high.hash = new ∧ terms.charted high) :
    (Ancestry.find host old.hash new).Yields world
      (fun switch after => Stands terms standing intake after ∧
        ∃ high ∈ terms.tree, high.hash = new ∧
          ∃ base blocks, switch.Joins terms.tree old high base blocks)
      (Stuck terms standing intake) := by
  refine Act.yields_turns (Ancestry.Searching terms standing intake old.hash new)
    (fun left walks world h => h.turn hhost hold) ?_ ?_
  · intro walks world hkept
    rcases hkept with ⟨hstands, _, _, _, _, _, hleft⟩
    exact ⟨fun hfirm => absurd (hleft hfirm) (Nat.not_lt_zero _), hstands⟩
  · have hmeets : Ancestry.Meets (Ancestry.begin old.hash new) := by
      intro hash hseen _
      exact Or.inl (congrArg some (List.mem_singleton.mp hseen).symm)
    by_cases hknown : ∃ high ∈ terms.tree, high.hash = new
    · rcases hknown with ⟨high, hhigh, rfl⟩
      have hcharted : terms.firm → terms.charted high := by
        intro hfirm
        rcases hnewCharted hfirm with ⟨other, hother, hsame, hcharted⟩
        rw [BlockTree.eq_of_hash_eq hhigh hother hsame.symm]
        exact hcharted
      refine ⟨h, old.height.toNat, high.height.toNat, .begin hold holdCharted,
        .begin hhigh hcharted, hmeets, fun hfirm => ?_⟩
      have hpatience := hhost.patience hfirm
      have hold := UInt64.toNat_lt old.height
      have hhigh := UInt64.toNat_lt high.height
      unfold Host.enough at hpatience
      omega
    · have hloose : ¬ terms.firm := by
        intro hfirm
        rcases hnewCharted hfirm with ⟨high, hhigh, hsame, _⟩
        exact hknown ⟨high, hhigh, hsame⟩
      refine ⟨h, old.height.toNat, 0, .begin hold holdCharted,
        .strange hloose ?_ (Or.inl rfl), hmeets, fun hfirm => absurd hfirm hloose⟩
      intro block hblock hsame
      exact hknown ⟨block, hblock, hsame⟩

end ChainIndex
