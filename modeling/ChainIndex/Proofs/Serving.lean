import ChainIndex.Chain
import ChainIndex.Proofs.AtRest

/-!
# Hosts that serve a chain from memory

A chain held in memory whose blocks fit together is a tree, and the host that answers
from it agrees with that tree.
-/

namespace ChainIndex

namespace Chain

structure IsTree (chain : Chain) (genesis : Block) : Prop where
  known : chain.find? genesis.hash = some genesis
  parent : genesis.parent = none
  height : genesis.height = 0
  rooted : ∀ block ∈ chain.blocks, block ≠ genesis → ∃ parent ∈ chain.blocks,
    chain.find? parent.hash = some parent ∧ block.parent = some parent.hash ∧
      block.height.toNat = parent.height.toNat + 1

theorem hash_of_find? {chain : Chain} {hash : BlockHash} {block : Block}
    (h : chain.find? hash = some block) : block.hash = hash := by
  have hfound := List.find?_some h
  exact of_decide_eq_true hfound

def tree {chain : Chain} {genesis : Block} (h : chain.IsTree genesis) : BlockTree where
  genesis := genesis
  find? := chain.find?
  find?_genesis := h.known
  hash_of_find? := hash_of_find?
  parent_genesis := h.parent
  height_genesis := h.height
  rooted := by
    intro hash block hfind hne
    rcases h.rooted block (List.mem_of_find?_eq_some hfind) hne with ⟨parent, _, hparent⟩
    exact ⟨parent, hparent⟩

def host (chain : Chain) (catalogue : Catalogue) : Host Unit where
  blockAt place _ := ⟨ofFault (chain.blockAt place), (), []⟩
  headerOf hash _ := ⟨ofFault (chain.headerOf hash), (), []⟩
  bestHash _ := ⟨ofFault chain.bestHash, (), []⟩
  accept _ _ := ⟨.ok (), (), []⟩
  outages _ := ⟨.ok .none, (), []⟩
  outages_ne_fault := nofun
  catalogue := catalogue
  patience := Host.enough

/-- What the chain knows is part of the tree, and its best chain is a climb. -/
structure Within (chain : Chain) (tree : BlockTree) (top : Block) : Prop where
  find? {hash : BlockHash} {block : Block} :
    chain.find? hash = some block → tree.find? hash = some block
  best : ∃ blocks, tree.Climb tree.genesis blocks top ∧
    chain.best = (tree.genesis :: blocks).map Block.hash

theorem Within.height {chain : Chain} {tree : BlockTree} {top : Block} (h : chain.Within tree top)
    {height : Nat} {hash : BlockHash} {block : Block} (hbest : chain.best[height]? = some hash)
    (hfind : chain.find? hash = some block) : block.height.toNat = height := by
  rcases h.best with ⟨blocks, hclimb, hchain⟩
  rw [hchain, List.getElem?_map] at hbest
  rcases Option.map_eq_some_iff.mp hbest with ⟨other, hother, hhash⟩
  have hmem := (hclimb.mem_iff.mp (List.mem_of_getElem? hother)).2.mem
    (hclimb.high_mem tree.genesis_mem)
  have hblock := h.find? hfind
  have hsame : other = block := by
    apply BlockTree.eq_of_hash_eq hmem (BlockTree.mem_of_find? hblock)
    rw [hhash, tree.hash_of_find? hblock]
  have hheight := hclimb.height_of_getElem? hother
  rw [hsame, tree.height_genesis] at hheight
  rw [hheight]
  exact Nat.zero_add height

theorem blockAt_byHash {chain : Chain} {hash : BlockHash} {block : Block}
    (h : ofFault (chain.blockAt (.byHash hash)) = .ok block) : chain.find? hash = some block := by
  unfold blockAt at h
  dsimp only at h
  rw [Option.bind_some] at h
  cases hfind : chain.find? hash with
  | none =>
      rw [hfind] at h
      cases h
  | some found =>
      rw [hfind] at h
      cases h
      rfl

theorem blockAt_byHeight {chain : Chain} {height : UInt64} {block : Block}
    (h : ofFault (chain.blockAt (.byHeight height)) = .ok block) :
    ∃ hash, chain.best[height.toNat]? = some hash ∧ chain.find? hash = some block := by
  unfold blockAt at h
  dsimp only at h
  cases hbest : chain.best[height.toNat]? with
  | none =>
      rw [hbest] at h
      cases h
  | some hash =>
      rw [hbest, Option.bind_some] at h
      cases hfind : chain.find? hash with
      | none =>
          rw [hfind] at h
          cases h
      | some found =>
          rw [hfind] at h
          cases h
          exact ⟨hash, rfl, hfind⟩

theorem headerOf_ok {chain : Chain} {hash : BlockHash} {header : Header}
    (h : ofFault (chain.headerOf hash) = .ok header) :
    ∃ block, chain.find? hash = some block ∧ block.header = header := by
  unfold headerOf at h
  cases hfind : chain.find? hash with
  | none =>
      rw [hfind] at h
      cases h
  | some block =>
      rw [hfind] at h
      cases h
      exact ⟨block, rfl, rfl⟩

theorem Within.agrees {chain : Chain} {tree : BlockTree} {top : Block}
    (h : chain.Within tree top) (catalogue : Catalogue) : (chain.host catalogue).Agrees tree := by
  have hsilent : ∀ signal ∈ ([] : List Signal), signal.Fits tree := by
    intro signal hsignal
    cases hsignal
  constructor
  · intro hash outside
    exact ⟨fun block hblock => h.find? (blockAt_byHash hblock), hsilent⟩
  · intro height outside
    refine ⟨fun block hblock => ?_, hsilent⟩
    rcases blockAt_byHeight hblock with ⟨hash, hbest, hfind⟩
    exact ⟨BlockTree.mem_of_find? (h.find? hfind),
      UInt64.toNat_inj.mp (h.height hbest hfind)⟩
  · intro hash outside
    refine ⟨fun header hheader => ?_, hsilent⟩
    rcases headerOf_ok hheader with ⟨block, hfind, hblock⟩
    exact ⟨block, h.find? hfind, hblock⟩
  · intro outside
    exact ⟨fun _ _ => trivial, hsilent⟩
  · intro edits outside
    exact ⟨fun _ _ => trivial, hsilent⟩
  · intro outside
    exact ⟨fun _ _ => trivial, hsilent⟩

/-!
A host that answers from memory is always at rest.
-/

theorem serves {chain : Chain} {block : Block} (h : chain.find? block.hash = some block)
    (catalogue : Catalogue) : (chain.host catalogue).Serves block := by
  constructor
  · intro outside
    show ofFault (chain.blockAt (.byHash block.hash)) = _
    unfold blockAt
    dsimp only
    rw [Option.bind_some, h]
    rfl
  · intro outside
    show ofFault (chain.headerOf block.hash) = _
    unfold headerOf
    rw [h]
    rfl

theorem Within.best_getElem? {chain : Chain} {tree : BlockTree} {top block : Block}
    (h : chain.Within tree top) (hbelow : tree.Below block top) :
    chain.best[block.height.toNat]? = some block.hash := by
  rcases h.best with ⟨blocks, hclimb, hbest⟩
  have hmem := hclimb.mem_iff.mpr ⟨.genesis (hbelow.mem (hclimb.high_mem tree.genesis_mem)), hbelow⟩
  have hplace := hclimb.getElem?_of_mem hmem
  rw [tree.height_genesis] at hplace
  rw [hbest, List.getElem?_map]
  exact congrArg (Option.map Block.hash) hplace

theorem Within.length_best {chain : Chain} {tree : BlockTree} {top : Block}
    (h : chain.Within tree top) : chain.best.length = top.height.toNat + 1 := by
  rcases h.best with ⟨blocks, hclimb, hbest⟩
  have hheight := hclimb.height
  rw [tree.height_genesis] at hheight
  rw [hbest, List.length_map, List.length_cons, hheight]
  exact congrArg (· + 1) (Nat.zero_add _).symm

theorem Within.restsAt {chain : Chain} {tree : BlockTree} {top : Block}
    (h : chain.Within tree top)
    (hknown : ∀ block, tree.Below block top → chain.find? block.hash = some block)
    (catalogue : Catalogue) :
    (chain.host catalogue).RestsAt tree top where
  agrees := h.agrees catalogue
  best_mem := BlockTree.mem_of_find? (h.find? (hknown top (.refl top)))
  byHeight := by
    intro block outside hbelow
    show ofFault (chain.blockAt (.byHeight block.height)) = _
    unfold blockAt
    dsimp only
    rw [h.best_getElem? hbelow, Option.bind_some, hknown block hbelow]
    rfl
  above := by
    intro height outside habove
    have hover : chain.best[height.toNat]? = none := by
      rw [List.getElem?_eq_none_iff, h.length_best]
      exact UInt64.lt_iff_toNat_lt.mp habove
    refine ⟨(Lookup.byHeight height).text, ?_⟩
    show ofFault (chain.blockAt (.byHeight height)) = _
    unfold blockAt
    dsimp only
    rw [hover]
    rfl
  bestHash := by
    intro outside
    show ofFault chain.bestHash = _
    have hlast : chain.best.getLast? = some top.hash := by
      rw [List.getLast?_eq_getElem?, h.length_best]
      exact h.best_getElem? (.refl top)
    unfold bestHash
    rw [hlast]
    rfl
  accept _ _ := rfl
  outages _ := rfl
  going := by
    intro signal hsends
    cases hsends with
    | block hsignal => cases hsignal
    | header hsignal => cases hsignal
    | best hsignal => cases hsignal
    | batch hsignal => cases hsignal
    | read hsignal => cases hsignal
  patience := Nat.le_refl _

end Chain

/-!
# A small chain

Three blocks above one another, and a fourth beside the second.
-/

namespace Sample

def genesis : Block := ⟨⟨"g", none, 0, 0⟩, []⟩

def first : Block := ⟨⟨"a", some "g", 1, 50⟩, []⟩

def second : Block := ⟨⟨"b", some "a", 2, 40⟩, []⟩

def beside : Block := ⟨⟨"x", some "g", 1, 60⟩, []⟩

def chain : Chain := ⟨[genesis, first, second, beside], ["g", "a", "b"]⟩

theorem isTree : chain.IsTree genesis where
  known := by decide
  parent := rfl
  height := rfl
  rooted := by decide

def tree : BlockTree := Chain.tree isTree

theorem child_first : tree.Child genesis first := by decide

theorem child_second : tree.Child first second := by decide

theorem climb_second : tree.Climb genesis [first, second] second :=
  .up child_first (.up child_second (.stay second))

theorem climb_beside : tree.Climb genesis [beside] beside :=
  .up (by decide) (.stay beside)

theorem within : chain.Within tree second where
  find? := id
  best := ⟨[first, second], climb_second, rfl⟩

/-!
An indexer with the standard indexes is opened on the chain, told of the block beside
the best chain, and brought to sync.
-/

def catalogue : Catalogue := [Heights.index, Times.index]

theorem standard : catalogue.IsStandard where
  concurrent := rfl
  serial := rfl

def host : Host Unit := chain.host catalogue

def blank : World Unit where
  toFollower := .fresh .standard (.level genesis.pointer)
  outside := ()
  table := .empty
  course := []

def opened : World Unit := ((Following.start host .standard).perform blank).2

def told : World Unit := (((Request.announce beside).act host).perform opened).2

def synced : World Unit := ((Request.sync.act host).perform told).2

theorem restsAt : host.RestsAt tree second :=
  within.restsAt (fun _ hbelow => hbelow.mem (by decide)) catalogue

theorem serves {block : Block} (h : block ∈ tree) : host.Serves block :=
  Chain.serves h catalogue

theorem roomy_second : Times.Roomy tree second := by
  intro path hpath
  rw [hpath.unique climb_second]
  decide

theorem roomy_beside : Times.Roomy tree beside := by
  intro path hpath
  rw [hpath.unique climb_beside]
  decide

theorem quiet : ∀ entry ∈ blank.course, entry.IsQuiet := by
  intro entry hentry
  cases hentry

theorem started : (Following.start host .standard).perform blank = (.ok (), opened) :=
  rfl

theorem reached_opened : Reached tree catalogue opened :=
  .opened (within.agrees catalogue) rfl rfl quiet started

theorem reached_told : Reached tree catalogue told :=
  .asked reached_opened (within.agrees catalogue) rfl (show beside ∈ tree by decide)

theorem reached_synced : Reached tree catalogue synced :=
  .asked reached_told (within.agrees catalogue) rfl trivial

end Sample

end ChainIndex
