import ChainIndex.Proofs.Walks

/-!
# Plans

Whether the serial tip is on the best chain can be asked in two ways: by looking up its height, or
by going down from the tip and from the best block until the two walks meet.  As long as the host
stays with one best chain the answers are the same, whatever the shape of the tree.  Where the
best chain ends below the tip there is nothing at the tip's height, and the tip is off it.
-/

namespace ChainIndex

/-!
# Walks down a tree
-/

namespace BlockTree

variable {tree : BlockTree}

def parentHash? (tree : BlockTree) (hash : BlockHash) : Option BlockHash :=
  (tree.find? hash).bind Block.parent

theorem parentHash?_of_mem {block : Block} (h : block ∈ tree) :
    tree.parentHash? block.hash = block.parent := by
  rw [parentHash?, mem_iff.mp h, Option.bind_some]

theorem exists_walk {block : Block} (h : block ∈ tree) :
    ∃ blocks, tree.Climb tree.genesis blocks block ∧
      Walk tree.parentHash? block.hash ((tree.genesis :: blocks).map Block.hash).reverse := by
  have hgenesis := Below.genesis h
  induction hgenesis with
  | refl => exact ⟨[], .stay _, .last ((parentHash?_of_mem h).trans tree.parent_genesis)⟩
  | @tail parent block _ hchild ih =>
      rcases ih hchild.1 with ⟨blocks, hclimb, hwalk⟩
      refine ⟨blocks ++ [block], hclimb.snoc hchild, ?_⟩
      rw [← List.cons_append, List.map_append, List.reverse_append]
      exact .step ((parentHash?_of_mem h).trans hchild.2.2) hwalk

end BlockTree

section

variable {tree : BlockTree}

/-- Where the walks of two blocks fork there is the highest block that is below both. -/
theorem Fork.joins {old new : Block} {olds news : List Block}
    {left right trunk : List BlockHash} {ancestor : BlockHash}
    (hold : tree.Climb tree.genesis olds old) (hnew : tree.Climb tree.genesis news new)
    (h : Fork ((tree.genesis :: olds).map Block.hash).reverse
      ((tree.genesis :: news).map Block.hash).reverse left right trunk ancestor) :
    ∃ base blocks, Switch.Joins ⟨ancestor, old.hash, right.reverse⟩ tree old new base blocks := by
  have holdMem := hold.high_mem tree.genesis_mem
  have hnewMem := hnew.high_mem tree.genesis_mem
  have hseenOld : ancestor ∈ ((tree.genesis :: olds).map Block.hash).reverse := by
    rw [h.old]
    simp
  have hseenNew : ancestor ∈ ((tree.genesis :: news).map Block.hash).reverse := by
    rw [h.new]
    simp
  rcases List.mem_map.mp (List.mem_reverse.mp hseenOld) with ⟨base, hbase, hhash⟩
  rcases List.mem_map.mp (List.mem_reverse.mp hseenNew) with ⟨other, hother, hhash'⟩
  have hbelow := (hold.mem_iff.mp hbase).2
  have hsame := BlockTree.eq_of_hash_eq (hbelow.mem holdMem)
    ((hnew.mem_iff.mp hother).2.mem hnewMem) (hhash.trans hhash'.symm)
  subst hsame
  rcases Ancestry.above_climb hnew hnewMem hother with ⟨blocks, habove, hclimb⟩
  have hbranch : (tree.genesis :: news).map Block.hash =
      trunk.reverse ++ ancestor :: right.reverse := by
    rw [← List.reverse_reverse ((tree.genesis :: news).map Block.hash), h.new]
    simp
  have htrunk : ancestor ∉ trunk.reverse := fun hmem => h.trunk (List.mem_reverse.mp hmem)
  rw [hbranch, hhash, Ancestry.above_append htrunk] at habove
  have hright := Option.some.inj habove
  refine ⟨base, blocks, hhash.symm, rfl, hright, hbelow, hclimb, ?_⟩
  intro block hblock hunder
  have hpassed : block.hash ∈ right := by
    rw [← List.mem_reverse, hright]
    exact List.mem_map_of_mem hblock
  have hmem := (hold.mem_iff.mpr ⟨.genesis (hclimb.mem hblock), hunder⟩)
  exact h.right _ hpassed (List.mem_reverse.mpr (List.mem_map_of_mem hmem))

namespace Switch.Joins

variable {switch : Switch} {old new base other : Block} {blocks : List Block}

theorem eq_mk (h : switch.Joins tree old new base blocks) :
    switch = ⟨base.hash, old.hash, blocks.map Block.hash⟩ := by
  rcases switch with ⟨ancestor, leaving, chain⟩
  rw [show ancestor = base.hash from h.ancestor, show leaving = old.hash from h.leaving,
    show chain = blocks.map Block.hash from h.chain]

theorem highest (h : switch.Joins tree old new base blocks) (hold : tree.Below other old)
    (hnew : tree.Below other new) : tree.Below other base := by
  rcases Nat.le_total other.height.toNat base.height.toNat with hle | hle
  · exact hnew.total h.climb.isBelow hle
  · have habove := h.climb.isBelow.total hnew hle
    rcases List.mem_cons.mp (h.climb.mem_iff.mpr ⟨habove, hnew⟩) with rfl | hmem
    · exact .refl _
    · exact absurd hold (h.fork other hmem)

theorem isForward_iff (h : switch.Joins tree old new base blocks) (hold : old ∈ tree) :
    switch.isForward = true ↔ tree.Below old new := by
  rw [Switch.isForward, decide_eq_true_eq, h.ancestor, h.leaving]
  constructor
  · intro hhash
    rw [← BlockTree.eq_of_hash_eq (h.below.mem hold) hold hhash]
    exact h.climb.isBelow
  · intro hbelow
    rw [h.below.antisymm (h.highest (.refl old) hbelow)]

end Switch.Joins

/-!
# The search on a host that charts the blocks
-/

variable {host : Host σ} {best tip : Block}

theorem Host.Charts.states {block : Block} (h : host.Charts block) (hmem : block ∈ tree) :
    host.States tree.parentHash? block.hash := by
  intro outside
  rw [h outside, BlockTree.parentHash?_of_mem hmem]
  rfl

theorem BlockTree.Climb.length_lt_enough {block : Block} {blocks : List Block}
    (h : tree.Climb tree.genesis blocks block) :
    ((tree.genesis :: blocks).map Block.hash).reverse.length < Host.enough := by
  have hheight := h.height
  have hsize := UInt64.toNat_lt block.height
  rw [List.length_reverse, List.length_map, List.length_cons]
  unfold Host.enough
  omega

theorem Ancestry.exists_found (htip : tip ∈ tree) (hbest : best ∈ tree)
    (hcharts : ∀ block, tree.Below block tip ∨ tree.Below block best → host.Charts block)
    (hpatience : Host.enough ≤ host.patience) :
    ∃ switch base blocks, Switch.Joins switch tree tip best base blocks ∧
      ∀ world : World σ, (Ancestry.find host tip.hash best.hash).Yields world
        (fun found after => Lull host world after ∧ found = switch) fun _ _ => False := by
  rcases BlockTree.exists_walk htip with ⟨olds, hold, holds⟩
  rcases BlockTree.exists_walk hbest with ⟨news, hnew, hnews⟩
  have hroot (blocks : List Block) :
      tree.genesis.hash ∈ ((tree.genesis :: blocks).map Block.hash).reverse := by
    simp
  rcases holds.exists_fork hnews (hroot olds) (hroot news) with
    ⟨left, right, trunk, ancestor, hfork⟩
  rcases hfork.joins hold hnew with ⟨base, blocks, hjoins⟩
  refine ⟨_, base, blocks, hjoins, Ancestry.find_of_fork holds hnews ?_ ?_ hfork⟩
  · intro hash hhash
    rcases hhash with hhash | hhash
    · rcases List.mem_map.mp (List.mem_reverse.mp hhash) with ⟨block, hblock, rfl⟩
      have hbelow := (hold.mem_iff.mp hblock).2
      exact (hcharts block (Or.inl hbelow)).states (hbelow.mem htip)
    · rcases List.mem_map.mp (List.mem_reverse.mp hhash) with ⟨block, hblock, rfl⟩
      have hbelow := (hnew.mem_iff.mp hblock).2
      exact (hcharts block (Or.inr hbelow)).states (hbelow.mem hbest)
  · have holdLength := hold.length_lt_enough
    have hnewLength := hnew.length_lt_enough
    omega

namespace Host.StaysAt

theorem hashAt (h : host.StaysAt tree best) {asked : List Entry} {start world : World σ}
    (hasks : Asks host asked start world) (htip : tip ∈ tree) :
    (Act.hashAt host tip.height).Yields world
      (fun found after => Lull host start after ∧ (found = some tip.hash ↔ tree.Below tip best))
      fun _ _ => False := by
  refine (hasks.hashAt tip.height).mono ?_ ?_
  · intro found after hended
    rcases hended with ⟨answer, hfound, hafter, outside, hanswer⟩
    refine ⟨hafter.lull, ?_⟩
    cases hfound with
    | given block =>
        rcases h.atHeight tip.height outside with ⟨low, hlow, hheight, hlow'⟩ | ⟨_, what, hnone⟩
        · cases hlow'.symm.trans hanswer
          exact Option.some_inj.trans (hlow.hash_eq_iff h.best_mem htip
            (congrArg UInt64.toNat hheight))
        · cases hnone.symm.trans hanswer
    | missing _ =>
        rcases h.atHeight tip.height outside with ⟨low, _, _, hlow⟩ | ⟨habove, what, hnone⟩
        · cases hlow.symm.trans hanswer
        · refine iff_of_false (by simp) fun hbelow => ?_
          have hless := UInt64.lt_iff_toNat_lt.mp habove
          exact Nat.not_le.mpr hless hbelow.height_le
  · intro cause after hhalted
    rcases hhalted with ⟨hother, _, outside, hanswer⟩
    rcases h.atHeight tip.height outside with ⟨low, _, _, hlow⟩ | ⟨_, what, hnone⟩
    · cases hlow.symm.trans hanswer
    · cases hnone.symm.trans hanswer
      exact hother ⟨what, rfl⟩

end Host.StaysAt

/-- What is planned at a tip, given the switch from it to the best block. -/
inductive Switching.Planned (tree : BlockTree) (tip best : Block) (switch : Switch) :
    Bool → Option Switch → Prop where
  | arrived {forkSeen : Bool} : tip = best → Planned tree tip best switch forkSeen none
  | behind : tree.Below tip best → tip ≠ best → Planned tree tip best switch false none
  | seen : tip ≠ best → Planned tree tip best switch true (some switch)
  | strayed {forkSeen : Bool} : ¬ tree.Below tip best →
      Planned tree tip best switch forkSeen (some switch)

namespace Switching.Planned

variable {switch : Switch} {forkSeen : Bool} {found : Option Switch}

theorem eq_none (h : Switching.Planned tree tip best switch forkSeen found)
    (hbelow : tree.Below tip best) (hwhy : tip = best ∨ forkSeen = false) : found = none := by
  cases h with
  | arrived _ => rfl
  | behind _ _ => rfl
  | seen hne =>
      rcases hwhy with hsame | hfork
      · exact absurd hsame hne
      · cases hfork
  | strayed hoff => exact absurd hbelow hoff

theorem eq_some (h : Switching.Planned tree tip best switch forkSeen found)
    (hne : tip ≠ best) (hwhy : ¬ tree.Below tip best ∨ forkSeen = true) : found = some switch := by
  cases h with
  | arrived hsame => exact absurd hsame hne
  | behind hbelow _ =>
      rcases hwhy with hoff | hfork
      · exact absurd hbelow hoff
      · cases hfork
  | seen _ => rfl
  | strayed _ => rfl

end Switching.Planned

theorem Host.StaysAt.exists_planned (h : host.StaysAt tree best) (htip : tip ∈ tree)
    (hcharts : ∀ block, tree.Below block tip ∨ tree.Below block best → host.Charts block)
    (hpatience : Host.enough ≤ host.patience) :
    ∃ switch base blocks, Switch.Joins switch tree tip best base blocks ∧
      ∀ (world : World σ) (forkSeen : Bool), world.frontier.serial = tip.pointer →
        (Switching.plan host forkSeen).Yields world
          (fun found after => Lull host world after ∧
            Switching.Planned tree tip best switch forkSeen found)
          fun _ _ => False := by
  rcases Ancestry.exists_found htip h.best_mem hcharts hpatience with
    ⟨switch, base, blocks, hjoins, hfind⟩
  refine ⟨switch, base, blocks, hjoins, ?_⟩
  intro world forkSeen hserial
  have hsearch {now : World σ} (hnow : Lull host world now)
      (hplanned : Switching.Planned tree tip best switch forkSeen (some switch)) :
      (Ancestry.find host tip.pointer.hash best.hash).Yields now
        (fun found after => Lull host world after ∧
          Switching.Planned tree tip best switch forkSeen (some found))
        fun _ _ => False := by
    refine (hfind now).imp ?_
    intro found after hended
    rcases hended with ⟨hafter, rfl⟩
    exact ⟨hnow.trans hafter, hplanned⟩
  refine Switching.plan_of_parts ((Asks.refl host world).bestHash.mono ?_ ?_)
  · intro hash asked hended
    rcases hended with ⟨hasked, outside, hanswer⟩
    cases (h.bestHash outside).symm.trans hanswer
    rw [hserial]
    have hapart (hne : best.hash ≠ tip.pointer.hash) : tip ≠ best := by
      intro heq
      exact hne (congrArg Block.hash heq.symm)
    refine ⟨?_, ?_, ?_⟩
    · intro hat
      exact ⟨hasked.lull, .arrived (BlockTree.eq_of_hash_eq htip h.best_mem hat.symm)⟩
    · rintro hne rfl
      exact hsearch hasked.lull (.seen (hapart hne))
    · rintro hne rfl
      refine (h.hashAt hasked htip).imp ?_
      intro found looked hended
      rcases hended with ⟨hlooked, hfound⟩
      refine ⟨?_, ?_⟩
      · intro hsame
        exact ⟨hlooked, .behind (hfound.mp hsame) (hapart hne)⟩
      · intro hother
        exact hsearch hlooked (.strayed fun hbelow => hother (hfound.mpr hbelow))
  · intro cause after hhalted
    rcases hhalted with ⟨_, outside, hanswer⟩
    cases (h.bestHash outside).symm.trans hanswer

end

/-- On a host that stays with one best chain, what is planned at a tip depends on nothing but
the tip.  By the tip's height nothing is planned if the tip is on the best chain.  Once a fork
has been seen nothing is planned if the tip is the best block, and the plan goes forward if the
tip is on the best chain below that.  Off the best chain both ways lead to the same plan, over the
highest block that is below the tip and on the best chain, and then up the best chain. -/
theorem height_shortcut_agrees {host : Host σ} {tree : BlockTree} {best tip : Block}
    (hhost : host.StaysAt tree best) (hpatience : Host.enough ≤ host.patience) (htip : tip ∈ tree)
    (hcharts : ∀ block, tree.Below block tip ∨ tree.Below block best → host.Charts block) :
    ∃ shortcut search : Option Switch,
      (∀ world : World σ, world.frontier.serial = tip.pointer →
        ((Switching.plan host false).perform world).1 = .ok shortcut ∧
        ((Switching.plan host true).perform world).1 = .ok search) ∧
      (shortcut = none ↔ tree.Below tip best) ∧
      (search = none ↔ tip = best) ∧
      ((∃ switch, search = some switch ∧ switch.isForward = true) ↔
        tree.Below tip best ∧ tip ≠ best) ∧
      (¬ tree.Below tip best → ∃ ancestor blocks,
        shortcut = some ⟨ancestor.hash, tip.hash, blocks.map Block.hash⟩ ∧ search = shortcut ∧
        tree.Below ancestor tip ∧ tree.Climb ancestor blocks best ∧
        ∀ other, tree.Below other tip → tree.Below other best → tree.Below other ancestor) := by
  rcases hhost.exists_planned htip hcharts hpatience with ⟨switch, base, blocks, hjoins, hplan⟩
  have hforward := hjoins.isForward_iff htip
  have hperform (forkSeen : Bool) (found : Option Switch)
      (honly : ∀ other, Switching.Planned tree tip best switch forkSeen other → other = found)
      (world : World σ) (hserial : world.frontier.serial = tip.pointer) :
      ((Switching.plan host forkSeen).perform world).1 = .ok found := by
    rcases (hplan world forkSeen hserial).exists_ok with ⟨other, after, hperform, _, hplanned⟩
    rw [hperform, honly other hplanned]
  by_cases hbelow : tree.Below tip best
  · have hshortcut := hperform false none fun _ hplanned => hplanned.eq_none hbelow (Or.inr rfl)
    by_cases harrived : tip = best
    · have hsearch := hperform true none fun _ hplanned =>
        hplanned.eq_none hbelow (Or.inl harrived)
      refine ⟨none, none, fun world hserial => ⟨hshortcut world hserial, hsearch world hserial⟩,
        iff_of_true rfl hbelow, iff_of_true rfl harrived, iff_of_false ?_ ?_, absurd hbelow⟩
      · rintro ⟨_, hnone, _⟩
        cases hnone
      · exact fun hboth => hboth.2 harrived
    · have hsearch := hperform true (some switch) fun _ hplanned =>
        hplanned.eq_some harrived (Or.inr rfl)
      exact ⟨none, some switch,
        fun world hserial => ⟨hshortcut world hserial, hsearch world hserial⟩,
        iff_of_true rfl hbelow, iff_of_false (Option.some_ne_none switch) harrived,
        iff_of_true ⟨switch, rfl, hforward.mpr hbelow⟩ ⟨hbelow, harrived⟩, absurd hbelow⟩
  · have hne : tip ≠ best := fun heq => hbelow (heq ▸ .refl tip)
    have hplanned (forkSeen : Bool) := hperform forkSeen (some switch) fun _ hplanned =>
      hplanned.eq_some hne (Or.inl hbelow)
    refine ⟨some switch, some switch,
      fun world hserial => ⟨hplanned false world hserial, hplanned true world hserial⟩,
      iff_of_false (Option.some_ne_none switch) hbelow,
      iff_of_false (Option.some_ne_none switch) hne, iff_of_false ?_ ?_, fun _ => ?_⟩
    · rintro ⟨_, hsome, hgoes⟩
      cases hsome
      exact hbelow (hforward.mp hgoes)
    · exact fun hboth => hbelow hboth.1
    · refine ⟨base, blocks, congrArg some hjoins.eq_mk, rfl, hjoins.below, hjoins.climb,
        fun other => hjoins.highest⟩

namespace Sample

def forked : Chain := ⟨chain.blocks, ["g", "x"]⟩

theorem forked_within : forked.Within tree beside where
  find? := id
  best := ⟨[beside], climb_beside, rfl⟩

theorem forked_restsAt : (forked.host catalogue).RestsAt tree beside :=
  forked_within.restsAt (fun _ hbelow => hbelow.mem (by decide)) catalogue

theorem forked_serves {block : Block} (h : block ∈ tree) :
    (forked.host catalogue).Serves block :=
  Chain.serves (show forked.find? block.hash = some block from h) catalogue

theorem eq_genesis_of_below {block : Block} (hsecond : tree.Below block second)
    (hbeside : tree.Below block beside) : block = genesis := by
  have hmem : block ∈ tree := hsecond.mem (by decide)
  have hleft := climb_second.mem_iff.mpr ⟨.genesis hmem, hsecond⟩
  rcases List.mem_cons.mp (climb_beside.mem_iff.mpr ⟨.genesis hmem, hbeside⟩) with hroot | hlast
  · exact hroot
  · rw [List.mem_singleton.mp hlast] at hleft
    exact absurd hleft (by decide)

theorem second_off : ¬ tree.Below second beside := by
  intro hbelow
  have hroot := eq_genesis_of_below (.refl second) hbelow
  exact absurd hroot (by decide)

def stranded : World Unit := { blank with frontier := .level second.pointer }

end Sample

/-- The best chain is the shorter branch, so nothing is found at the height of the tip. -/
theorem height_shortcut_agrees_of_sample :
    (Sample.forked.host Sample.catalogue).StaysAt Sample.tree Sample.beside ∧
    Host.enough ≤ (Sample.forked.host Sample.catalogue).patience ∧
    Sample.second ∈ Sample.tree ∧
    (∀ block, Sample.tree.Below block Sample.second ∨ Sample.tree.Below block Sample.beside →
      (Sample.forked.host Sample.catalogue).Charts block) ∧
    Sample.stranded.frontier.serial = Sample.second.pointer ∧
    ¬ Sample.tree.Below Sample.second Sample.beside ∧
    ∀ forkSeen, ((Switching.plan (Sample.forked.host Sample.catalogue) forkSeen).perform
      Sample.stranded).1 = .ok (some ⟨"g", "b", ["x"]⟩) := by
  have hhost := Sample.forked_restsAt.staysAt
  have hpatience := Sample.forked_restsAt.patience
  have htip : Sample.second ∈ Sample.tree := by decide
  have hbest : Sample.beside ∈ Sample.tree := by decide
  have hcharts : ∀ block,
      Sample.tree.Below block Sample.second ∨ Sample.tree.Below block Sample.beside →
      (Sample.forked.host Sample.catalogue).Charts block := by
    intro block hbelow
    have hmem : block ∈ Sample.tree := hbelow.elim (·.mem htip) (·.mem hbest)
    exact (Sample.forked_serves hmem).charts
  refine ⟨hhost, hpatience, htip, hcharts, rfl, Sample.second_off, ?_⟩
  rcases height_shortcut_agrees hhost hpatience htip hcharts with
    ⟨shortcut, search, hplans, _, _, _, hoff⟩
  rcases hoff Sample.second_off with ⟨ancestor, blocks, hshortcut, hsearch, hold, hclimb, _⟩
  have hancestor := Sample.eq_genesis_of_below hold hclimb.isBelow
  subst hancestor
  rw [hclimb.unique Sample.climb_beside] at hshortcut
  rcases hplans Sample.stranded rfl with ⟨hfirst, hsecond⟩
  intro forkSeen
  cases forkSeen with
  | false => rw [hfirst, hshortcut]; rfl
  | true => rw [hsecond, hsearch, hshortcut]; rfl

end ChainIndex
