import ChainIndex.Proofs.Walks

/-!
# The best chain of a chain held in memory

The best chain is kept as a list of hashes, apart from the blocks.  A block may be forgotten while
its hash stays on the best chain, and be taken in again later; another branch may become the best
one, if all of it is known at that moment.  Whatever has been done, the best chain is the lineage
of its last hash: it begins at a parentless block, and each hash after the first belongs to a
block whose parent is the hash before it.

What is said of forgotten blocks needs something that does not forget.  This is the stock of all
blocks that may ever be taken in.
-/

namespace ChainIndex

/-!
# Stocks and lineages
-/

/-- All blocks that there are.  A hash names one of them at most, and none is above itself. -/
structure Stock where
  find? : BlockHash → Option Block
  hash_of_find? {hash : BlockHash} {block : Block} :
    find? hash = some block → block.hash = hash
  acyclic (hash : BlockHash) :
    ¬ Relation.TransGen (fun hash parent => (find? hash).bind Block.parent = some parent) hash hash

namespace Stock

instance : Membership Block Stock :=
  ⟨fun stock block => stock.find? block.hash = some block⟩

/-- The hashes from that of a parentless block up to the given one, each of a block whose parent
is the hash before it. -/
inductive Lineage (stock : Stock) : BlockHash → List BlockHash → Prop where
  | root {hash : BlockHash} {block : Block} :
      stock.find? hash = some block → block.parent = none → Lineage stock hash [hash]
  | child {hash parent : BlockHash} {block : Block} {line : List BlockHash} :
      stock.find? hash = some block → block.parent = some parent → Lineage stock parent line →
      Lineage stock hash (line ++ [hash])

namespace Lineage

variable {stock : Stock} {hash : BlockHash} {line other : List BlockHash}

theorem getLast?_eq (h : stock.Lineage hash line) : line.getLast? = some hash := by
  cases h with
  | root _ _ => rfl
  | child _ _ _ => exact List.getLast?_concat

theorem mem (h : stock.Lineage hash line) : hash ∈ line :=
  List.mem_of_getLast? h.getLast?_eq

theorem ne_nil (h : stock.Lineage hash line) : line ≠ [] :=
  List.ne_nil_of_mem h.mem

theorem unique (h : stock.Lineage hash line) (h' : stock.Lineage hash other) : line = other := by
  induction h generalizing other with
  | root hfind hparent =>
      cases h' with
      | root _ _ => rfl
      | child hfind' hparent' _ =>
          cases hfind.symm.trans hfind'
          cases hparent.symm.trans hparent'
  | child hfind hparent _ ih =>
      cases h' with
      | root hfind' hparent' =>
          cases hfind.symm.trans hfind'
          cases hparent.symm.trans hparent'
      | child hfind' hparent' hline =>
          cases hfind.symm.trans hfind'
          cases hparent.symm.trans hparent'
          rw [ih hline]

end Lineage

end Stock

/-!
# Changing a chain
-/

namespace Chain

variable {chain after : Chain} {stock : Stock} {hash : BlockHash} {block : Block}

theorem find?_forget (chain : Chain) (gone hash : BlockHash) :
    (chain.forget gone).find? hash = if gone = hash then none else chain.find? hash := by
  unfold forget find?
  rw [List.find?_filter]
  by_cases hgone : gone = hash
  · rw [if_pos hgone, List.find?_eq_none]
    intro block _
    simp [hgone]
  · rw [if_neg hgone]
    congr 1
    funext block
    by_cases hblock : block.hash = hash
    · simp [hblock, Ne.symm hgone]
    · simp [hblock]

theorem find?_insert (chain : Chain) (block : Block) (hash : BlockHash) :
    (chain.insert block).find? hash = if block.hash = hash then some block
      else chain.find? hash := by
  have hrest : (chain.insert block).find? hash =
      if block.hash = hash then some block else (chain.forget block.hash).find? hash := by
    unfold insert find?
    rw [List.find?_cons]
    by_cases hblock : block.hash = hash <;> simp [hblock]
  rw [hrest, find?_forget]
  split <;> rfl

def Stocked (chain : Chain) (stock : Stock) : Prop :=
  ∀ hash block, chain.find? hash = some block → stock.find? hash = some block

theorem Stocked.forget (h : chain.Stocked stock) (gone : BlockHash) :
    (chain.forget gone).Stocked stock := by
  intro hash block hfind
  rw [find?_forget] at hfind
  split at hfind
  · cases hfind
  · exact h hash block hfind

theorem Stocked.insert (h : chain.Stocked stock) (hblock : block ∈ stock) :
    (chain.insert block).Stocked stock := by
  intro hash other hfind
  rw [find?_insert] at hfind
  split at hfind
  · rename_i hhash
    cases hfind
    exact hhash ▸ hblock
  · exact h hash other hfind

/-!
# Walking down
-/

theorem headerMap_parent? (chain : Chain) (hash : BlockHash) :
    chain.headerMap.parent? hash = (chain.find? hash).bind Block.parent := by
  show ((chain.find? hash).map Block.header).bind Header.parent = _
  cases chain.find? hash <;> rfl

theorem Stocked.exists_walk (h : chain.Stocked stock) (hash : BlockHash) :
    ∃ walk, Walk chain.headerMap.parent? hash walk ∧ walk.length ≤ chain.blocks.length + 1 := by
  have hacyclic : chain.headerMap.AcyclicFrom hash := by
    intro place _ hcycle
    refine stock.acyclic place (hcycle.lift id fun high low hparent => ?_)
    have hparent : chain.headerMap.parent? high = some low := hparent
    rw [headerMap_parent?] at hparent
    rcases Option.bind_eq_some_iff.mp hparent with ⟨block, hfind, hnamed⟩
    exact Option.bind_eq_some_iff.mpr ⟨block, h high block hfind, hnamed⟩
  rcases hacyclic.exists_walk with ⟨walk, hwalk, hlength⟩
  exact ⟨walk, hwalk, by rwa [show chain.headerMap.known.length = chain.blocks.length from
    List.length_map _] at hlength⟩

/-- The hashes on the walk down are a lineage of known blocks, or one of them is unknown, and
then it belongs to any lineage that there may be. -/
theorem Stocked.ancestry_cases (h : chain.Stocked stock) {walk : List BlockHash}
    (hwalk : Walk chain.headerMap.parent? hash walk) {steps : Nat} (hsteps : walk.length ≤ steps)
    (above : List BlockHash) :
    (∃ line, stock.Lineage hash line ∧ (∀ place ∈ line, (chain.find? place).isSome) ∧
        chain.ancestry steps hash above = .ok (line ++ above)) ∨
      ∃ place, chain.find? place = none ∧ (∀ line, stock.Lineage hash line → place ∈ line) ∧
        chain.ancestry steps hash above = .error (.fault (.notFound s!"block {place}")) := by
  induction hwalk generalizing steps above with
  | @last hash hnone =>
      rcases Nat.exists_eq_succ_of_ne_zero (Nat.one_le_iff_ne_zero.mp hsteps) with ⟨left, rfl⟩
      rw [headerMap_parent?] at hnone
      cases hfind : chain.find? hash with
      | none => exact Or.inr ⟨hash, hfind, fun _ hline => hline.mem, by rw [ancestry, hfind]⟩
      | some block =>
          rw [hfind] at hnone
          have hparent : block.parent = none := hnone
          refine Or.inl ⟨[hash], .root (h hash block hfind) hparent, ?_, ?_⟩
          · intro place hplace
            rw [List.mem_singleton.mp hplace, hfind]
            rfl
          · simp only [ancestry, hfind, hparent]
            rfl
  | @step hash parent rest hparent _ ih =>
      rcases Nat.exists_eq_add_of_le' (Nat.le_trans (Nat.le_add_left 1 _) hsteps) with ⟨left, rfl⟩
      have hleft : rest.length ≤ left := Nat.le_of_succ_le_succ hsteps
      rw [headerMap_parent?] at hparent
      rcases Option.bind_eq_some_iff.mp hparent with ⟨block, hfind, hnamed⟩
      have hdown : chain.ancestry (left + 1) hash above =
          chain.ancestry left parent (hash :: above) := by
        simp only [ancestry, hfind, hnamed]
      rw [hdown]
      rcases ih hleft (hash :: above) with ⟨line, hline, hknown, hancestry⟩ |
        ⟨place, hplace, hon, hancestry⟩
      · refine Or.inl ⟨line ++ [hash], .child (h hash block hfind) hnamed hline, ?_, ?_⟩
        · intro place hmem
          rcases List.mem_append.mp hmem with hmem | hmem
          · exact hknown place hmem
          · rw [List.mem_singleton.mp hmem, hfind]
            rfl
        · rw [hancestry, List.append_assoc]
          rfl
      · refine Or.inr ⟨place, hplace, fun line hline => ?_, hancestry⟩
        cases hline with
        | root hfind' hroot =>
            cases (h hash block hfind).symm.trans hfind'
            cases hroot.symm.trans hnamed
        | child hfind' hnamed' hrest =>
            cases (h hash block hfind).symm.trans hfind'
            cases hnamed.symm.trans hnamed'
            exact List.mem_append_left _ (hon _ hrest)

theorem run_setBest (chain : Chain) (hash : BlockHash) :
    (setBest hash).run.run chain =
      match chain.ancestry (chain.blocks.length + 1) hash [] with
      | .ok best => (.ok (), { chain with best })
      | .error cause => (.error cause, chain) := by
  change (ExceptT.mk (pure (chain.ancestry (chain.blocks.length + 1) hash [])) >>= _ :
    ExceptT Halt (StateM Chain) Unit).run.run chain = _
  cases chain.ancestry (chain.blocks.length + 1) hash [] <;> rfl

theorem Stocked.setBest_cases (h : chain.Stocked stock) (hash : BlockHash) :
    (∃ line, stock.Lineage hash line ∧ (∀ place ∈ line, (chain.find? place).isSome) ∧
        (setBest hash).run.run chain = (.ok (), { chain with best := line })) ∨
      ∃ place, chain.find? place = none ∧ (∀ line, stock.Lineage hash line → place ∈ line) ∧
        (setBest hash).run.run chain =
          (.error (.fault (.notFound s!"block {place}")), chain) := by
  rcases h.exists_walk hash with ⟨walk, hwalk, hlength⟩
  rcases h.ancestry_cases hwalk hlength [] with ⟨line, hline, hknown, hancestry⟩ |
    ⟨place, hplace, hon, hancestry⟩
  · refine Or.inl ⟨line, hline, hknown, ?_⟩
    rw [List.append_nil] at hancestry
    rw [run_setBest, hancestry]
  · refine Or.inr ⟨place, hplace, hon, ?_⟩
    rw [run_setBest, hancestry]

theorem Stocked.setBest_eq_ok_iff (h : chain.Stocked stock) (hash : BlockHash) (after : Chain) :
    (setBest hash).run.run chain = (.ok (), after) ↔
      stock.Lineage hash after.best ∧ (∀ place ∈ after.best, (chain.find? place).isSome) ∧
        after.blocks = chain.blocks := by
  rcases h.setBest_cases hash with ⟨line, hline, hknown, hset⟩ | ⟨place, hplace, hon, hset⟩
  · rw [hset]
    constructor
    · intro hafter
      cases hafter
      exact ⟨hline, hknown, rfl⟩
    · rintro ⟨hafter, _, hblocks⟩
      rcases after with ⟨blocks, best⟩
      cases hline.unique hafter
      cases hblocks
      rfl
  · rw [hset]
    constructor
    · intro hafter
      cases hafter
    · rintro ⟨hafter, hknown, _⟩
      have hmissing := hknown place (hon _ hafter)
      rw [hplace] at hmissing
      cases hmissing

/-!
# What a chain answers
-/

theorem bestHash_eq_ok_iff {top : BlockHash} :
    chain.bestHash = .ok top ↔ chain.best.getLast? = some top := by
  unfold bestHash
  cases chain.best.getLast? with
  | some hash => exact ⟨fun h => congrArg some (Except.ok.inj h), fun h =>
      congrArg Except.ok (Option.some.inj h)⟩
  | none =>
      constructor
      · intro h
        cases h
      · intro h
        cases h

theorem run_extend (chain : Chain) (block : Block) :
    (extend block).run.run chain =
      if block.parent = some (chain.best.getLast?.getD "") then
        (.ok (), { chain.insert block with best := chain.best ++ [block.hash] })
      else (.error (.offBest block.hash (chain.best.getLast?.getD "")), chain) := by
  by_cases hparent : block.parent = some (chain.best.getLast?.getD "")
  · rw [if_pos hparent]
    show (ite _ _ _ : ExceptT Fault (StateM Chain) Unit).run.run chain = _
    rw [if_neg (not_not.mpr hparent)]
    rfl
  · rw [if_neg hparent]
    show (ite _ _ _ : ExceptT Fault (StateM Chain) Unit).run.run chain = _
    rw [if_pos hparent]
    rfl

theorem bestHeight_toNat (hbest : chain.best ≠ []) (hlength : chain.best.length ≤ UInt64.size) :
    chain.bestHeight.toNat + 1 = chain.best.length ∧
      chain.best[chain.bestHeight.toNat]? = chain.best.getLast? := by
  have hpos := List.length_pos_iff.mpr hbest
  have hword : chain.bestHeight.toNat = chain.best.length - 1 :=
    UInt64.toNat_ofNat_of_lt' (by omega)
  rw [hword, List.getLast?_eq_getElem?]
  exact ⟨Nat.sub_add_cancel hpos, rfl⟩

theorem blockAt_byHeight_iff (height : UInt64) (block : Block) :
    chain.blockAt (.byHeight height) = .ok block ↔
      chain.best[height.toNat]? = some block.hash ∧ chain.find? block.hash = some block := by
  constructor
  · intro hblock
    rcases blockAt_byHeight (congrArg ofFault hblock) with ⟨hash, hbest, hfind⟩
    rw [hash_of_find? hfind]
    exact ⟨hbest, hfind⟩
  · rintro ⟨hbest, hfind⟩
    simp only [blockAt, hbest, Option.bind_some, hfind]

theorem notFound_of_blockAt {place : Lookup} {cause : Fault}
    (h : chain.blockAt place = .error cause) : cause = .notFound place.text := by
  unfold blockAt at h
  dsimp only at h
  split at h
  · cases h
  · cases h
    rfl

theorem perform_hashAt (chain : Chain) (catalogue : Catalogue) (height : UInt64)
    (world : World Unit) :
    ((Act.hashAt (chain.host catalogue) height).perform world).1 =
      .ok ((chain.blockAt (.byHeight height)).toOption.map Block.hash) := by
  have hyields : (Act.hashAt (chain.host catalogue) height).Yields world
      (fun found _ => found = (chain.blockAt (.byHeight height)).toOption.map Block.hash)
      fun _ _ => False := by
    refine ((Asks.refl _ world).hashAt height).mono ?_ ?_
    · intro found after hended
      rcases hended with ⟨answer, hfound, _, _, hanswer⟩
      replace hanswer : ofFault (chain.blockAt (.byHeight height)) = answer := hanswer
      rw [← hanswer] at hfound
      cases hblock : chain.blockAt (.byHeight height) with
      | ok block =>
          rw [hblock] at hfound
          cases hfound
          rfl
      | error cause =>
          rw [hblock] at hfound
          cases hfound
          rfl
    · intro cause after hhalted
      rcases hhalted with ⟨hother, _, _, hanswer⟩
      replace hanswer : ofFault (chain.blockAt (.byHeight height)) = .error cause := hanswer
      cases hblock : chain.blockAt (.byHeight height) with
      | ok block =>
          rw [hblock] at hanswer
          cases hanswer
      | error fault =>
          rw [hblock, notFound_of_blockAt hblock] at hanswer
          cases hanswer
          exact hother ⟨_, rfl⟩
  rcases hyields.exists_ok with ⟨found, after, hfound, hhash⟩
  rw [hfound, hhash]

/-!
# Histories
-/

inductive Change where
  | insert (block : Block)
  | push (block : Block)
  | setBest (hash : BlockHash)
  | forget (hash : BlockHash)

def step (chain : Chain) : Change → Except Halt Unit × Chain
  | .insert block => (.ok (), chain.insert block)
  | .push block =>
      let (answer, after) := (extend block).run.run chain
      (ofFault answer, after)
  | .setBest hash => (setBest hash).run.run chain
  | .forget hash => (.ok (), chain.forget hash)

theorem step_push (chain : Chain) (block : Block) :
    chain.step (.push block) =
      if block.parent = some (chain.best.getLast?.getD "") then
        (.ok (), { chain.insert block with best := chain.best ++ [block.hash] })
      else (.error (.fault (.offBest block.hash (chain.best.getLast?.getD ""))), chain) := by
  rw [step, run_extend]
  by_cases hparent : block.parent = some (chain.best.getLast?.getD "")
  · rw [if_pos hparent, if_pos hparent]
    rfl
  · rw [if_neg hparent, if_neg hparent]
    rfl

theorem step_push_eq_ok_iff (hbest : chain.best ≠ []) (block : Block) (after : Chain) :
    chain.step (.push block) = (.ok (), after) ↔
      (∃ top, chain.bestHash = .ok top ∧ block.parent = some top) ∧
        after.best = chain.best ++ [block.hash] ∧ after.blocks = (chain.insert block).blocks := by
  obtain ⟨top, htop⟩ := Option.ne_none_iff_exists'.mp (mt List.getLast?_eq_none_iff.mp hbest)
  rw [bestHash_eq_ok_iff.mpr htop, step_push, htop, Option.getD_some]
  by_cases hparent : block.parent = some top
  · rw [if_pos hparent]
    constructor
    · intro hafter
      cases hafter
      exact ⟨⟨top, rfl, hparent⟩, rfl, rfl⟩
    · rintro ⟨_, hbest, hblocks⟩
      rcases after with ⟨blocks, best⟩
      cases hbest
      cases hblocks
      rfl
  · rw [if_neg hparent]
    constructor
    · intro hafter
      cases hafter
    · rintro ⟨⟨other, hother, hnamed⟩, _⟩
      cases hother
      exact absurd hnamed hparent

namespace Change

def Fits (stock : Stock) : Change → Prop
  | .insert block | .push block => block ∈ stock
  | _ => True

/-- Whether the hash is known after the change, where this is for the change to say. -/
def knows? (hash : BlockHash) : Change → Option Bool
  | .insert block | .push block => if block.hash = hash then some true else none
  | .forget gone => if gone = hash then some false else none
  | .setBest _ => none

end Change

/-- The chain has come of a parentless block by these changes, the last one first.  Others that
failed may have been tried in between. -/
inductive Arises (stock : Stock) : List Change → Chain → Prop where
  | begun {genesis : Block} :
      genesis ∈ stock → genesis.parent = none →
      Arises stock [.insert genesis] (.ofGenesis genesis)
  | changed {done : List Change} {chain after : Chain} {change : Change} :
      Arises stock done chain → change.Fits stock → chain.step change = (.ok (), after) →
      Arises stock (change :: done) after
  | failed {done : List Change} {chain after : Chain} {change : Change} {cause : Halt} :
      Arises stock done chain → change.Fits stock → chain.step change = (.error cause, after) →
      Arises stock done after

def IsForgotten (done : List Change) (hash : BlockHash) : Prop :=
  done.findSome? (Change.knows? hash) = some false

instance (done : List Change) (hash : BlockHash) : Decidable (IsForgotten done hash) :=
  inferInstanceAs (Decidable (done.findSome? (Change.knows? hash) = some false))

structure Genuine (stock : Stock) (done : List Change) (chain : Chain) : Prop where
  stocked : chain.Stocked stock
  best : ∃ top, stock.Lineage top chain.best
  known (hash : BlockHash) :
    (chain.find? hash).isSome = (done.findSome? (Change.knows? hash)).getD false
  taken : ∀ hash ∈ chain.best, (done.findSome? (Change.knows? hash)).isSome

namespace Genuine

variable {done : List Change} {genesis : Block}

theorem begun (hgenesis : genesis ∈ stock) (hparent : genesis.parent = none) :
    Genuine stock [.insert genesis] (.ofGenesis genesis) where
  stocked := by
    intro hash block hfind
    have hmem := List.mem_singleton.mp (List.mem_of_find?_eq_some hfind)
    rw [← hash_of_find? hfind, hmem]
    exact hgenesis
  best := ⟨genesis.hash, .root hgenesis hparent⟩
  known hash := by
    unfold find? ofGenesis
    by_cases hhash : genesis.hash = hash <;> simp [Change.knows?, hhash]
  taken hash hhash := by
    rw [List.mem_singleton.mp hhash]
    simp [Change.knows?]

theorem taken_cons (h : Genuine stock done chain) (change : Change) :
    ∀ hash ∈ chain.best, ((change :: done).findSome? (Change.knows? hash)).isSome := by
  intro hash hhash
  rw [List.findSome?_cons]
  cases change.knows? hash with
  | some known => rfl
  | none => exact h.taken hash hhash

theorem insert (h : Genuine stock done chain) (hblock : block ∈ stock) :
    Genuine stock (.insert block :: done) (chain.insert block) where
  stocked := h.stocked.insert hblock
  best := h.best
  known hash := by
    rw [find?_insert, List.findSome?_cons, Change.knows?]
    by_cases hhash : block.hash = hash
    · rw [if_pos hhash, if_pos hhash]
      rfl
    · rw [if_neg hhash, if_neg hhash]
      exact h.known hash
  taken := h.taken_cons (.insert block)

theorem forget (h : Genuine stock done chain) (gone : BlockHash) :
    Genuine stock (.forget gone :: done) (chain.forget gone) where
  stocked := h.stocked.forget gone
  best := h.best
  known hash := by
    rw [find?_forget, List.findSome?_cons, Change.knows?]
    by_cases hhash : gone = hash
    · rw [if_pos hhash, if_pos hhash]
      rfl
    · rw [if_neg hhash, if_neg hhash]
      exact h.known hash
  taken := h.taken_cons (.forget gone)

theorem push (h : Genuine stock done chain) (hblock : block ∈ stock) {top : BlockHash}
    (hbest : chain.bestHash = .ok top) (hparent : block.parent = some top) :
    Genuine stock (.push block :: done)
      { chain.insert block with best := chain.best ++ [block.hash] } where
  stocked := h.stocked.insert hblock
  best := by
    rcases h.best with ⟨other, hother⟩
    cases hother.getLast?_eq.symm.trans (bestHash_eq_ok_iff.mp hbest)
    exact ⟨block.hash, .child hblock hparent hother⟩
  known := (h.insert hblock).known
  taken hash hhash := by
    rcases List.mem_append.mp hhash with hhash | hhash
    · exact h.taken_cons (.push block) hash hhash
    · rw [List.mem_singleton.mp hhash, List.findSome?_cons, Change.knows?, if_pos rfl]
      rfl

theorem setBest (h : Genuine stock done chain) {line : List BlockHash}
    (hline : stock.Lineage hash line) (hknown : ∀ place ∈ line, (chain.find? place).isSome) :
    Genuine stock (.setBest hash :: done) { chain with best := line } where
  stocked := h.stocked
  best := ⟨hash, hline⟩
  known := h.known
  taken place hplace := by
    have hsome := (h.known place).symm.trans (hknown place hplace)
    show (done.findSome? (Change.knows? place)).isSome
    cases hlast : done.findSome? (Change.knows? place) with
    | some known => rfl
    | none =>
        rw [hlast] at hsome
        cases hsome

end Genuine

/-!
# What a history leads to
-/

namespace Genuine

variable {done : List Change}

theorem step (h : Genuine stock done chain) {change : Change} (hfits : change.Fits stock)
    (hstep : chain.step change = (.ok (), after)) : Genuine stock (change :: done) after := by
  cases change with
  | insert block =>
      cases hstep
      exact h.insert hfits
  | forget gone =>
      cases hstep
      exact h.forget gone
  | push block =>
      rcases h.best with ⟨top, htop⟩
      rcases (step_push_eq_ok_iff htop.ne_nil block after).mp hstep with
        ⟨⟨best, hbest, hparent⟩, hafter, hblocks⟩
      rcases after with ⟨blocks, best⟩
      cases hafter
      cases hblocks
      exact h.push hfits hbest hparent
  | setBest hash =>
      rcases h.stocked.setBest_cases hash with ⟨line, hline, hknown, hset⟩ | ⟨_, _, _, hset⟩
      · cases hset.symm.trans hstep
        exact h.setBest hline hknown
      · cases hset.symm.trans hstep

end Genuine

theorem Stocked.step_error (h : chain.Stocked stock) {change : Change} {cause : Halt}
    (hstep : chain.step change = (.error cause, after)) :
    after = chain ∧ ∃ fault, cause = .fault fault := by
  cases change with
  | insert block => cases hstep
  | forget gone => cases hstep
  | push block =>
      have hpush := (step_push chain block).symm.trans hstep
      by_cases hparent : block.parent = some (chain.best.getLast?.getD "")
      · rw [if_pos hparent] at hpush
        cases hpush
      · rw [if_neg hparent] at hpush
        cases hpush
        exact ⟨rfl, _, rfl⟩
  | setBest hash =>
      rcases h.setBest_cases hash with ⟨_, _, _, hset⟩ | ⟨_, _, _, hset⟩
      · cases hset.symm.trans hstep
      · cases hset.symm.trans hstep
        exact ⟨rfl, _, rfl⟩

theorem Arises.genuine {done : List Change} (h : Arises stock done chain) :
    Genuine stock done chain := by
  induction h with
  | begun hgenesis hparent => exact .begun hgenesis hparent
  | changed _ hfits hstep ih => exact ih.step hfits hstep
  | failed _ _ hstep ih =>
      rw [(ih.stocked.step_error hstep).1]
      exact ih

theorem Genuine.find?_of_best (h : Genuine stock done chain) (hbest : block.hash ∈ chain.best) :
    chain.find? block.hash = some block ↔ block ∈ stock ∧ ¬ IsForgotten done block.hash := by
  have hknown := h.known block.hash
  constructor
  · intro hfind
    refine ⟨h.stocked _ _ hfind, fun hforgotten => ?_⟩
    rw [hfind, show done.findSome? _ = some false from hforgotten] at hknown
    cases hknown
  · rintro ⟨hblock, hkept⟩
    rcases Option.isSome_iff_exists.mp (h.taken _ hbest) with ⟨known, hlast⟩
    rw [hlast] at hknown
    cases known with
    | false => exact absurd hlast hkept
    | true =>
        rcases Option.isSome_iff_exists.mp hknown with ⟨other, hfind⟩
        have hother : stock.find? block.hash = some other := h.stocked _ _ hfind
        rw [hfind, ← hother]
        exact hblock

end Chain

/-- Whatever has been done to a chain, its best chain is the lineage of the best hash.  A block can
be pushed if it has the best hash for parent, and a hash can be made the best one if all its
lineage is known; what fails leaves the chain as it is.  A height within the best chain finds the
block there, unless this has been forgotten. -/
theorem best_chain_is_genuine {stock : Stock} {done : List Chain.Change} {chain : Chain}
    (h : Chain.Arises stock done chain) (catalogue : Catalogue) :
    (∃ top, stock.Lineage top chain.best ∧ chain.bestHash = .ok top ∧
        (chain.best.length ≤ UInt64.size → chain.bestHeight.toNat + 1 = chain.best.length ∧
          chain.best[chain.bestHeight.toNat]? = some top)) ∧
      (∀ block after, chain.step (.push block) = (.ok (), after) ↔
        (∃ top, chain.bestHash = .ok top ∧ block.parent = some top) ∧
          after.best = chain.best ++ [block.hash] ∧
          after.blocks = (chain.insert block).blocks) ∧
      (∀ hash after, chain.step (.setBest hash) = (.ok (), after) ↔
        stock.Lineage hash after.best ∧ (∀ place ∈ after.best, (chain.find? place).isSome) ∧
          after.blocks = chain.blocks) ∧
      (∀ change cause after, chain.step change = (.error cause, after) →
        after = chain ∧ ∃ fault, cause = .fault fault) ∧
      (∀ height block, chain.blockAt (.byHeight height) = .ok block ↔
        block ∈ stock ∧ chain.best[height.toNat]? = some block.hash ∧
          ¬ Chain.IsForgotten done block.hash) ∧
      ∀ height world, ((Act.hashAt (chain.host catalogue) height).perform world).1 =
        .ok ((chain.blockAt (.byHeight height)).toOption.map Block.hash) := by
  have hgenuine := h.genuine
  rcases hgenuine.best with ⟨top, htop⟩
  have hheight := Chain.bestHeight_toNat htop.ne_nil
  rw [htop.getLast?_eq] at hheight
  refine ⟨⟨top, htop, Chain.bestHash_eq_ok_iff.mpr htop.getLast?_eq, hheight⟩,
    Chain.step_push_eq_ok_iff htop.ne_nil, hgenuine.stocked.setBest_eq_ok_iff,
    fun _ _ _ => hgenuine.stocked.step_error, ?_, chain.perform_hashAt catalogue⟩
  intro height block
  rw [Chain.blockAt_byHeight_iff]
  constructor
  · rintro ⟨hbest, hfind⟩
    rcases (hgenuine.find?_of_best (List.mem_of_getElem? hbest)).mp hfind with ⟨hblock, hkept⟩
    exact ⟨hblock, hbest, hkept⟩
  · rintro ⟨hblock, hbest, hkept⟩
    exact ⟨hbest, (hgenuine.find?_of_best (List.mem_of_getElem? hbest)).mpr ⟨hblock, hkept⟩⟩

def BlockTree.stock (tree : BlockTree) : Stock where
  find? := tree.find?
  hash_of_find? := tree.hash_of_find?
  acyclic := by
    have hfalls {high low : BlockHash} (h : Relation.TransGen
        (fun hash parent => (tree.find? hash).bind Block.parent = some parent) high low) :
        ∃ above below, tree.find? high = some above ∧ tree.find? low = some below ∧
          below.height.toNat < above.height.toNat := by
      have hstep {hash parent : BlockHash}
          (hparent : (tree.find? hash).bind Block.parent = some parent) :
          ∃ above below, tree.find? hash = some above ∧ tree.find? parent = some below ∧
            below.height.toNat < above.height.toNat := by
        rcases Option.bind_eq_some_iff.mp hparent with ⟨above, hfind, hnamed⟩
        rcases exists_parent_of (mem_of_find? hfind) hnamed with ⟨below, hchild, rfl⟩
        exact ⟨above, below, hfind, hchild.1, by rw [hchild.height]; exact Nat.lt_succ_self _⟩
      induction h with
      | single hparent => exact hstep hparent
      | tail _ hparent ih =>
          rcases ih with ⟨above, middle, habove, hmiddle, hless⟩
          rcases hstep hparent with ⟨other, below, hother, hbelow, hless'⟩
          cases hmiddle.symm.trans hother
          exact ⟨above, below, habove, hbelow, Nat.lt_trans hless' hless⟩
    intro hash hcycle
    rcases hfalls hcycle with ⟨above, below, habove, hbelow, hless⟩
    cases habove.symm.trans hbelow
    exact Nat.lt_irrefl _ hless

namespace Sample

def changes : List Chain.Change :=
  [.forget "g", .setBest "x", .insert beside, .push second, .push first, .insert genesis]

def forgetful : Chain := ⟨[beside, second, first], ["g", "x"]⟩

theorem arises_forgetful : Chain.Arises tree.stock changes forgetful := by
  have hpushed : Chain.Arises tree.stock [.push second, .push first, .insert genesis]
      ⟨[second, first, genesis], ["g", "a", "b"]⟩ :=
    .changed (.changed (.begun (show genesis ∈ tree by decide) rfl)
      (show first ∈ tree by decide) rfl) (show second ∈ tree by decide) rfl
  have hswitched : Chain.Arises tree.stock
      [.setBest "x", .insert beside, .push second, .push first, .insert genesis]
      ⟨[beside, second, first, genesis], ["g", "x"]⟩ :=
    .changed (.changed hpushed (show beside ∈ tree by decide) rfl) trivial rfl
  have hforgetful : Chain.Arises tree.stock changes forgetful := .changed hswitched trivial rfl
  have hfits : (Chain.Change.setBest "b").Fits tree.stock := trivial
  exact .failed hforgetful hfits rfl

end Sample

/-- The best chain goes on from a forgotten genesis, which is not found by its height. -/
theorem best_chain_is_genuine_of_sample :
    Chain.Arises Sample.tree.stock Sample.changes Sample.forgetful ∧
    Sample.tree.stock.Lineage "x" ["g", "x"] ∧
    Sample.forgetful.blockAt (.byHeight 0) ≠ .ok Sample.genesis ∧
    Sample.forgetful.blockAt (.byHeight 1) = .ok Sample.beside ∧
    ∀ after, Sample.forgetful.step (.setBest "b") ≠ (.ok (), after) := by
  rcases best_chain_is_genuine Sample.arises_forgetful Sample.catalogue with
    ⟨⟨top, hline, htop, _⟩, _, hset, _, hplace, _⟩
  cases htop
  refine ⟨Sample.arises_forgetful, hline, ?_, ?_, ?_⟩
  · intro hfound
    exact ((hplace 0 Sample.genesis).mp hfound).2.2 rfl
  · refine (hplace 1 Sample.beside).mpr ⟨show Sample.beside ∈ Sample.tree by decide, rfl, ?_⟩
    decide
  · intro after hafter
    rcases (hset "b" after).mp hafter with ⟨hline, hknown, _⟩
    have hlineage : Sample.tree.stock.Lineage "b" ["g", "a", "b"] :=
      .child (show Sample.tree.find? "b" = some Sample.second from rfl) rfl
        (.child (show Sample.tree.find? "a" = some Sample.first from rfl) rfl
          (.root (show Sample.tree.find? "g" = some Sample.genesis from rfl) rfl))
    rw [hline.unique hlineage] at hknown
    exact absurd (hknown "g" (by decide)) (by decide)

end ChainIndex
