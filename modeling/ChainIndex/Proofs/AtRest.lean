import ChainIndex.Proofs.Contents
import ChainIndex.Proofs.Histories

/-!
# Chains at rest

A chain is at rest when its best block stays the same and no call to its host fails.
Blocks off the best chain may still be unknown to the host.  An indexer with the
standard indexes is then on firm terms with it, as long as the blocks that it may have
to take off its tracks are to be had.
-/

namespace ChainIndex

structure Host.RestsAt (host : Host σ) (tree : BlockTree) (best : Block) : Prop where
  agrees : host.Agrees tree
  best_mem : best ∈ tree
  byHeight {block : Block} (outside : σ) : tree.Below block best →
    (host.blockAt (.byHeight block.height) outside).answer = .ok block
  above {height : UInt64} (outside : σ) : best.height < height → ∃ what,
    (host.blockAt (.byHeight height) outside).answer = .error (.fault (.notFound what))
  bestHash (outside : σ) : (host.bestHash outside).answer = .ok best.hash
  accept (edits : List Edit) (outside : σ) : (host.accept edits outside).answer = .ok ()
  outages (outside : σ) : (host.outages outside).answer = .ok .none
  going {signal : Signal} : host.Sends signal → signal ≠ .stop true
  /-- No loop is let go before it has come to its end. -/
  patience : Host.enough ≤ host.patience

/-- The host stays with one best chain, and it knows of nothing above the end of that. -/
structure Host.StaysAt (host : Host σ) (tree : BlockTree) (best : Block) : Prop where
  best_mem : best ∈ tree
  bestHash (outside : σ) : (host.bestHash outside).answer = .ok best.hash
  byHeight {block : Block} (outside : σ) : tree.Below block best →
    (host.blockAt (.byHeight block.height) outside).answer = .ok block
  above {height : UInt64} (outside : σ) : best.height < height → ∃ what,
    (host.blockAt (.byHeight height) outside).answer = .error (.fault (.notFound what))

theorem Host.RestsAt.staysAt {host : Host σ} {tree : BlockTree} {best : Block}
    (h : host.RestsAt tree best) : host.StaysAt tree best :=
  { h with }

def Host.Gives (host : Host σ) (block : Block) : Prop :=
  ∀ outside, (host.blockAt (.byHash block.hash) outside).answer = .ok block

def Host.Charts (host : Host σ) (block : Block) : Prop :=
  ∀ outside, (host.headerOf block.hash outside).answer = .ok block.header

structure Host.Serves (host : Host σ) (block : Block) : Prop where
  gives : host.Gives block
  charts : host.Charts block

theorem Times.Roomy.below {tree : BlockTree} {low high : Block} (h : Times.Roomy tree high)
    (hbelow : tree.Below low high) : Times.Roomy tree low := by
  intro path hpath pair hpair
  rcases BlockTree.Climb.of_below hbelow with ⟨rest, hrest⟩
  exact h _ (hpath.append hrest) pair (Times.mem_assigned_append hpair)

theorem BlockTree.exists_below {tree : BlockTree} {high : Block} (h : high ∈ tree) {n : Nat}
    (hn : n ≤ high.height.toNat) : ∃ low, tree.Below low high ∧ low.height.toNat = n := by
  have hgenesis := Below.genesis h
  induction hgenesis with
  | refl =>
      rw [tree.height_genesis] at hn
      refine ⟨tree.genesis, .refl _, ?_⟩
      rw [tree.height_genesis, Nat.le_zero.mp hn]
      rfl
  | @tail parent block hparent hchild ih =>
      by_cases htop : n = block.height.toNat
      · exact ⟨block, .refl _, htop.symm⟩
      · have hheight := hchild.height
        rcases ih hchild.1 (by omega) with ⟨low, hlow, heq⟩
        exact ⟨low, hlow.up hchild, heq⟩

theorem Host.StaysAt.atHeight {host : Host σ} {tree : BlockTree} {best : Block}
    (h : host.StaysAt tree best) (height : UInt64) (outside : σ) :
    (∃ low, tree.Below low best ∧ low.height = height ∧
      (host.blockAt (.byHeight height) outside).answer = .ok low) ∨
      (best.height < height ∧ ∃ what,
        (host.blockAt (.byHeight height) outside).answer = .error (.fault (.notFound what))) := by
  by_cases hhigh : best.height < height
  · exact Or.inr ⟨hhigh, h.above outside hhigh⟩
  · have hle := UInt64.le_iff_toNat_le.mp (UInt64.not_lt.mp hhigh)
    rcases BlockTree.exists_below h.best_mem hle with ⟨low, hlow, heq⟩
    have hheight := UInt64.toNat_inj.mp heq
    have hanswer := h.byHeight outside hlow
    rw [hheight] at hanswer
    exact Or.inl ⟨low, hlow, hheight, hanswer⟩

/-!
# Terms with a chain at rest
-/

structure Terms.Rest (tree : BlockTree) (catalogue : Catalogue) (best : Block) : Prop where
  standard : catalogue.IsStandard
  best_mem : best ∈ tree
  room : best.height.toNat + 1 < UInt64.size
  roomy : Times.Roomy tree best

def BlockTree.Reaches (tree : BlockTree) (tip best more block : Block) : Prop :=
  tree.Below block tip ∨ tree.Below block best ∨ block = more

theorem BlockTree.Reaches.down {tree : BlockTree} {tip best more parent block : Block}
    (hmore : ∀ parent, tree.Child parent more → tree.Below parent best)
    (hchild : tree.Child parent block) (h : tree.Reaches tip best more block) :
    tree.Reaches tip best more parent := by
  rcases h with htip | hbest | rfl
  · exact Or.inl ((Below.of_child hchild).trans htip)
  · exact Or.inr (Or.inl ((Below.of_child hchild).trans hbest))
  · exact Or.inr (Or.inl (hmore parent hchild))

def Terms.atRest {tree : BlockTree} {catalogue : Catalogue} {best : Block}
    (hrest : Terms.Rest tree catalogue best) (tip named more : Block)
    (hnamed : ∀ parent, tree.Child parent named → tree.Below parent best)
    (hmore : more = named ∨ more = best) : Terms where
  tree := tree
  catalogue := catalogue
  firm := True
  charted := tree.Reaches tip best named
  served := tree.Reaches tip best more
  best := best
  eligible := Times.Roomy tree
  charted_down _ := .down hnamed
  served_down _ := .down (by
    intro parent hchild
    rcases hmore with rfl | rfl
    · exact hnamed parent hchild
    · exact .of_child hchild)
  served_charted := by
    intro block _ hserved
    rcases hserved with htip | hbest | rfl
    · exact Or.inl htip
    · exact Or.inr (Or.inl hbest)
    · rcases hmore with rfl | rfl
      · exact Or.inr (Or.inr rfl)
      · exact Or.inr (Or.inl (.refl _))
  best_mem _ := hrest.best_mem
  best_served _ := Or.inr (Or.inl (.refl best))
  eligible_below _ hbelow := hrest.roomy.below hbelow
  room _ := hrest.room
  fluent := by
    intro course standing block track direction _ hchronicle hconcerns hroomy
    rcases hchronicle.filled hrest.standard with ⟨upper, lower, hfilled⟩
    exact hfilled.exists_edits hrest.standard hconcerns hroomy

namespace Host.RestsAt

variable {tree : BlockTree} {catalogue : Catalogue} {best tip named more : Block}
variable {host : Host σ}

theorem rest (h : host.RestsAt tree best) (hroom : best.height.toNat + 1 < UInt64.size)
    (hstandard : catalogue.IsStandard) (hroomy : Times.Roomy tree best) :
    Terms.Rest tree catalogue best :=
  ⟨hstandard, h.best_mem, hroom, hroomy⟩

theorem admits {terms : Terms} (hgoing : ∀ signal, host.Sends signal → signal ≠ .stop true)
    {signals : List Signal} (hfits : ∀ signal ∈ signals, signal.Fits terms.tree)
    (hsends : ∀ signal ∈ signals, host.Sends signal) :
    ∀ signal ∈ signals, terms.Admits signal := by
  intro signal hsignal
  have hfit := hfits signal hsignal
  have hstop := hgoing signal (hsends signal hsignal)
  cases signal with
  | notify block => exact hfit
  | stop wanted =>
      cases wanted with
      | false => exact fun _ => rfl
      | true => exact absurd rfl hstop
  | release => trivial

theorem fits {reply : Reply σ α} {terms : Terms} {given : α → Prop} {refused : Halt → Prop}
    (hgiven : ∀ a, reply.answer = .ok a → given a)
    (hrefused : ∀ cause, reply.answer = .error cause → refused cause)
    (hsignals : ∀ signal ∈ reply.signals, terms.Admits signal) :
    reply.Fits terms given refused := by
  constructor
  · cases hanswer : reply.answer with
    | ok a => exact hgiven a hanswer
    | error cause => exact hrefused cause hanswer
  · exact hsignals

theorem honours (h : host.RestsAt tree best) (hcatalogue : host.catalogue = catalogue)
    (hrest : Terms.Rest tree catalogue best)
    {hnamed : ∀ parent, tree.Child parent named → tree.Below parent best}
    {hmore : more = named ∨ more = best}
    (hcharts : ∀ block, tree.Reaches tip best named block → host.Charts block)
    (hgives : ∀ block, tree.Reaches tip best more block → host.Gives block) :
    host.Honours (Terms.atRest hrest tip named more hnamed hmore) := by
  have hgoing : ∀ signal, host.Sends signal → signal ≠ .stop true := fun _ => h.going
  constructor
  · intro hash outside
    have hreply := h.agrees.byHash hash outside
    refine fits hreply.1 ?_ (admits hgoing hreply.2 fun _ => .block)
    intro cause hcause _ block hhash hserved
    subst hhash
    rw [hgives block hserved outside] at hcause
    cases hcause
  · intro height outside
    have hreply := h.agrees.byHeight height outside
    refine fits ?_ ?_ (admits hgoing hreply.2 fun _ => .block)
    · intro block hblock
      rcases hreply.1 block hblock with ⟨hmem, hheight⟩
      refine ⟨hmem, hheight, fun _ => ?_⟩
      rcases h.staysAt.atHeight height outside with
        ⟨low, hlow, _, hanswer⟩ | ⟨_, what, hanswer⟩
      · rw [hanswer] at hblock
        rw [← Except.ok.inj hblock]
        exact hlow
      · rw [hanswer] at hblock
        cases hblock
    · intro cause hcause _
      rcases h.staysAt.atHeight height outside with
        ⟨low, _, _, hanswer⟩ | ⟨hhigh, what, hanswer⟩
      · rw [hanswer] at hcause
        cases hcause
      · rw [hanswer] at hcause
        exact ⟨hhigh, what, (Except.error.inj hcause).symm⟩
  · intro hash outside
    have hreply := h.agrees.header hash outside
    refine fits hreply.1 ?_ (admits hgoing hreply.2 fun _ => .header)
    intro cause hcause _ block hhash hcharted
    subst hhash
    rw [hcharts block hcharted outside] at hcause
    cases hcause
  · intro outside
    have hreply := h.agrees.bestHash outside
    refine fits ?_ ?_ (admits hgoing hreply.2 fun _ => .best)
    · intro hash hhash _
      rw [h.bestHash outside] at hhash
      exact (Except.ok.inj hhash).symm
    · intro cause hcause
      rw [h.bestHash outside] at hcause
      cases hcause
  · intro edits outside
    have hreply := h.agrees.accept edits outside
    refine fits (fun _ _ => trivial) ?_ (admits hgoing hreply.2 fun _ => .batch)
    intro cause hcause
    rw [h.accept edits outside] at hcause
    cases hcause
  · intro outside
    have hreply := h.agrees.outages outside
    refine fits ?_ ?_ (admits hgoing hreply.2 fun _ => .read)
    · intro outages houtages _
      rw [h.outages outside] at houtages
      exact (Except.ok.inj houtages).symm
    · intro cause hcause
      rw [h.outages outside] at hcause
      cases hcause
  · exact hcatalogue
  · intro _
    exact h.patience

end Host.RestsAt

end ChainIndex
