import ChainIndex.Proofs.AtRest

/-!
# Calm hosts

A host is calm if it accepts every batch, lets everything be read, lets go of no loop before
its end, and no caller of it wishes to stop.  What an indexer does with a calm host is settled
by the blocks it is given and by what the indexes have to say of them.  There is one rule for
taking blocks off a track and one for putting blocks on it; each asks for what a single block
keeps, and gives what the whole of them keeps.
-/

namespace ChainIndex

structure Host.IsCalm (host : Host σ) : Prop where
  accept (edits : List Edit) (outside : σ) : (host.accept edits outside).answer = .ok ()
  outages (outside : σ) : (host.outages outside).answer = .ok .none
  going {signal : Signal} : host.Sends signal → signal ≠ .stop true
  patience : Host.enough ≤ host.patience

theorem Host.RestsAt.isCalm {host : Host σ} {tree : BlockTree} {best : Block}
    (h : host.RestsAt tree best) : host.IsCalm :=
  ⟨h.accept, h.outages, h.going, h.patience⟩

namespace Host.IsCalm

variable {host : Host σ} {outages : Outages} {cause : Halt} {edits : List Edit}

theorem reads (h : host.IsCalm) (hreads : host.Reads (.ok outages)) : outages = .none := by
  rcases hreads with ⟨outside, hanswer⟩
  rw [h.outages outside] at hanswer
  exact (Except.ok.inj hanswer).symm

theorem not_unread (h : host.IsCalm) : ¬ host.Reads (.error cause) := by
  rintro ⟨outside, hanswer⟩
  rw [h.outages outside] at hanswer
  cases hanswer

theorem not_refused (h : host.IsCalm) : ¬ host.Takes edits (.error cause) := by
  rintro ⟨outside, hanswer⟩
  rw [h.accept edits outside] at hanswer
  cases hanswer

end Host.IsCalm

theorem Host.Gives.finds {host : Host σ} {block found : Block} (h : host.Gives block)
    (hfinds : host.Finds (.byHash block.hash) (.ok found)) : found = block := by
  rcases hfinds with ⟨outside, hanswer⟩
  rw [h outside] at hanswer
  exact (Except.ok.inj hanswer).symm

theorem Host.Gives.not_lost {host : Host σ} {block : Block} {cause : Halt} (h : host.Gives block) :
    ¬ host.Finds (.byHash block.hash) (.error cause) := by
  rintro ⟨outside, hanswer⟩
  rw [h outside] at hanswer
  cases hanswer

/-!
# Chains
-/

/-- The blocks sit on one another, the first one on the lower pointer, and the last one is
at the upper. -/
inductive Chained : Pointer → List Block → Pointer → Prop where
  | stay (low : Pointer) : Chained low [] low
  | up {low high : Pointer} {block : Block} {rest : List Block} :
      block.extends? low = some true → Chained block.pointer rest high →
      Chained low (block :: rest) high

theorem Block.extends?_eq_true {block : Block} {low : Pointer} :
    block.extends? low = some true ↔
      block.height.toNat = low.height.toNat + 1 ∧ block.parent = some low.hash := by
  unfold extends?
  constructor
  · intro h
    rcases Option.map_eq_some_iff.mp h with ⟨next, hnext, hboth⟩
    rcases of_decide_eq_true hboth with ⟨hheight, hparent⟩
    exact ⟨hheight ▸ toNat_heightAbove? hnext, hparent⟩
  · intro h
    rcases h with ⟨hheight, hparent⟩
    have hsize := UInt64.toNat_lt_size block.height
    cases hnext : heightAbove? low.height with
    | none => exact absurd hnext (heightAbove?_ne_none (by omega))
    | some next =>
        have hsame : block.height = next := by
          apply UInt64.toNat_inj.mp
          rw [hheight, toNat_heightAbove? hnext]
        rw [Option.map_some, hparent, hsame]
        simp

theorem Block.destination_undo {block : Block} {low : Pointer}
    (h : block.extends? low = some true) : Act.destination block .undo = .ok low := by
  rcases extends?_eq_true.mp h with ⟨hheight, hparent⟩
  rw [Act.destination, hparent]
  exact congrArg Except.ok (pointer_below low hheight)

namespace Chained

variable {low middle high : Pointer} {blocks front back : List Block} {block : Block}

theorem append (h : Chained low front middle) (h' : Chained middle back high) :
    Chained low (front ++ back) high := by
  induction h with
  | stay _ => exact h'
  | up hblock _ ih => exact up hblock (ih h')

theorem split (h : Chained low (front ++ back) high) :
    ∃ middle, Chained low front middle ∧ Chained middle back high := by
  induction front generalizing low with
  | nil => exact ⟨low, stay low, h⟩
  | cons block rest ih =>
      cases h with
      | up hblock hrest =>
          rcases ih hrest with ⟨middle, hfront, hback⟩
          exact ⟨middle, up hblock hfront, hback⟩

theorem snoc (h : Chained low front middle) (hblock : block.extends? middle = some true) :
    Chained low (front ++ [block]) block.pointer :=
  h.append (up hblock (stay _))

theorem of_snoc (h : Chained low (front ++ [block]) high) :
    ∃ middle, Chained low front middle ∧ block.extends? middle = some true ∧
      high = block.pointer := by
  rcases h.split with ⟨middle, hfront, hlast⟩
  cases hlast with
  | up hblock hrest =>
      cases hrest
      exact ⟨middle, hfront, hblock, rfl⟩

theorem ends (h : Chained low blocks high) :
    (blocks = [] ∧ high = low) ∨ ∃ front block middle, blocks = front ++ [block] ∧
      Chained low front middle ∧ block.extends? middle = some true ∧ high = block.pointer := by
  rcases List.eq_nil_or_concat blocks with rfl | ⟨front, block, rfl⟩
  · cases h
    exact Or.inl ⟨rfl, rfl⟩
  · rw [List.concat_eq_append] at h ⊢
    rcases h.of_snoc with ⟨middle, hfront, hextends, hhigh⟩
    exact Or.inr ⟨front, block, middle, rfl, hfront, hextends, hhigh⟩

theorem height (h : Chained low front high) :
    high.height.toNat = low.height.toNat + front.length := by
  induction h with
  | stay _ => rfl
  | @up low high block rest hblock _ ih =>
      have hheight := (Block.extends?_eq_true.mp hblock).1
      have hpointer : block.pointer.height = block.height := rfl
      rw [ih, hpointer, List.length_cons]
      omega

theorem high_unique {other : Pointer} (h : Chained low front high) (h' : Chained low front other) :
    high = other := by
  induction h with
  | stay _ =>
      cases h'
      rfl
  | up _ _ ih =>
      cases h' with
      | up _ hrest => exact ih hrest

end Chained

/-!
# What has come of a world
-/

namespace Frontier

theorem move_move (frontier : Frontier) (track : Track) (pointer other : Pointer) :
    (frontier.move track pointer).move track other = frontier.move track other := by
  cases track <;> rfl

theorem move_tip (frontier : Frontier) (track : Track) :
    frontier.move track (frontier.tip track) = frontier := by
  cases track <;> rfl

end Frontier

/-- The tips, the table, and what has been done. -/
structure Holding where
  frontier : Frontier
  table : Table
  deeds : List Entry

namespace Holding

def land (holding : Holding) (track : Track) (own : List Edit) (pointer : Pointer) : Holding where
  frontier := holding.frontier.move track pointer
  table := holding.table.commit (own ++ [Frontier.edit track pointer])
  deeds := .batch (own ++ [Frontier.edit track pointer]) (.ok ()) :: holding.deeds

def tell (holding : Holding) (event : Event) : Holding :=
  { holding with deeds := .emitted event :: holding.deeds }

def step (holding : Holding) (track : Track) (own : List Edit) (block : Block)
    (direction : Direction) (pointer : Pointer) : Holding :=
  match track with
  | .concurrent => holding.land .concurrent own pointer
  | .serial => (holding.land .serial own pointer).tell (Act.report block direction)

variable (holding : Holding) (track : Track) (own : List Edit) (block : Block)
variable (direction : Direction) (pointer : Pointer)

theorem frontier_step :
    (holding.step track own block direction pointer).frontier =
      holding.frontier.move track pointer := by
  cases track <;> rfl

theorem table_step :
    (holding.step track own block direction pointer).table =
      holding.table.commit (own ++ [Frontier.edit track pointer]) := by
  cases track <;> rfl

end Holding

def World.holding (world : World σ) : Holding :=
  ⟨world.frontier, world.table, ChainIndex.deeds world.course⟩

theorem World.holding_stepped (world : World σ) (track : Track) (own : List Edit) (block : Block)
    (direction : Direction) (pointer : Pointer) :
    (world.stepped track own block direction pointer).holding =
      world.holding.step track own block direction pointer := by
  cases track <;> rfl

structure Poised (holding : Holding) (intake : Intake) (world : World σ) : Prop where
  holding : world.holding = holding
  intake : world.intake = intake
  going : world.inbox.stopWanted = false

namespace Poised

variable {host : Host σ} {holding start : Holding} {intake : Intake} {world after : World σ}
variable {track : Track} {own : List Edit} {block : Block} {direction : Direction}
variable {pointer base top : Pointer} {blocks : List Block} {asked : List Entry}

theorem frontier (h : Poised holding intake world) : world.frontier = holding.frontier :=
  congrArg Holding.frontier h.holding

theorem table (h : Poised holding intake world) : world.table = holding.table :=
  congrArg Holding.table h.holding

theorem lull (h : Poised holding intake world) (hcalm : host.IsCalm)
    (hlull : Lull host world after) : Poised holding intake after where
  holding := by
    rw [← h.holding, World.holding, World.holding, hlull.frontier, hlull.table, hlull.deeds_eq]
  intake := hlull.intake.trans h.intake
  going := by
    cases hstop : after.inbox.stopWanted with
    | false => rfl
    | true =>
        rcases hlull.stop hstop with hwanted | hsent
        · exact hwanted.symm.trans h.going
        · exact absurd rfl (hcalm.going hsent)

theorem emit (h : Poised holding intake world) (event : Event) :
    Poised (holding.tell event) intake (world.record (.emitted event)) where
  holding := by
    rw [← h.holding]
    rfl
  intake := h.intake
  going := h.going

/-!
# Single blocks
-/

theorem stepped (h : Poised holding intake world) (hcalm : host.IsCalm)
    (hstepped : Stepped host asked track block direction world after)
    (hown : host.catalogue.edits track block direction (.clear holding.table) = .ok own)
    (hpointer : Act.destination block direction = .ok pointer) :
    Poised (holding.step track own block direction pointer) intake after := by
  cases hstepped with
  | @step heard outages own' pointer' hasks hreads hown' hpointer' =>
      rw [hcalm.reads hreads, h.table] at hown'
      have howns := Except.ok.inj (hown'.symm.trans hown)
      have hpointers := Except.ok.inj (hpointer'.symm.trans hpointer)
      subst howns hpointers
      have hheard := h.lull hcalm hasks.lull
      constructor
      · rw [World.holding_stepped, hheard.holding]
      · cases track <;> exact hheard.intake
      · cases track <;> exact hheard.going

theorem not_hindered (h : Poised holding intake world) (hcalm : host.IsCalm)
    (hown : host.catalogue.edits track block direction (.clear holding.table) = .ok own)
    (hpointer : Act.destination block direction = .ok pointer) {cause : Halt} :
    ¬ host.Hinders track block direction world cause asked after := by
  intro hhinders
  cases hhinders with
  | declined hdeclines =>
      cases hdeclines with
      | unread hreads => exact hcalm.not_unread hreads
      | unfit hreads hedits _ _ =>
          rw [hcalm.reads hreads, h.table] at hedits
          cases hedits.symm.trans hown
  | rootless _ hrootless => cases hrootless.symm.trans hpointer
  | refused _ hrefused => exact hcalm.not_refused hrefused

/-!
# Blocks taken off a track

The blocks of a chain are taken off from the last one on, and what is kept speaks of those
that are left.
-/

structure Along (start : Holding) (track : Track) (base : Pointer) (blocks : List Block)
    (kept : List Block → Holding → Prop) (intake : Intake) (lower : List Block)
    (world : World σ) : Prop where
  part : lower <+: blocks
  poised : ∃ holding low, Poised holding intake world ∧ Chained base lower low ∧
    holding.frontier = start.frontier.move track low ∧ kept lower holding

theorem rewindTurn {kept : List Block → Holding → Prop} {lower : List Block} (hcalm : host.IsCalm)
    (hgives : ∀ block ∈ blocks, host.Gives block)
    (hne : ∀ block ∈ blocks, block.hash ≠ base.hash)
    (hstep : ∀ front block low holding, front ++ [block] <+: blocks → Chained base front low →
      kept (front ++ [block]) holding →
      ∃ own, host.catalogue.edits track block .undo (.clear holding.table) = .ok own ∧
        kept front (holding.step track own block .undo low))
    (h : Along start track base blocks kept intake lower world) (undone : Nat) :
    (Switching.rewindTurn host track base.hash undone).Yields world
      (fun result after => result.Is
        (fun _ => ∃ front, front.length < lower.length ∧
          Along start track base blocks kept intake front after)
        (fun _ => Along start track base blocks kept intake [] after))
      (fun _ _ => False) := by
  rcases h.poised with ⟨holding, high, hpoised, hchain, hfrontier, hkept⟩
  have htip : world.frontier.tip track = high := by
    rw [hpoised.frontier, hfrontier, Frontier.tip_move_same]
  have hturn := Switching.rewindTurn_yields host track base.hash undone world
  -- Only where no block is left has the tip the hash of the base.
  rcases hchain.ends with ⟨rfl, rfl⟩ | ⟨front, block, low, rfl, hfront, hextends, rfl⟩
  · have harrived : (world.frontier.tip track).hash = high.hash := congrArg Pointer.hash htip
    refine hturn.mono ?_ fun cause after hhalted => hhalted.ne harrived
    intro result after hresult
    cases hresult with
    | arrived _ => exact h
    | undone hat _ _ _ _ => exact absurd harrived hat
  · have hmem : block ∈ blocks := h.part.subset (by simp)
    have hgiven := hgives block hmem
    have hpointer := Block.destination_undo hextends
    rcases hstep front block low holding h.part hfront hkept with ⟨own, hown, hnext⟩
    refine hturn.mono ?_ ?_
    · intro result after hresult
      cases hresult with
      | arrived hat =>
          rw [htip] at hat
          exact absurd hat (hne block hmem)
      | undone _ _ _ hfinds hstepped =>
          rw [htip] at hfinds
          rw [hgiven.finds hfinds] at hstepped
          refine ⟨front, by simp, (List.prefix_append _ _).trans h.part, _, low,
            hpoised.stepped hcalm hstepped hown hpointer, hfront, ?_, hnext⟩
          rw [Holding.frontier_step, hfrontier, Frontier.move_move]
    · intro cause after hhalted
      cases hhalted with
      | bottom _ hzero =>
          have hheight := (Block.extends?_eq_true.mp hextends).1
          rw [htip] at hzero
          rw [show block.height = 0 from hzero] at hheight
          cases hheight
      | stopped _ _ hstop =>
          rw [hpoised.going] at hstop
          cases hstop
      | lost _ _ _ hlost _ =>
          rw [htip] at hlost
          exact hgiven.not_lost hlost
      | hindered _ _ _ hfinds _ hhinders =>
          rw [htip] at hfinds
          rw [hgiven.finds hfinds] at hhinders
          exact hpoised.not_hindered hcalm hown hpointer hhinders

theorem rewind (h : Poised start intake world) (hcalm : host.IsCalm) (track : Track)
    (hchain : Chained base blocks (start.frontier.tip track))
    (hgives : ∀ block ∈ blocks, host.Gives block)
    (hne : ∀ block ∈ blocks, block.hash ≠ base.hash) (kept : List Block → Holding → Prop)
    (hstart : kept blocks start)
    (hstep : ∀ front block low holding, front ++ [block] <+: blocks → Chained base front low →
      kept (front ++ [block]) holding →
      ∃ own, host.catalogue.edits track block .undo (.clear holding.table) = .ok own ∧
        kept front (holding.step track own block .undo low)) :
    (Switching.rewind host track base.hash).Yields world
      (fun _ after => ∃ holding, Poised holding intake after ∧
        holding.frontier = start.frontier.move track base ∧ kept [] holding)
      (fun _ _ => False) := by
  have hlength : blocks.length < host.patience := by
    have hheight := hchain.height
    have hsize := UInt64.toNat_lt (start.frontier.tip track).height
    have hpatience := hcalm.patience
    unfold Host.enough at hpatience
    omega
  have hbegun : Along start track base blocks kept intake blocks world :=
    ⟨List.prefix_refl _, start, _, h, hchain, (Frontier.move_tip _ _).symm, hstart⟩
  refine Act.yields_turns
    (fun left _ world => ∃ lower, lower.length < left ∧
      Along start track base blocks kept intake lower world)
    ?_ ?_ ⟨blocks, hlength, hbegun⟩
  · intro left undone world hkept
    rcases hkept with ⟨lower, hleft, hlower⟩
    refine (rewindTurn hcalm hgives hne hstep hlower undone).imp ?_
    intro result after hresult
    cases result with
    | done undone =>
        rcases hresult.poised with ⟨holding, low, hpoised, hempty, hfrontier, hkept⟩
        cases hempty
        exact ⟨holding, hpoised, hfrontier, hkept⟩
    | again undone =>
        rcases hresult with ⟨front, hless, hfront⟩
        exact ⟨front, by omega, hfront⟩
  · intro undone world hkept
    rcases hkept with ⟨lower, hleft, _⟩
    exact absurd hleft (Nat.not_lt_zero _)

/-!
# Blocks put on a track
-/

theorem replayOne (h : Poised holding intake world) (hcalm : host.IsCalm)
    (hgives : host.Gives block) (hextends : block.extends? (world.frontier.tip track) = some true)
    (hown : host.catalogue.edits track block .apply (.clear holding.table) = .ok own) :
    (Switching.replayOne host track block.hash).Yields world
      (fun _ after => Poised (holding.step track own block .apply block.pointer) intake after)
      (fun _ _ => False) := by
  refine (Switching.replayOne_yields host track block.hash world).mono ?_ ?_
  · intro _ after hended
    cases hended with
    | applied _ hfinds _ hstepped =>
        rw [hgives.finds hfinds] at hstepped
        exact h.stepped hcalm hstepped hown rfl
  · intro cause after hhalted
    cases hhalted with
    | stopped hstop =>
        rw [h.going] at hstop
        cases hstop
    | lost _ hlost _ => exact hgives.not_lost hlost
    | apart _ hfinds hapart _ =>
        rw [hgives.finds hfinds] at hapart
        exact hapart hextends
    | hindered _ hfinds _ _ hhinders =>
        rw [hgives.finds hfinds] at hhinders
        exact h.not_hindered hcalm hown rfl hhinders

theorem replay (h : Poised start intake world) (hcalm : host.IsCalm) (track : Track)
    (hchain : Chained (start.frontier.tip track) blocks top)
    (hgives : ∀ block ∈ blocks, host.Gives block) (kept : List Block → Holding → Prop)
    (hstart : kept [] start)
    (hstep : ∀ front block holding, front ++ [block] <+: blocks → kept front holding →
      ∃ own, host.catalogue.edits track block .apply (.clear holding.table) = .ok own ∧
        kept (front ++ [block]) (holding.step track own block .apply block.pointer)) :
    (Switching.replay host track (blocks.map Block.hash)).Yields world
      (fun _ after => ∃ holding, Poised holding intake after ∧
        holding.frontier = start.frontier.move track top ∧ kept blocks holding)
      (fun _ _ => False) := by
  have hbegun : Along start track (start.frontier.tip track) blocks kept intake [] world :=
    ⟨List.nil_prefix, start, _, h, .stay _, (Frontier.move_tip _ _).symm, hstart⟩
  -- The blocks that are still to be put on the track follow on those that are there.
  refine (Switching.replay_of_steps
    (fun hashes now => ∃ front rest, hashes = rest.map Block.hash ∧ front ++ rest = blocks ∧
      Along start track (start.frontier.tip track) blocks kept intake front now)
    ?_ ⟨[], blocks, rfl, List.nil_append _, hbegun⟩).imp ?_
  · rintro hash hashes now ⟨front, rest, hhashes, hall, halong⟩
    cases rest with
    | nil => cases hhashes
    | cons block rest =>
        cases hhashes
        rcases halong.poised with ⟨holding, low, hpoised, hfront, hfrontier, hkept⟩
        have hpart : front ++ [block] <+: blocks := by
          rw [← hall]
          exact ⟨rest, by simp⟩
        have hextends : block.extends? low = some true := by
          rw [← hall] at hchain
          rcases hchain.split with ⟨middle, hlower, hupper⟩
          rw [hlower.high_unique hfront] at hupper
          cases hupper with
          | up hblock _ => exact hblock
        have htip : now.frontier.tip track = low := by
          rw [hpoised.frontier, hfrontier, Frontier.tip_move_same]
        rcases hstep front block holding hpart hkept with ⟨own, hown, hnext⟩
        refine (replayOne hpoised hcalm (hgives block (hpart.subset (by simp)))
          (htip ▸ hextends) hown).imp ?_
        intro _ middle hmiddle
        refine ⟨front ++ [block], rest, rfl, by rw [← hall]; simp, hpart, _, _, hmiddle,
          hfront.snoc hextends, ?_, hnext⟩
        rw [Holding.frontier_step, hfrontier, Frontier.move_move]
  · rintro _ after ⟨front, rest, hhashes, hall, halong⟩
    have hrest : rest = [] := List.map_eq_nil_iff.mp hhashes.symm
    rw [hrest, List.append_nil] at hall
    subst hall
    rcases halong.poised with ⟨holding, low, hpoised, hwhole, hfrontier, hkept⟩
    rw [hwhole.high_unique hchain] at hfrontier
    exact ⟨holding, hpoised, hfrontier, hkept⟩

end Poised

end ChainIndex
