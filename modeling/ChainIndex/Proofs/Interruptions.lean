import ChainIndex.Proofs.Plans
import ChainIndex.Proofs.Rounds

/-!
# Interruptions

A host provides a tree if it serves all of its blocks and never fails, though its best chain
may be another one at every call.  With such a host an act is cut short for three reasons only:
a stop is wanted, an index has no edits for a block, or no height is left above a block.

The reasons are those for which a step may be cut short, less what a host that provides the tree
never does.  Where an act stands meanwhile is known from what it yields on loose terms.
-/

namespace ChainIndex

/-!
# Hosts that provide a tree
-/

structure Host.Provides (host : Host σ) (tree : BlockTree) : Prop where
  agrees : host.Agrees tree
  serves {block : Block} : block ∈ tree → host.Serves block
  /-- There may be no block at a height, but nothing else goes wrong. -/
  byHeight (height : UInt64) (outside : σ) {cause : Halt} :
    (host.blockAt (.byHeight height) outside).answer = .error cause →
      ∃ what, cause = .fault (.notFound what)
  bestHash (outside : σ) : ∃ best ∈ tree, (host.bestHash outside).answer = .ok best.hash
  accept (edits : List Edit) (outside : σ) : (host.accept edits outside).answer = .ok ()
  outages (outside : σ) : (host.outages outside).answer = .ok .none
  /-- Nobody takes a wish to stop back. -/
  stands : ¬ host.Sends (.stop false)
  /-- No loop is let go before it has come to its end. -/
  patience : Host.enough ≤ host.patience

/-- The host provides the tree of these terms, and the terms are loose. -/
structure Host.Supports (host : Host σ) (terms : Terms) : Prop where
  honours : host.Honours terms
  provides : host.Provides terms.tree
  loose : ¬ terms.firm

/-!
# Reasons
-/

def World.newest (world : World σ) : Pointer :=
  (world.intake.inFlight.getLast?.map Block.pointer).getD world.frontier.serial

/-- No height is left above the serial tip, or above a block that comes next on the newest. -/
def World.AtSummit (tree : BlockTree) (world : World σ) : Prop :=
  ∃ block ∈ tree, heightAbove? block.height = none ∧
    (world.frontier.serial = block.pointer ∨ block.parent = some world.newest.hash)

inductive Hindered (tree : BlockTree) (host : Host σ) (start : World σ) :
    Halt → World σ → Prop where
  /-- The indexes have just been asked in vain. -/
  | unfit {track : Track} {block : Block} {direction : Direction} {view : View}
      {past : List Entry} {cause : Halt} {world : World σ} :
      world.course = .consulted track block direction view :: past → start.course <:+ past →
      host.catalogue.edits track block direction view = .error cause →
      Hindered tree host start cause world
  | summit {world : World σ} : world.AtSummit tree → Hindered tree host start .overflow world

inductive Interrupted (tree : BlockTree) (host : Host σ) (start : World σ) :
    Halt → World σ → Prop where
  | stopped {reason : String} {world : World σ} : world.inbox.stopWanted = true →
      Interrupted tree host start (.fault (.aborted reason)) world
  | hindered {cause : Halt} {world : World σ} : Hindered tree host start cause world →
      Interrupted tree host start cause world

section

variable {tree : BlockTree} {host : Host σ} {start middle world : World σ} {cause : Halt}

theorem Hindered.since (h : Hindered tree host middle cause world)
    (hpast : start.course <:+ middle.course) : Hindered tree host start cause world := by
  cases h with
  | unfit hcourse hsince hedits => exact .unfit hcourse (hpast.trans hsince) hedits
  | summit hsummit => exact .summit hsummit

theorem Interrupted.since (h : Interrupted tree host middle cause world)
    (hpast : start.course <:+ middle.course) : Interrupted tree host start cause world := by
  cases h with
  | stopped hwanted => exact .stopped hwanted
  | hindered hhindered => exact .hindered (hhindered.since hpast)

end

/-!
# Acts that proceed
-/

namespace Act

/-- In this world the act ends as in `ended`, or it is interrupted. -/
def Proceeds (tree : BlockTree) (host : Host σ) (act : Act σ α) (world : World σ)
    (ended : α → World σ → Prop) : Prop :=
  act.Yields world (fun a after => world.course <:+ after.course ∧ ended a after)
    (Interrupted tree host world)

section

variable {tree : BlockTree} {host : Host σ} {world : World σ}

theorem Proceeds.imp {act : Act σ α} {ended ended' : α → World σ → Prop}
    (h : act.Proceeds tree host world ended)
    (hended : ∀ a after, ended a after → ended' a after) :
    act.Proceeds tree host world ended' :=
  Yields.imp h fun a after hafter => ⟨hafter.1, hended a after hafter.2⟩

theorem Proceeds.and {act : Act σ α} {ended ended' : α → World σ → Prop}
    {halted : Halt → World σ → Prop} (h : act.Proceeds tree host world ended)
    (h' : act.Yields world ended' halted) :
    act.Proceeds tree host world fun a after => ended a after ∧ ended' a after :=
  (Yields.and h h').mono (fun _ _ hafter => ⟨hafter.1.1, hafter.1.2, hafter.2⟩)
    fun _ _ hcause => hcause.1

theorem Proceeds.next {act : Act σ α} {start : World σ} {ended : α → World σ → Prop}
    (h : act.Proceeds tree host world ended) (hpast : start.course <:+ world.course) :
    act.Yields world (fun a after => start.course <:+ after.course ∧ ended a after)
      (Interrupted tree host start) :=
  Yields.mono h (fun _ _ hafter => ⟨hpast.trans hafter.1, hafter.2⟩)
    fun _ _ hcause => hcause.since hpast

theorem proceeds_turns {turn : β → Act σ (Turn β α)} (kept : Nat → β → World σ → Prop)
    {ended : α → World σ → Prop}
    (hturn : ∀ left state world, kept (left + 1) state world →
      (turn state).Proceeds tree host world fun result after =>
        result.Is (kept left · after) (ended · after))
    (hout : ∀ state world, ¬ kept 0 state world) {allowed : Nat} {state : β}
    (h : kept allowed state world) : (turns turn allowed state).Proceeds tree host world ended := by
  refine yields_turns
    (fun left state after => world.course <:+ after.course ∧ kept left state after) ?_
    (fun state after hkept => (hout state after hkept.2).elim) ⟨List.suffix_refl _, h⟩
  intro left state middle hkept
  rcases hkept with ⟨hpast, hkept⟩
  refine Yields.mono (hturn left state middle hkept) ?_ fun _ _ hcause => hcause.since hpast
  intro result after hafter
  rcases hafter with ⟨hmore, hresult⟩
  cases result <;> exact ⟨hpast.trans hmore, hresult⟩

end

end Act

/-!
# What the host never does
-/

namespace Host.Provides

variable {tree : BlockTree} {host : Host σ} {world after : World σ} {cause : Halt}
variable {track : Track} {block : Block} {direction : Direction} {more : List Entry}

theorem finds (hhost : host.Provides tree) (hblock : block ∈ tree) {answer : Except Halt Block}
    (hfinds : host.Finds (.byHash block.hash) answer) : answer = .ok block := by
  rcases hfinds with ⟨outside, hanswer⟩
  exact hanswer.symm.trans ((hhost.serves hblock).gives outside)

theorem missing (hhost : host.Provides tree) {height : UInt64}
    (hfinds : host.Finds (.byHeight height) (.error cause)) : cause.IsMissing := by
  rcases hfinds with ⟨outside, hanswer⟩
  exact hhost.byHeight height outside hanswer

theorem names (hhost : host.Provides tree) {answer : Except Halt BlockHash}
    (hnames : host.Names answer) : ∃ best ∈ tree, answer = .ok best.hash := by
  rcases hnames with ⟨outside, hanswer⟩
  rcases hhost.bestHash outside with ⟨best, hbest, hnamed⟩
  exact ⟨best, hbest, hanswer.symm.trans hnamed⟩

theorem takes (hhost : host.Provides tree) {edits : List Edit}
    (htakes : host.Takes edits (.error cause)) : False := by
  rcases htakes with ⟨outside, hanswer⟩
  cases hanswer.symm.trans (hhost.accept edits outside)

theorem declined (hhost : host.Provides tree)
    (h : host.Declines track block direction world cause more after) :
    Interrupted tree host world cause after := by
  cases h with
  | unread hreads =>
      rcases hreads with ⟨outside, hanswer⟩
      cases hanswer.symm.trans (hhost.outages outside)
  | unfit _ hedits hlast hpast => exact .hindered (.unfit hlast hpast hedits)

theorem hindered (hhost : host.Provides tree) {pointer : Pointer}
    (hpointer : Act.destination block direction = .ok pointer)
    (h : host.Hinders track block direction world cause more after) :
    Interrupted tree host world cause after := by
  cases h with
  | declined hdeclines => exact hhost.declined hdeclines
  | rootless _ hroot => cases hroot.symm.trans hpointer
  | refused _ htakes => exact (hhost.takes htakes).elim

theorem find_proceeds (hhost : host.Provides tree) {old new : Block} (hold : old ∈ tree)
    (hnew : new ∈ tree) :
    (Ancestry.find host old.hash new.hash).Proceeds tree host world fun _ _ => True := by
  have hcharts : ∀ block, tree.Below block old ∨ tree.Below block new → host.Charts block :=
    fun block hbelow => (hhost.serves (hbelow.elim (·.mem hold) (·.mem hnew))).charts
  rcases Ancestry.exists_found hold hnew hcharts hhost.patience with ⟨_, _, _, _, hfind⟩
  exact (hfind world).mono (fun _ _ hended => ⟨hended.1.past, trivial⟩)
    fun _ _ hnever => hnever.elim

end Host.Provides

/-!
# Switching branches
-/

section

variable {terms : Terms} {standing : Standing} {intake : Intake} {world after : World σ}
variable {host : Host σ} {track : Track}
variable (hhost : host.Supports terms)

namespace Stands

include hhost

theorem rewindHalt_interrupted (h : Stands terms standing intake world) {base low : Block}
    (hchild : terms.tree.Child low (standing.tip track)) {cause : Halt}
    (hhalt : Switching.RewindHalt host track base.hash world cause after) :
    Interrupted terms.tree host world cause after := by
  have htip := h.tip track
  cases hhalt with
  | bottom _ hzero =>
      rw [htip] at hzero
      exact absurd hzero hchild.height_ne_zero
  | stopped _ _ hwanted => exact .stopped hwanted
  | lost _ _ _ hfinds _ =>
      rw [htip] at hfinds
      cases hhost.provides.finds (h.tip_mem track) hfinds
  | hindered _ _ _ hfinds _ hhinders =>
      rw [htip] at hfinds
      cases hhost.provides.finds (h.tip_mem track) hfinds
      exact hhost.provides.hindered hchild.destination_undo hhinders

theorem rewindTurn_proceeds (h : Stands terms standing intake world) {base : Block}
    (habove : terms.tree.Below base (standing.tip track))
    (hserial : track = .concurrent → terms.tree.Below standing.serial base) (undone : Nat) :
    (Switching.rewindTurn host track base.hash undone).Proceeds terms.tree host world
      fun result after => result.Is
        (fun _ => ∃ low edits, terms.tree.Below base low ∧
          terms.tree.Child low (standing.tip track) ∧
          Stands terms (standing.after (track.off (standing.tip track) low) edits) intake after)
        fun _ => True := by
  have htip := h.tip track
  have hdown (hne : (world.frontier.tip track).hash ≠ base.hash) :
      ∃ low, terms.tree.Below base low ∧ terms.tree.Child low (standing.tip track) := by
    rw [htip] at hne
    exact habove.eq_or_down.resolve_left fun heq => hne (congrArg Block.hash heq.symm)
  refine (Switching.rewindTurn_yields host track base.hash undone world).mono ?_ ?_
  · intro result after hstep
    cases hstep with
    | arrived _ => exact ⟨List.suffix_refl _, trivial⟩
    | undone hne _ _ hfinds hstepped =>
        rcases hdown hne with ⟨low, hlow, hchild⟩
        rw [htip] at hfinds
        cases hhost.provides.finds (h.tip_mem track) hfinds
        rcases h.takenOff hhost.honours hchild (fun htrack => (hserial htrack).trans hlow)
          (by simp [Entry.IsQuiet]) hstepped with ⟨edits, hafter⟩
        exact ⟨hstepped.past, low, edits, hlow, hchild, hafter⟩
  · intro cause after hhalt
    rcases hdown hhalt.ne with ⟨low, _, hchild⟩
    exact h.rewindHalt_interrupted hhost hchild hhalt

theorem rewind_proceeds (h : Stands terms standing intake world) (track : Track) {base : Block}
    (habove : terms.tree.Below base (standing.tip track))
    (hserial : track = .concurrent → terms.tree.Below standing.serial base) :
    (Switching.rewind host track base.hash).Proceeds terms.tree host world
      fun _ after => ∃ last, Stands terms last intake after ∧
        standing.Shifts track .undo last ∧ last.tip track = base := by
  have hends : (Switching.rewind host track base.hash).Proceeds terms.tree host world
      fun _ _ => True := by
    refine Act.proceeds_turns (fun left _ world => ∃ next, Stands terms next intake world ∧
      terms.tree.Below base (next.tip track) ∧
      (track = .concurrent → terms.tree.Below next.serial base) ∧
      (next.tip track).height.toNat < left) ?_ ?_ ⟨standing, h, habove, hserial, ?_⟩
    · intro left undone world hkept
      rcases hkept with ⟨next, hnext, habove, hserial, hleft⟩
      refine (hnext.rewindTurn_proceeds hhost habove hserial undone).imp ?_
      intro result after hresult
      cases result with
      | done _ => trivial
      | again _ =>
          rcases hresult with ⟨low, edits, hlow, hchild, hafter⟩
          have htip := track.tip_after_off (next.tip track) low next edits
          refine ⟨_, hafter, ?_, ?_, ?_⟩
          · rw [htip]
            exact hlow
          · intro htrack
            subst htrack
            exact hserial rfl
          · have hheight := hchild.height
            rw [htip]
            omega
    · intro _ world hkept
      rcases hkept with ⟨next, _, _, _, hleft⟩
      exact Nat.not_lt_zero _ hleft
    · have hheight := UInt64.toNat_lt (standing.tip track).height
      have henough := hhost.provides.patience
      unfold Host.enough at henough
      omega
  exact (hends.and (h.rewind hhost.honours track habove hserial (absurd · hhost.loose))).imp
    fun _ _ hended => hended.2

theorem replayHalt_interrupted (h : Stands terms standing intake world) {block : Block}
    (hchild : terms.tree.Child (standing.tip track) block) {cause : Halt}
    (hhalt : Switching.ReplayHalt host track block.hash world cause after) :
    Interrupted terms.tree host world cause after := by
  cases hhalt with
  | stopped hwanted => exact .stopped hwanted
  | lost _ hfinds _ => cases hhost.provides.finds hchild.2.1 hfinds
  | apart _ hfinds hextends _ =>
      cases hhost.provides.finds hchild.2.1 hfinds
      rw [h.tip track] at hextends
      exact absurd (extends?_child hchild) hextends
  | hindered _ hfinds _ _ hhinders =>
      cases hhost.provides.finds hchild.2.1 hfinds
      exact hhost.provides.hindered rfl hhinders

theorem replayOne_proceeds (h : Stands terms standing intake world) {block : Block}
    (hchild : terms.tree.Child (standing.tip track) block)
    (hpassed : track = .serial → terms.tree.Below block standing.concurrent) :
    (Switching.replayOne host track block.hash).Proceeds terms.tree host world
      fun _ after => ∃ edits,
        Stands terms (standing.after (track.onto block) edits) intake after := by
  refine (Switching.replayOne_yields host track block.hash world).mono ?_
    fun _ _ hhalt => h.replayHalt_interrupted hhost hchild hhalt
  intro _ after hstep
  cases hstep with
  | applied _ hfinds _ hstepped =>
      cases hhost.provides.finds hchild.2.1 hfinds
      exact ⟨hstepped.past,
        h.placedOn hhost.honours hchild hpassed (by simp [Entry.IsQuiet]) hstepped⟩

theorem replay_proceeds (h : Stands terms standing intake world) (track : Track)
    {blocks : List Block} {high : Block}
    (hclimb : terms.tree.Climb (standing.tip track) blocks high)
    (hpassed : track = .serial → terms.tree.Below high standing.concurrent) :
    (Switching.replay host track (blocks.map Block.hash)).Proceeds terms.tree host world
      fun _ after => ∃ last, Stands terms last intake after ∧
        standing.Shifts track .apply last ∧ last.tip track = high := by
  have hends : (Switching.replay host track (blocks.map Block.hash)).Proceeds terms.tree host world
      fun _ _ => True := by
    refine (Switching.replay_of_steps (fun hashes now => world.course <:+ now.course ∧
      ∃ next rest, hashes = List.map Block.hash rest ∧ Stands terms next intake now ∧
        terms.tree.Climb (next.tip track) rest high ∧
        (track = .serial → terms.tree.Below high next.concurrent)) ?_
      ⟨List.suffix_refl _, standing, blocks, rfl, h, hclimb, hpassed⟩).imp
      fun _ _ hended => ⟨hended.1, trivial⟩
    rintro hash hashes now ⟨hpast, next, rest, hrest, hnext, hclimb, hpassed⟩
    rcases List.map_eq_cons_iff.mp hrest.symm with ⟨block, above, rfl, rfl, rfl⟩
    cases hclimb with
    | up hchild habove =>
        refine ((hnext.replayOne_proceeds hhost hchild fun htrack =>
          habove.isBelow.trans (hpassed htrack)).next hpast).imp ?_
        rintro _ after ⟨hafter, edits, hstands⟩
        have htip := track.tip_after_onto block next edits
        refine ⟨hafter, _, above, rfl, hstands, by rwa [htip], ?_⟩
        intro htrack
        subst htrack
        exact hpassed rfl
  exact (hends.and (h.replay hhost.honours track hclimb hpassed (absurd · hhost.loose)
    (absurd · hhost.loose))).imp fun _ _ hended => hended.2

theorem align_proceeds (h : Stands terms standing intake world) :
    (Switching.align host).Proceeds terms.tree host world
      fun _ after => ∃ last, Stands terms last intake after ∧ last.concurrent = last.serial := by
  have hserial := h.chronicle.serial_mem
  have hbelow := h.chronicle.order.2
  have hends : (Switching.align host).Proceeds terms.tree host world fun _ _ => True := by
    refine Switching.align_of_parts (fun _ => ⟨List.suffix_refl _, trivial⟩) fun _ => ?_
    rw [h.frontier]
    refine Act.Yields.imp ((hhost.provides.find_proceeds h.chronicle.order.1 hserial).and
      (h.find hhost.honours h.chronicle.order.1 (absurd · hhost.loose)
        (absurd · hhost.loose))) ?_
    rintro switch found ⟨hpast, _, hfound, high, hhigh, hhash, base, blocks, hjoins⟩
    have hsame := BlockTree.eq_of_hash_eq hhigh hserial hhash
    subst hsame
    rw [hjoins.eq_of_below hbelow]
    refine ((hfound.rewind_proceeds hhost .concurrent hbelow
      fun _ => BlockTree.Below.refl _).next hpast).imp ?_
    intro _ rewound hended
    exact ⟨hended.1, trivial⟩
  refine (hends.and (h.align hhost.honours (absurd · hhost.loose))).imp ?_
  intro _ after hended
  rcases hended with ⟨_, last, hlast, _, hlevel, _⟩
  exact ⟨last, hlast, hlevel⟩

theorem plan_proceeds (h : Stands terms standing intake world) (forkSeen : Bool) :
    (Switching.plan host forkSeen).Proceeds terms.tree host world
      fun found after => Stands terms standing intake after ∧
        ∀ switch ∈ found, ∃ high base blocks,
          switch.Joins terms.tree standing.serial high base blocks := by
  have hends : (Switching.plan host forkSeen).Proceeds terms.tree host world fun _ _ => True := by
    refine Switching.plan_of_parts ((Asks.refl host world).bestHash.mono ?_ ?_)
    · rintro best asked ⟨hasked, hnames⟩
      rcases hhost.provides.names hnames with ⟨high, hhigh, hbest⟩
      cases hbest
      have hfind {now : World σ} (hpast : world.course <:+ now.course) :
          (Ancestry.find host standing.serial.hash high.hash).Yields now
            (fun _ after => world.course <:+ after.course ∧ True)
            (Interrupted terms.tree host world) :=
        (hhost.provides.find_proceeds h.chronicle.serial_mem hhigh).next hpast
      rw [h.frontier]
      refine ⟨fun _ => ⟨hasked.past, trivial⟩, fun _ _ => hfind hasked.past, fun _ _ => ?_⟩
      refine (hasked.hashAt _).mono ?_ ?_
      · rintro found looked ⟨answer, _, hlooked, _⟩
        exact ⟨fun _ => ⟨hlooked.past, trivial⟩, fun _ => hfind hlooked.past⟩
      · rintro cause after ⟨hother, _, hfinds⟩
        exact absurd (hhost.provides.missing hfinds) hother
    · rintro cause after ⟨_, hnames⟩
      rcases hhost.provides.names hnames with ⟨_, _, hanswer⟩
      cases hanswer
  refine (hends.and (h.plan hhost.honours forkSeen (absurd · hhost.loose))).imp ?_
  intro found after hended
  rcases hended with ⟨_, hafter, hfound⟩
  refine ⟨hafter, ?_⟩
  intro switch hswitch
  cases hswitch
  rcases hfound.2 with ⟨high, _, _, base, blocks, hjoins⟩
  exact ⟨high, base, blocks, hjoins⟩

theorem carryOut_proceeds (h : Stands terms standing intake world)
    (hlevel : standing.concurrent = standing.serial) {switch : Switch} {high base : Block}
    {blocks : List Block} (hjoins : switch.Joins terms.tree standing.serial high base blocks) :
    (Switching.carryOut host switch).Proceeds terms.tree host world
      fun _ after => ∃ last, Stands terms last intake after ∧ last.concurrent = last.serial := by
  refine Switching.carryOut_of_parts ?_
  rw [hjoins.ancestor, hjoins.chain]
  refine (((h.begun switch).rewind_proceeds hhost .serial hjoins.below (by simp)).next
    (Switching.past_begun switch world)).imp ?_
  rintro _ _ ⟨hpast₁, first, hfirst, hshifts₁, hserial₁⟩
  have hconcurrent₁ : first.tip .concurrent = standing.serial :=
    (hshifts₁.other .concurrent (by decide)).trans hlevel
  refine ((hfirst.rewind_proceeds hhost .concurrent (hconcurrent₁ ▸ hjoins.below)
    fun _ => hserial₁ ▸ BlockTree.Below.refl _).next hpast₁).imp ?_
  rintro _ _ ⟨hpast₂, second, hsecond, hshifts₂, hconcurrent₂⟩
  have hserial₂ : second.tip .serial = base :=
    (hshifts₂.other .serial (by decide)).trans hserial₁
  refine ((hsecond.replay_proceeds hhost .concurrent (hconcurrent₂ ▸ hjoins.climb)
    (by simp)).next hpast₂).imp ?_
  rintro _ _ ⟨hpast₃, third, hthird, hshifts₃, hconcurrent₃⟩
  have hserial₃ : third.tip .serial = base :=
    (hshifts₃.other .serial (by decide)).trans hserial₂
  refine ((hthird.replay_proceeds hhost .serial (hserial₃ ▸ hjoins.climb)
    fun _ => hconcurrent₃ ▸ BlockTree.Below.refl _).next hpast₃).imp ?_
  rintro _ _ ⟨hpast₄, last, hlast, hshifts₄, hserial₄⟩
  refine ⟨hpast₄, last, hlast, ?_⟩
  exact ((hshifts₄.other .concurrent (by decide)).trans hconcurrent₃).trans hserial₄.symm

theorem switchIfNeeded_proceeds (h : Stands terms standing intake world)
    (hlevel : standing.concurrent = standing.serial) (forkSeen : Bool) :
    (Following.switchIfNeeded host forkSeen).Proceeds terms.tree host world
      fun _ after => ∃ last, Stands terms last intake after ∧ last.concurrent = last.serial := by
  refine Following.switchIfNeeded_of_parts (Act.Yields.imp (h.plan_proceeds hhost forkSeen) ?_)
  rintro found planned ⟨hpast, hplanned, hfound⟩
  cases found with
  | none => exact ⟨hpast, standing, hplanned, hlevel⟩
  | some switch =>
      rcases hfound switch rfl with ⟨high, base, blocks, hjoins⟩
      exact ((hplanned.setOut switch).carryOut_proceeds hhost hlevel hjoins).next
        (hpast.trans (Following.past_setOut switch planned))

end Stands

end

end ChainIndex
