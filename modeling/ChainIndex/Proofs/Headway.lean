import ChainIndex.Proofs.Interruptions
import ChainIndex.Proofs.Stages

/-!
# Headway

With a host that provides a tree, forward sync comes to an end even if the best chain is
another one at every turn.  What is left to do is counted up to the highest of all heights, so
that it does not depend on where the best chain leads: each stage of a turn that does anything
lowers it, and a turn in which no stage does anything is the last.
-/

namespace ChainIndex

/-- The block, were it at the highest of all heights. -/
def Block.raised (block : Block) : Block :=
  { block with header := { block.header with height := 0 - 1 } }

theorem Block.height_raised (block : Block) : block.raised.height.toNat + 1 = UInt64.size :=
  rfl

/-!
# Fetching
-/

section

variable {terms : Terms} {start goal top high : Block} {standing : Standing}
variable {intake kept : Intake} {world after : World σ} {host : Host σ}

namespace Forward

theorem work_lt_of_exhausted (hblocks : kept.inFlight = intake.inFlight)
    (hgrouped : kept.grouped = intake.grouped) (hheight : high.height.toNat = top.height.toNat)
    (hopen : intake.exhausted = false) (hrest : kept.exhausted = true) :
    work goal high kept < work goal top intake := by
  unfold work pending
  rw [hblocks, hgrouped, hheight, hopen, hrest, if_pos rfl, if_neg Bool.false_ne_true]
  exact Nat.lt_succ_self _

theorem FetchStep.work_lt {asked : List Entry} (h : FetchStep host intake asked kept)
    (hgoal : goal.height.toNat + 1 = UInt64.size)
    (hflight : Flight terms start goal standing intake top)
    (hkept : Flight terms start goal standing kept high) :
    (kept = intake ∧ high = top ∧ isStalled intake = true) ∨
      work goal high kept < work goal top intake := by
  have hcounted := hflight.counted
  have hbefore := hflight.next
  have hafter := hkept.next
  have hheight {next : Nat} (hbefore : next = top.height.toNat + 1)
      (hafter : next = high.height.toNat + 1) : high.height.toNat = top.height.toNat :=
    Nat.succ.inj (hafter.symm.trans hbefore)
  cases h with
  | stalled hstalled => exact Or.inl ⟨rfl, hkept.climb.high_unique hflight.climb, hstalled⟩
  | taken hopen _ _ _ _ hnext =>
      have habove := toNat_heightAbove? hnext
      have hroom := UInt64.toNat_lt_size high.height
      refine Or.inr ?_
      unfold work pending
      simp only [List.length_append, List.length_singleton]
      simp only at hafter
      omega
  | caughtUp hopen _ =>
      exact Or.inr (work_lt_of_exhausted rfl rfl (hheight hbefore hafter)
        (exhausted_of_not_stalled hopen) rfl)
  | missing hopen _ _ _ _ =>
      exact Or.inr (work_lt_of_exhausted rfl rfl (hheight hbefore hafter)
        (exhausted_of_not_stalled hopen) rfl)
  | apart hopen _ _ _ _ =>
      exact Or.inr (work_lt_of_exhausted rfl rfl (hheight hbefore hafter)
        (exhausted_of_not_stalled hopen) rfl)

end Forward

theorem Flight.newest (h : Flight terms start goal standing intake top) :
    (intake.inFlight.getLast?.map Block.pointer).getD standing.serial.pointer = top.pointer := by
  have hclimb := h.climb
  cases hblocks : intake.inFlight with
  | nil =>
      rw [hblocks] at hclimb
      rw [hclimb.eq_nil]
      rfl
  | cons block rest =>
      rw [← hblocks, hclimb.getLast?_eq (by rw [hblocks]; exact List.cons_ne_nil _ _)]
      rfl

variable (hhost : host.Supports terms)
include hhost

theorem Stands.fetchHalt_interrupted (h : Stands terms standing intake world)
    (hflight : Flight terms start goal standing intake top) {asked : List Entry} {cause : Halt}
    (hhalt : Forward.FetchHalt host intake cause asked kept)
    (hasks : Asks host asked { world with intake := kept } after) :
    Interrupted terms.tree host world cause after := by
  cases hhalt with
  | unnamed hnames =>
      rcases hhost.provides.names hnames with ⟨_, _, hanswer⟩
      cases hanswer
  | lost _ _ _ hfinds hother => exact absurd (hhost.provides.missing hfinds) hother
  | @overflow block best left _ _ _ _ hoffers hparent htop =>
      have hnewest : after.newest = top.pointer := by
        rw [World.newest, hasks.frontier, hasks.intake]
        show (intake.inFlight.getLast?.map Block.pointer).getD (world.frontier.tip .serial) = _
        rw [h.tip .serial]
        exact hflight.newest
      refine .hindered (.summit ⟨block, hoffers.mem hhost.provides.agrees h.announced, ?_,
        Or.inr ?_⟩)
      · rw [hoffers.height hhost.provides.agrees]
        exact htop
      · rw [hparent, hnewest, hflight.last]
        rfl

theorem Stands.fetchStage_proceeds (h : Stands terms standing intake world)
    (hgoal : goal.height.toNat + 1 = UInt64.size)
    (hflight : Flight terms start goal standing intake top) :
    (Forward.fetchStage host).Proceeds terms.tree host world
      fun _ after => ∃ kept high, Stands terms standing kept after ∧
        Flight terms start goal standing kept high ∧
          ((kept = intake ∧ high = top ∧ Forward.isStalled intake = true) ∨
            Forward.work goal high kept < Forward.work goal top intake) := by
  refine ((Forward.fetchStage_yields host world).and (h.fetchStage hhost.honours hflight)).mono
    ?_ ?_
  · rintro _ after ⟨⟨asked, kept, hstep, hasks⟩, next, high, hafter, hnext, _⟩
    have hsame : kept = next := hasks.intake.symm.trans hafter.memory
    subst hsame
    rw [h.memory] at hstep
    exact ⟨hasks.past, kept, high, hafter, hnext, hstep.work_lt hgoal hflight hnext⟩
  · rintro cause after ⟨⟨_, asked, kept, hhalt, hasks⟩, _⟩
    rw [h.memory] at hhalt
    exact h.fetchHalt_interrupted hhost hflight hhalt hasks

end

/-!
# Committing
-/

section

variable {tree : BlockTree} {world after : World σ} {host : Host σ}

namespace Forward

theorem GroupStep.past (h : GroupStep host world after) : world.course <:+ after.course := by
  cases h with
  | idle _ => exact List.suffix_refl _
  | grouped _ _ _ _ hasks => exact hasks.past.trans (List.suffix_cons _ _)

theorem SerialStep.past (h : SerialStep host world after) : world.course <:+ after.course := by
  cases h with
  | idle _ => exact List.suffix_refl _
  | committed _ hstepped => exact hstepped.past.trans (List.suffix_cons _ _)

theorem GroupHalt.interrupted (hhost : host.Provides tree) {cause : Halt}
    (h : GroupHalt host world cause after) : Interrupted tree host world cause after := by
  cases h with
  | declined _ hdeclines _ _ => exact hhost.declined hdeclines
  | refused htakes _ _ => exact (hhost.takes htakes).elim

theorem SerialHalt.interrupted (hhost : host.Provides tree) {cause : Halt}
    (h : SerialHalt host world cause after) : Interrupted tree host world cause after := by
  cases h with
  | hindered _ hhinders _ => exact hhost.hindered rfl hhinders

theorem groupStage_proceeds (hhost : host.Provides tree) :
    (groupStage host).Proceeds tree host world fun _ _ => True :=
  (groupStage_yields host world).mono (fun _ _ hstep => ⟨hstep.past, trivial⟩)
    fun _ _ hhalt => hhalt.interrupted hhost

theorem serialStage_proceeds (hhost : host.Provides tree) :
    (serialStage host).Proceeds tree host world fun _ _ => True :=
  (serialStage_yields host world).mono (fun _ _ hstep => ⟨hstep.past, trivial⟩)
    fun _ _ hhalt => hhalt.interrupted hhost

end Forward

end

/-!
# The run
-/

def Forward.Outcome.TellsOf (outcome : Forward.Outcome) (world : World σ) : Prop :=
  match outcome with
  | .synced tip => tip = world.frontier.serial ∧
      ∃ past, world.course = .emitted (.synced tip.height) :: past
  | .forked _ => True
  | .stopped tip => tip = world.frontier.serial

theorem Forward.Finishes.tells {world after : World σ} {outcome : Outcome}
    (h : Finishes world outcome after) : outcome.TellsOf after := by
  cases h with
  | forked _ => trivial
  | synced _ => exact ⟨rfl, world.course, rfl⟩

theorem Forward.Finishes.past {world after : World σ} {outcome : Outcome}
    (h : Finishes world outcome after) : world.course <:+ after.course := by
  cases h with
  | forked _ => exact List.suffix_refl _
  | synced _ => exact List.suffix_cons _ _

section

variable {terms : Terms} {start goal top : Block} {standing : Standing} {intake : Intake}
variable {world : World σ} {host : Host σ}
variable (hhost : host.Supports terms)

namespace Stands

include hhost

theorem forwardTurn_proceeds {left : Nat} (h : Stands terms standing intake world)
    (hgoal : goal.height.toNat + 1 = UInt64.size)
    (hflight : Flight terms start goal standing intake top)
    (hover : Forward.isOver intake = false) (hleft : Forward.work goal top intake < left + 1) :
    (Forward.turn host ()).Proceeds terms.tree host world
      fun result after => result.Is
        (fun _ => ∃ next kept high, Stands terms next kept after ∧
          Flight terms start goal next kept high ∧ Forward.isOver kept = false ∧
            Forward.work goal high kept < left)
        (Forward.Outcome.TellsOf · after) := by
  refine Forward.turn_of_stages (fun _ => ⟨List.suffix_refl _, rfl⟩) fun _ => ?_
  refine Act.Yields.imp (h.fetchStage_proceeds hhost hgoal hflight) ?_
  rintro _ world₁ ⟨hpast₁, intake₁, high, hstands₁, hflight₁, hfetch⟩
  refine (((Forward.groupStage_proceeds hhost.provides).and
    (hstands₁.groupStage hhost.honours hflight₁)).next hpast₁).imp ?_
  rintro _ world₂ ⟨hpast₂, _, standing₂, intake₂, hstands₂, hflight₂, hgroup⟩
  refine (((Forward.serialStage_proceeds hhost.provides).and
    (hstands₂.serialStage hhost.honours hflight₂ (absurd · hhost.loose))).next hpast₂).imp ?_
  rintro _ world₃ ⟨hpast₃, _, standing₃, intake₃, hstands₃, hflight₃, hserial⟩
  rw [hstands₃.memory]
  refine ⟨fun hdone => ⟨hpast₃, standing₃, intake₃, high, hstands₃, hflight₃, hdone, ?_⟩,
    fun _ _ _ hfinishes => ⟨hpast₃.trans hfinishes.past, hfinishes.tells⟩⟩
  have hless := hflight.work_lt h.highWater hover hfetch hgroup hserial
  omega

theorem forward_proceeds (h : Stands terms standing intake world)
    (hlevel : standing.concurrent = standing.serial) :
    (Forward.run host).Proceeds terms.tree host world Forward.Outcome.TellsOf := by
  have hserial : world.frontier.serial = standing.serial.pointer := h.tip .serial
  refine Forward.run_of_turns ?_ ?_ fun next _ habove => ?_
  · intro hapart
    rw [h.frontier] at hapart
    exact absurd (h.pointers_eq_iff.mpr hlevel) hapart
  · intro _ habove
    rw [hserial] at habove
    exact .hindered (.summit ⟨standing.serial, h.chronicle.serial_mem, habove, Or.inl hserial⟩)
  rw [hserial] at habove
  rw [hserial, h.memory]
  have hready := h.remember (Forward.reset intake standing.serial.pointer next) rfl rfl h.announced
  -- Any block serves as the goal, as long as no height is left above it.
  refine (Act.proceeds_turns
    (fun left _ world => ∃ standing intake top, Stands terms standing intake world ∧
      Flight terms terms.best terms.best.raised standing intake top ∧
        Forward.isOver intake = false ∧ Forward.work terms.best.raised top intake < left)
    ?_ ?_ ⟨standing, _, standing.serial, hready,
      .begin hlevel habove (absurd · hhost.loose), rfl, ?_⟩).next (List.suffix_refl _)
  · intro left _ world hkept
    rcases hkept with ⟨standing, intake, top, hstands, hflight, hover, hleft⟩
    exact hstands.forwardTurn_proceeds hhost terms.best.height_raised hflight hover hleft
  · intro _ world hkept
    rcases hkept with ⟨_, _, _, _, _, _, hleft⟩
    exact Nat.not_lt_zero _ hleft
  · exact Nat.lt_of_lt_of_le (Forward.work_reset_lt _ _ _ _ _) hhost.provides.patience

end Stands

end

end ChainIndex
