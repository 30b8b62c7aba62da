import ChainIndex.Proofs.Replays
import ChainIndex.Proofs.Serving

/-!
# Durable tips

A commit offers the table a batch and moves a tip in memory when the batch has landed.  The
table then records the tips that are in memory, whatever the pointers are and however often
the table has refused a batch: an indexer that is opened on it later begins where this one is.
-/

namespace ChainIndex

def SparesTips (own : List Edit) : Prop :=
  ∀ edit ∈ own, ∀ track, edit.key ≠ Frontier.key track

/-!
# One commit
-/

namespace World

structure Moved (world : World σ) (track : Track) (own : List Edit) (pointer : Pointer)
    (after : World σ) : Prop where
  table : after.table = world.table.commit (own ++ [Frontier.edit track pointer])
  frontier : after.frontier = world.frontier.move track pointer

structure Unmoved (world after : World σ) : Prop where
  table : after.table = world.table
  frontier : after.frontier = world.frontier

end World

theorem Act.commit_yields (host : Host σ) (track : Track) (own : List Edit) (pointer : Pointer)
    (world : World σ) :
    (commit host track own pointer).Yields world
      (fun _ after => (host.accept (own ++ [Frontier.edit track pointer]) world.outside).answer =
        .ok () ∧ world.Moved track own pointer after)
      (fun cause after => (host.accept (own ++ [Frontier.edit track pointer])
        world.outside).answer = .error cause ∧ world.Unmoved after) := by
  refine ((Asks.refl host world).commit track own pointer).mono ?_ ?_
  · rintro _ after ⟨hanswer, heard, hheard, rfl⟩
    refine ⟨hanswer, congrArg (Table.commit · _) hheard.table, ?_⟩
    exact congrArg (Frontier.move · track pointer) hheard.frontier
  · rintro cause after ⟨hanswer, hasks⟩
    exact ⟨hanswer, hasks.table, hasks.frontier⟩

/-!
# Any number of commits
-/

/-- Any number of commits have been tried, on tables that may have refused any of them, since
the tracks began at the genesis with no tip recorded. -/
inductive Recommitted (genesis : Pointer) : World σ → Prop where
  | begin {world : World σ} : world.frontier = .level genesis →
      (∀ track, world.table.get? (Frontier.key track) = none) → Recommitted genesis world
  | tried {world : World σ} (host : Host σ) (track : Track) {own : List Edit} (pointer : Pointer) :
      Recommitted genesis world → SparesTips own →
      Recommitted genesis ((Act.commit host track own pointer).perform world).2

section

variable {genesis : Pointer} {world after : World σ} {track : Track} {own : List Edit}
variable {pointer : Pointer}

def World.Durable (genesis : Pointer) (world : World σ) : Prop :=
  Frontier.load (.clear world.table) genesis = .ok world.frontier

namespace World

theorem Durable.begin (hfrontier : world.frontier = .level genesis)
    (habsent : ∀ track, world.table.get? (Frontier.key track) = none) : world.Durable genesis := by
  refine Frontier.load_clear_iff.mpr fun track => ⟨none, ?_, ?_⟩
  · exact Frontier.recorded_of_absent rfl (habsent track)
  · rw [hfrontier, Frontier.tip_level]
    rfl

theorem Durable.moved (h : world.Durable genesis) (hspares : SparesTips own)
    (hmoved : world.Moved track own pointer after) : after.Durable genesis := by
  unfold Durable
  rw [hmoved.table, hmoved.frontier]
  exact Frontier.load_commit h hspares track pointer

theorem Durable.unmoved (h : world.Durable genesis) (hunmoved : world.Unmoved after) :
    after.Durable genesis := by
  unfold Durable
  rw [hunmoved.table, hunmoved.frontier]
  exact h

end World

/-- Whatever the table answers, a commit leaves tips that are durable. -/
theorem Act.commit_preserves_durable (host : Host σ) (track : Track) (hspares : SparesTips own)
    (pointer : Pointer) : (commit host track own pointer).Preserves (World.Durable genesis) := by
  intro world hdurable
  refine (commit_yields host track own pointer world).mono ?_ ?_
  · rintro _ after ⟨_, hmoved⟩
    exact hdurable.moved hspares hmoved
  · rintro _ after ⟨_, hunmoved⟩
    exact hdurable.unmoved hunmoved

theorem Recommitted.durable (h : Recommitted genesis world) : world.Durable genesis := by
  induction h with
  | begin hfrontier habsent => exact .begin hfrontier habsent
  | tried host track pointer _ hspares ih =>
      exact (Act.commit_preserves_durable host track hspares pointer _ ih).left

end

/-- After any number of commits, of which the table may have refused any, the tips that would be
read from the table are those in memory.  The next commit ends as the table answers: it moves
the tip of its own track and nothing else, or it leaves the tips and the table as they are. -/
theorem recorded_tips_are_current {genesis : Pointer} {world : World σ}
    (h : Recommitted genesis world) :
    Frontier.load (.clear world.table) genesis = .ok world.frontier ∧
    ∀ (host : Host σ) (track : Track) (own : List Edit) (pointer : Pointer), SparesTips own →
      ∃ result after, (Act.commit host track own pointer).perform world = (result, after) ∧
        result = (host.accept (own ++ [Frontier.edit track pointer]) world.outside).answer ∧
        Frontier.load (.clear after.table) genesis = .ok after.frontier ∧
        (∀ other, other ≠ track → after.frontier.tip other = world.frontier.tip other) ∧
        (result = .ok () → after.frontier.tip track = pointer ∧
          after.table = world.table.commit (own ++ [Frontier.edit track pointer])) ∧
        ∀ cause, result = .error cause →
          after.frontier = world.frontier ∧ after.table = world.table := by
  refine ⟨h.durable, fun host track own pointer hspares => ?_⟩
  have hyields := Act.commit_yields host track own pointer world
  unfold Act.Yields at hyields
  generalize (Act.commit host track own pointer).perform world = outcome at hyields ⊢
  rcases outcome with ⟨result, after⟩
  refine ⟨result, after, rfl, ?_⟩
  cases result with
  | ok _ =>
      rcases hyields with ⟨hanswer, hmoved⟩
      refine ⟨hanswer.symm, h.durable.moved hspares hmoved, ?_, ?_, ?_⟩
      · intro other hother
        rw [hmoved.frontier, Frontier.tip_move_other _ hother]
      · intro _
        rw [hmoved.frontier, Frontier.tip_move_same]
        exact ⟨rfl, hmoved.table⟩
      · intro cause hcause
        cases hcause
  | error cause =>
      rcases hyields with ⟨hanswer, hunmoved⟩
      refine ⟨hanswer.symm, h.durable.unmoved hunmoved, ?_, ?_, ?_⟩
      · intro other _
        rw [hunmoved.frontier]
      · intro hok
        cases hok
      · intro _ _
        exact ⟨hunmoved.frontier, hunmoved.table⟩

namespace Sample

def refusing : Host Unit :=
  { host with accept := fun _ _ => ⟨.error (.fault (.storage "refused")), (), []⟩ }

/-- A pointer whose hash needs every kind of escape, at the greatest height. -/
def odd : Pointer := ⟨"\"\\\n\u0001\u00e9", 18446744073709551615⟩

def tagged : List Edit := [.put (Bytes.ofText "tag") (Bytes.ofText "1")]

def accepted : World Unit := ((Act.commit host .concurrent tagged odd).perform blank).2

def retried : World Unit := ((Act.commit refusing .serial tagged odd).perform accepted).2

theorem sparesTips_tagged : SparesTips tagged := by
  intro edit hedit track
  rw [List.mem_singleton.mp hedit]
  cases track <;> decide

theorem recommitted : Recommitted genesis.pointer retried :=
  .tried refusing .serial odd
    (.tried host .concurrent odd (.begin rfl fun _ => rfl) sparesTips_tagged) sparesTips_tagged

end Sample

/-- A batch that landed, one that was refused, and a third that lands. -/
theorem recorded_tips_are_current_of_sample :
    Recommitted Sample.genesis.pointer Sample.retried ∧ SparesTips Sample.tagged ∧
    Frontier.load (.clear Sample.retried.table) Sample.genesis.pointer =
      .ok ⟨Sample.odd, Sample.genesis.pointer⟩ ∧
    ∃ after, (Act.commit Sample.host .serial Sample.tagged Sample.odd).perform Sample.retried =
        (.ok (), after) ∧
      Frontier.load (.clear after.table) Sample.genesis.pointer = .ok ⟨Sample.odd, Sample.odd⟩ := by
  rcases recorded_tips_are_current Sample.recommitted with ⟨hload, hnext⟩
  rcases hnext Sample.host .serial Sample.tagged Sample.odd Sample.sparesTips_tagged with
    ⟨result, after, hperform, hresult, hdurable, hother, hlands, _⟩
  have hok : result = .ok () := hresult
  subst hok
  refine ⟨Sample.recommitted, Sample.sparesTips_tagged, hload, after, hperform, ?_⟩
  rw [hdurable]
  have hserial : after.frontier.serial = Sample.odd := (hlands rfl).1
  have hconcurrent : after.frontier.concurrent = Sample.odd := hother .concurrent (by decide)
  rcases hfrontier : after.frontier with ⟨concurrent, serial⟩
  rw [hfrontier] at hserial hconcurrent
  exact congrArg Except.ok (congr (congrArg Frontier.mk hconcurrent) hserial)

end ChainIndex
