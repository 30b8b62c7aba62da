import ChainIndex.Proofs.Serving

/-!
# The order of the tracks

At every moment of every history, the tips that the table records are those of two
blocks of the tree, the serial one below the concurrent one.  The order is one of
ancestry: that of the heights follows from it.  So when the tracks are to be aligned
there is never anything to replay, and all that is ever committed is that the
concurrent tip goes down to its parent.
-/

namespace ChainIndex

/-!
# Landed batches
-/

def Entry.lands : Entry → Bool
  | .batch _ (.ok ()) => true
  | _ => false

theorem Entry.IsQuiet.lands_eq {entry : Entry} (h : entry.IsQuiet) : entry.lands = false := by
  cases entry with
  | batch edits answer =>
      cases answer with
      | ok _ => exact h.elim
      | error _ => rfl
  | _ => rfl

def Records (tree : BlockTree) (catalogue : Catalogue) (move : Move) (edits : List Edit) : Prop :=
  ∃ before own, move.IsLawful tree before ∧
    Gathered catalogue before.table move.track move.direction move.blocks own ∧
      edits = Standing.batch move own

namespace Chronicle

variable {tree : BlockTree} {catalogue : Catalogue} {course : List Entry} {standing : Standing}

theorem length_moves (h : Chronicle tree catalogue course standing) :
    standing.moves.length = course.countP Entry.lands := by
  induction h with
  | blank => rfl
  | @next entry past before after _ hstep ih =>
      cases hstep with
      | quiet hquiet _ =>
          rw [List.countP_cons, hquiet.lands_eq]
          exact ih
      | consulted _ _ _ => exact ih
      | moved _ _ _ =>
          rw [List.countP_cons, ← ih]
          rfl
      | told _ => exact ih

/-- What a lawful course has added is a number of moves, and each batch that has landed
since is that of one of them. -/
theorem added {added past : List Entry} (h : Chronicle tree catalogue (added ++ past) standing) :
    ∃ first, Chronicle tree catalogue past first ∧ ∃ made : List Move,
      standing.moves = made ++ first.moves ∧
        ∀ edits, .batch edits (.ok ()) ∈ added → ∃ move ∈ made,
          Records tree catalogue move edits := by
  induction added generalizing standing with
  | nil =>
      refine ⟨standing, h, [], rfl, ?_⟩
      intro edits hedits
      cases hedits
  | cons entry rest ih =>
      cases h with
      | @next _ _ before _ hbefore hstep =>
          rcases ih hbefore with ⟨first, hfirst, made, hmoves, hmade⟩
          refine ⟨first, hfirst, ?_⟩
          have hsame (hentry : ∀ edits, entry ≠ .batch edits (.ok ())) :
              ∀ edits, .batch edits (.ok ()) ∈ entry :: rest →
                ∃ move ∈ made, Records tree catalogue move edits := by
            intro edits hedits
            rcases List.mem_cons.mp hedits with heq | hlater
            · exact absurd heq.symm (hentry edits)
            · exact hmade edits hlater
          cases hstep with
          | quiet hquiet _ =>
              refine ⟨made, hmoves, hsame ?_⟩
              intro edits heq
              subst heq
              exact hquiet.elim
          | consulted _ _ _ => exact ⟨made, hmoves, hsame (by simp)⟩
          | told _ => exact ⟨made, hmoves, hsame (by simp)⟩
          | @moved move own hlawful hown _ =>
              refine ⟨move :: made, congrArg (move :: ·) hmoves, ?_⟩
              intro edits hedits
              rcases List.mem_cons.mp hedits with heq | hlater
              · cases heq
                exact ⟨move, List.mem_cons_self, before, own, hlawful, hown, rfl⟩
              · rcases hmade edits hlater with ⟨move, hmove, hrecords⟩
                exact ⟨move, List.mem_cons_of_mem _ hmove, hrecords⟩

theorem tips_in_order (hspares : catalogue.SparesTips)
    (h : Chronicle tree catalogue course standing) :
    ∃ concurrent ∈ tree, ∃ serial ∈ tree,
      Frontier.load (.clear (Table.replayed course)) tree.genesis.pointer =
        .ok ⟨concurrent.pointer, serial.pointer⟩ ∧
      tree.Below serial concurrent ∧ serial.height ≤ concurrent.height := by
  refine ⟨standing.concurrent, h.order.1, standing.serial, h.serial_mem, ?_, h.order.2, ?_⟩
  · rw [← h.table_eq]
    exact h.load_clear hspares
  · rw [UInt64.le_iff_toNat_le]
    exact h.order.2.height_le

end Chronicle

/-!
# Aligned tracks
-/

/-- The batch takes a block off the concurrent track and records its parent as the tip. -/
def TakesOff (tree : BlockTree) (catalogue : Catalogue) (edits : List Edit) : Prop :=
  ∃ low block view own, tree.Child low block ∧
    catalogue.edits .concurrent block .undo view = .ok own ∧
      edits = own ++ [Frontier.edit .concurrent low.pointer]

theorem Records.takesOff {tree : BlockTree} {catalogue : Catalogue} {move : Move}
    {edits : List Edit} (h : Records tree catalogue move edits)
    (htrack : move.track = .concurrent) (hdirection : move.direction = .undo) :
    TakesOff tree catalogue edits := by
  rcases h with ⟨before, own, hlawful, hown, rfl⟩
  cases move with
  | shrink block low =>
      rcases hlawful with ⟨_, hchild, _⟩
      cases hown with
      | more hfirst hrest =>
          cases hrest
          refine ⟨low, block, _, _, hchild, hfirst, ?_⟩
          rw [List.append_nil]
          rfl
  | grow blocks high => cases hdirection
  | rise high => cases htrack
  | fall block low => cases htrack

/-- How aligning comes out, from where the tips were. -/
structure AlignsDown (tree : BlockTree) (catalogue : Catalogue) (world after : World σ)
    (result : Except Halt (Option Switch)) : Prop where
  /-- Whatever is committed takes a block off the concurrent track. -/
  batches : ∃ added, after.course = added ++ world.course ∧
    ∀ edits, .batch edits (.ok ()) ∈ added → TakesOff tree catalogue edits
  serial : after.frontier.serial = world.frontier.serial
  level : ∀ found, result = .ok found → after.frontier.concurrent = world.frontier.serial
  /-- The switch that is carried out leads down to the serial tip and no further. -/
  nothing : ∀ switch, result = .ok (some switch) →
    switch.ancestor = world.frontier.serial.hash ∧ switch.chain = []

theorem Stands.alignsDown {tree : BlockTree} {catalogue : Catalogue} {standing : Standing}
    {intake : Intake} {world : World σ} {host : Host σ}
    (h : Stands (.loose tree catalogue) standing intake world) (hhost : host.Agrees tree)
    (hcatalogue : host.catalogue = catalogue) :
    AlignsDown tree catalogue world ((Switching.align host).perform world).2
      ((Switching.align host).perform world).1 := by
  have hyields := h.align (hhost.honours hcatalogue) False.elim
  have hextends := ((Switching.keeps_past host world.course).align (List.suffix_refl _)).left
  unfold Act.Yields at hyields
  rcases hperform : (Switching.align host).perform world with ⟨result, after⟩
  rw [hperform] at hyields hextends
  have hmoved : ∃ last, Stands (.loose tree catalogue) last intake after ∧
      standing.Shifts .concurrent .undo last := by
    cases result with
    | ok found =>
        rcases hyields with ⟨last, hlast, hshifts, _⟩
        exact ⟨last, hlast, hshifts⟩
    | error cause =>
        rcases hyields with ⟨_, last, hlast, hshifts⟩
        exact ⟨last, hlast, hshifts⟩
  constructor
  · rcases hextends with ⟨added, hadded⟩
    refine ⟨added, hadded.symm, ?_⟩
    rcases hmoved with ⟨last, hlast, hshifts⟩
    have hchronicle := hlast.chronicle
    rw [← show added ++ world.course = after.course from hadded] at hchronicle
    rcases hchronicle.added with ⟨first, hfirst, made, hmoves, hmade⟩
    rcases hshifts.moves with ⟨undone, hundone, hdirection⟩
    have hlength : first.moves.length = standing.moves.length := by
      rw [hfirst.length_moves, h.chronicle.length_moves]
    have hsame : made = undone :=
      (List.append_inj' (hmoves.symm.trans hundone) hlength).1
    intro edits hedits
    rcases hmade edits hedits with ⟨move, hmove, hrecords⟩
    rw [hsame] at hmove
    exact hrecords.takesOff (hdirection move hmove).1 (hdirection move hmove).2
  · rcases hmoved with ⟨last, hlast, hshifts⟩
    show after.frontier.serial = _
    rw [hlast.frontier, h.frontier]
    exact congrArg Block.pointer (hshifts.other .serial (by decide))
  · intro found hfound
    cases hfound
    rcases hyields with ⟨last, hlast, hshifts, hlevel, _⟩
    show after.frontier.concurrent = _
    rw [hlast.frontier, h.frontier]
    exact congrArg Block.pointer (hlevel.trans (hshifts.other .serial (by decide)))
  · intro switch hfound
    cases hfound
    rcases hyields with ⟨last, hlast, hshifts, _, hswitch⟩
    rw [hswitch switch rfl, h.frontier]
    exact ⟨rfl, rfl⟩

/-- At every moment of a history the serial tip's block is the concurrent tip's block or
an ancestor of it, and aligning the tracks takes blocks off the concurrent track until
it is at the serial tip. -/
theorem serial_tip_below_concurrent_tip {tree : BlockTree} {catalogue : Catalogue}
    {world : World σ} (hspares : catalogue.SparesTips) (h : Reached tree catalogue world) :
    (∀ past, past <:+ world.course → ∃ concurrent ∈ tree, ∃ serial ∈ tree,
      Frontier.load (.clear (Table.replayed past)) tree.genesis.pointer =
        .ok ⟨concurrent.pointer, serial.pointer⟩ ∧
      tree.Below serial concurrent ∧ serial.height ≤ concurrent.height) ∧
    world.table = Table.replayed world.course ∧
    Frontier.load (.clear world.table) tree.genesis.pointer = .ok world.frontier ∧
    ∀ host : Host σ, host.Agrees tree → host.catalogue = catalogue →
      AlignsDown tree catalogue world ((Switching.align host).perform world).2
        ((Switching.align host).perform world).1 := by
  rcases h.sound hspares with ⟨standing, intake, hstands⟩
  refine ⟨?_, ?_, ?_, ?_⟩
  · intro past hpast
    rcases hstands.chronicle.earlier hpast with ⟨before, hbefore⟩
    exact hbefore.tips_in_order hspares
  · rw [hstands.table]
    exact hstands.chronicle.table_eq
  · rw [hstands.table, hstands.frontier]
    exact hstands.chronicle.load_clear hspares
  · intro host hhost hcatalogue
    exact hstands.alignsDown hhost hcatalogue

namespace Sample

/-- The table takes no batch that records the serial tip. -/
def halfway : Host Unit :=
  { host with
    accept := fun edits _ =>
      if edits.any fun edit => edit.key = Frontier.key .serial then
        ⟨.error (.fault (.storage "refused")), (), []⟩
      else ⟨.ok (), (), []⟩ }

theorem halfway_agrees : halfway.Agrees tree :=
  { within.agrees catalogue with
    accept := by
      intro edits outside
      refine ⟨fun _ _ => trivial, fun signal hsignal => ?_⟩
      change signal ∈ (ite _ _ _ : Reply Unit Unit).signals at hsignal
      split at hsignal <;> cases hsignal }

def parted : World Unit := ((Request.sync.act halfway).perform opened).2

theorem reached_parted : Reached tree catalogue parted :=
  .asked reached_opened halfway_agrees rfl trivial

end Sample

/-- The concurrent track has been indexed up to the best block, and the serial one not at all. -/
theorem serial_tip_below_concurrent_tip_of_sample :
    Sample.catalogue.SparesTips ∧ Reached Sample.tree Sample.catalogue Sample.parted ∧
    (∀ past, past <:+ Sample.parted.course → ∃ concurrent ∈ Sample.tree, ∃ serial ∈ Sample.tree,
      Frontier.load (.clear (Table.replayed past)) Sample.genesis.pointer =
        .ok ⟨concurrent.pointer, serial.pointer⟩ ∧
      Sample.tree.Below serial concurrent ∧ serial.height ≤ concurrent.height) ∧
    Sample.host.Agrees Sample.tree ∧
    Sample.parted.frontier = ⟨Sample.second.pointer, Sample.genesis.pointer⟩ ∧
    ((Switching.align Sample.host).perform Sample.parted).1 = .ok (some ⟨"g", "b", []⟩) ∧
    AlignsDown Sample.tree Sample.catalogue Sample.parted
      ((Switching.align Sample.host).perform Sample.parted).2
      ((Switching.align Sample.host).perform Sample.parted).1 := by
  have hspares := Sample.standard.sparesTips
  have hagrees := Sample.within.agrees Sample.catalogue
  have hfrontier : Sample.parted.frontier = ⟨Sample.second.pointer, Sample.genesis.pointer⟩ := by
    decide +kernel
  have hfound : ((Switching.align Sample.host).perform Sample.parted).1 =
      .ok (some ⟨"g", "b", []⟩) := by
    decide +kernel
  rcases serial_tip_below_concurrent_tip hspares Sample.reached_parted with
    ⟨hpast, _, _, haligns⟩
  exact ⟨hspares, Sample.reached_parted, hpast, hagrees, hfrontier, hfound,
    haligns Sample.host hagrees rfl⟩

end ChainIndex
