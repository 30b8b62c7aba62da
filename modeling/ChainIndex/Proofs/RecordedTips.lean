import ChainIndex.Proofs.Chronicle
import ChainIndex.Proofs.PointerText

/-!
# Recorded tips

Every batch of a lawful course records the tip of the track it moves.  As long as
no index writes under the keys of the tips, what is recorded there is where the
tracks stand, and a track without a record has never moved.
-/

namespace ChainIndex

def Index.SparesTips (index : Index) : Prop :=
  ∀ block direction view edits, index.edits block direction view = .ok edits →
    ∀ edit ∈ edits, ∀ track, edit.key ≠ Frontier.key track

def Catalogue.SparesTips (catalogue : Catalogue) : Prop :=
  ∀ index ∈ catalogue, index.SparesTips

theorem Index.edits_of_editsFor {index : Index} {block : Block} {direction : Direction}
    {view : View} {edits : List Edit} (h : index.editsFor block direction view = .ok edits) :
    index.edits block direction view = .ok edits := by
  unfold Index.editsFor at h
  split at h
  · rename_i own hown
    rw [hown, Except.ok.inj h]
  · cases h

theorem Index.editsFor_of_edits {index : Index} {block : Block} {direction : Direction}
    {view : View} {edits : List Edit} (h : index.edits block direction view = .ok edits) :
    index.editsFor block direction view = .ok edits := by
  rw [editsFor, h]

namespace Catalogue

variable {catalogue : Catalogue}

theorem SparesTips.gather {indexes : List Index} (hspares : ∀ index ∈ indexes, index.SparesTips)
    {block : Block} {direction : Direction} {view : View} {edits : List Edit}
    (h : Catalogue.gather block direction view indexes = .ok edits) :
    ∀ edit ∈ edits, ∀ track, edit.key ≠ Frontier.key track := by
  induction indexes generalizing edits with
  | nil =>
      cases h
      intro edit hedit
      cases hedit
  | cons index rest ih =>
      rw [Catalogue.gather] at h
      split at h
      · cases h
      · rename_i own hown
        split at h
        · cases h
        · rename_i more hmore
          cases h
          intro edit hedit
          rcases List.mem_append.mp hedit with hedit | hedit
          · exact hspares index List.mem_cons_self block direction view own
              (Index.edits_of_editsFor hown) edit hedit
          · exact ih (fun i hi => hspares i (List.mem_cons_of_mem _ hi)) hmore edit hedit

theorem SparesTips.edits (hspares : catalogue.SparesTips) {track : Track} {block : Block}
    {direction : Direction} {view : View} {edits : List Edit}
    (h : catalogue.edits track block direction view = .ok edits) :
    ∀ edit ∈ edits, ∀ other, edit.key ≠ Frontier.key other :=
  SparesTips.gather (fun index hindex => hspares index (List.mem_filter.mp hindex).1) h

theorem SparesTips.gathered (hspares : catalogue.SparesTips) {table : Table} {track : Track}
    {direction : Direction} {blocks : List Block} {edits : List Edit}
    (h : Gathered catalogue table track direction blocks edits) :
    ∀ edit ∈ edits, ∀ other, edit.key ≠ Frontier.key other := by
  induction h with
  | none =>
      intro edit hedit
      cases hedit
  | more hown _ ih =>
      intro edit hedit
      rcases List.mem_append.mp hedit with hedit | hedit
      · exact hspares.edits hown edit hedit
      · exact ih edit hedit

end Catalogue

/-!
# What the table says of the tips
-/

namespace Frontier

variable {view : View} {track : Track}

theorem recorded_eq (hreads : view.outages.onGet (key track) = none) :
    recorded view track =
      match view.table.get? (key track) with
      | some bytes =>
          match Pointer.read? bytes with
          | some pointer => .ok (some pointer)
          | none => .error (.storage "codec: a stored tip is not a pointer")
      | none => .ok none := by
  unfold recorded View.get?
  rw [hreads]
  rfl

theorem recorded_of_record (hreads : view.outages.onGet (key track) = none) {pointer : Pointer}
    (h : view.table.get? (key track) = some pointer.write) :
    recorded view track = .ok (some pointer) := by
  rw [recorded_eq hreads, h]
  dsimp only
  rw [Pointer.read?_write]

theorem recorded_of_absent (hreads : view.outages.onGet (key track) = none)
    (h : view.table.get? (key track) = none) : recorded view track = .ok none := by
  rw [recorded_eq hreads, h]

theorem reads_of_recorded {found : Option Pointer} (h : recorded view track = .ok found) :
    view.outages.onGet (key track) = none := by
  cases hreads : view.outages.onGet (key track) with
  | none => rfl
  | some fault =>
      unfold recorded View.get? at h
      rw [hreads] at h
      cases h

end Frontier

/-- The table holds where the track stands, or nothing if that is the genesis. -/
def Standing.Records (tree : BlockTree) (standing : Standing) (track : Track) : Prop :=
  standing.table.get? (Frontier.key track) = some (standing.tip track).pointer.write ∨
    (standing.table.get? (Frontier.key track) = none ∧ standing.tip track = tree.genesis)

namespace Standing

variable {tree : BlockTree} {standing : Standing} {track : Track}

theorem tip_after_same (standing : Standing) (move : Move) (edits : List Edit) :
    (standing.after move edits).tip move.track = move.target := by
  cases h : move.track <;> simp [after, tip, h]

theorem tip_after_other (standing : Standing) {move : Move} (edits : List Edit)
    (h : move.track ≠ track) : (standing.after move edits).tip track = standing.tip track := by
  cases track <;> simp [after, tip, h]

theorem Records.pointer_eq (h : standing.Records tree track) {view : View}
    (hview : view.table = standing.table) {found : Option Pointer}
    (hfound : Frontier.recorded view track = .ok found) :
    found.getD tree.genesis.pointer = (standing.tip track).pointer := by
  have hreads := Frontier.reads_of_recorded hfound
  unfold Records at h
  rw [← hview] at h
  rcases h with hrecord | ⟨hrecord, htip⟩
  · rw [Frontier.recorded_of_record hreads hrecord] at hfound
    cases hfound
    rfl
  · rw [Frontier.recorded_of_absent hreads hrecord] at hfound
    cases hfound
    rw [htip]
    rfl

end Standing

namespace Chronicle

variable {tree : BlockTree} {catalogue : Catalogue} {course : List Entry} {standing : Standing}

theorem records (hspares : catalogue.SparesTips) (h : Chronicle tree catalogue course standing)
    (track : Track) : standing.Records tree track := by
  induction h with
  | blank => cases track <;> exact Or.inr ⟨rfl, rfl⟩
  | @next entry past before after _ hstep ih =>
      cases hstep with
      | quiet _ _ => exact ih
      | consulted _ _ _ => exact ih
      | told _ => exact ih
      | @moved move edits _ hedits _ =>
          show (before.after move edits).Records tree track
          by_cases htrack : move.track = track
          · subst htrack
            left
            rw [Standing.tip_after_same]
            exact Frontier.get?_commit_edit_same before.table edits move.track _
          · have hkey : Frontier.key move.track ≠ Frontier.key track :=
              Frontier.key_ne _ _ htrack
            have htable : (before.after move edits).table.get? (Frontier.key track) =
                before.table.get? (Frontier.key track) := by
              show (before.table.commit (Standing.batch move edits)).get? _ = _
              rw [Standing.batch, Frontier.get?_commit_edit_of_ne _ _ _ hkey]
              exact Table.get?_commit_of_untouched _ fun edit hedit =>
                hspares.gathered hedits edit hedit track
            unfold Standing.Records
            rw [htable, Standing.tip_after_other _ _ htrack]
            exact ih

theorem frontier_eq (hspares : catalogue.SparesTips)
    (h : Chronicle tree catalogue course standing) {view : View}
    (hview : view.table = standing.table) {frontier : Frontier}
    (hload : Frontier.load view tree.genesis.pointer = .ok frontier) :
    frontier = ⟨standing.concurrent.pointer, standing.serial.pointer⟩ := by
  unfold Frontier.load at hload
  cases hconcurrent : Frontier.recorded view .concurrent with
  | error fault =>
      rw [hconcurrent] at hload
      cases hload
  | ok concurrent =>
      rw [hconcurrent] at hload
      cases hserial : Frontier.recorded view .serial with
      | error fault =>
          rw [hserial] at hload
          cases hload
      | ok serial =>
          rw [hserial] at hload
          cases hload
          have hleft := (h.records hspares .concurrent).pointer_eq hview hconcurrent
          have hright := (h.records hspares .serial).pointer_eq hview hserial
          rw [hleft, hright]
          rfl

theorem load_clear (hspares : catalogue.SparesTips)
    (h : Chronicle tree catalogue course standing) :
    Frontier.load (.clear standing.table) tree.genesis.pointer =
      .ok ⟨standing.concurrent.pointer, standing.serial.pointer⟩ := by
  have hread (track : Track) :
      ∃ found, Frontier.recorded (.clear standing.table) track = .ok found := by
    rcases h.records hspares track with hrecord | ⟨hrecord, _⟩
    · exact ⟨_, Frontier.recorded_of_record rfl hrecord⟩
    · exact ⟨_, Frontier.recorded_of_absent rfl hrecord⟩
  rcases hread .concurrent with ⟨concurrent, hconcurrent⟩
  rcases hread .serial with ⟨serial, hserial⟩
  have hload : Frontier.load (.clear standing.table) tree.genesis.pointer =
      .ok ⟨concurrent.getD tree.genesis.pointer, serial.getD tree.genesis.pointer⟩ := by
    unfold Frontier.load
    rw [hconcurrent, hserial]
    rfl
  rw [hload, h.frontier_eq hspares rfl hload]

end Chronicle

end ChainIndex
