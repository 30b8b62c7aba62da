import ChainIndex.Proofs.Acts

/-!
# Mirrors of the serial track

Someone who sees nothing of an indexer but its events can follow the serial track by them: an
added block has to sit on the tip, a removed block has to be the tip, and the tip moves with
them.  A course mirrors the serial track if each batch of that track that landed is told of
at once, and if whoever follows the events is never stuck and ends at the tip that was
recorded last.
-/

namespace ChainIndex

/-!
# Following the events
-/

def Block.Meets (block : Block) (tip : Pointer) : Direction → Prop
  | .apply => block.parent = some tip.hash
  | .undo => block.hash = tip.hash

/-- The block was put on the serial track or taken off it. -/
def Event.isMove : Event → Bool
  | .added _ _ | .removed _ _ => true
  | _ => false

namespace BlockTree

def parent? (tree : BlockTree) (block : Block) : Option Block :=
  block.parent.bind tree.find?

/-- Where an event leads a follower who is at the tip, unless it leaves them stuck. -/
def follow? (tree : BlockTree) (tip : Pointer) : Event → Option Pointer
  | .added hash height =>
      (tree.find? hash).bind fun block =>
        if block.height = height ∧ block.parent = some tip.hash then some block.pointer else none
  | .removed hash height =>
      (tree.find? hash).bind fun block =>
        if block.height = height ∧ block.hash = tip.hash then
          (tree.parent? block).map Block.pointer
        else none
  | _ => some tip

def followAll (tree : BlockTree) (tip : Pointer) (events : List Event) : Option Pointer :=
  events.foldlM tree.follow? tip

variable {tree : BlockTree} {tip : Pointer} {low block : Block}

theorem follow?_of_not_move {event : Event} (h : event.isMove = false) :
    tree.follow? tip event = some tip := by
  cases event <;> first | rfl | cases h

theorem follow?_added (hblock : block ∈ tree) (hparent : block.parent = some tip.hash) :
    tree.follow? tip (.added block.hash block.height) = some block.pointer := by
  rw [follow?, mem_iff.mp hblock, Option.bind_some, if_pos ⟨rfl, hparent⟩]

theorem follow?_removed (hchild : tree.Child low block) (htip : block.hash = tip.hash) :
    tree.follow? tip (.removed block.hash block.height) = some low.pointer := by
  rw [follow?, mem_iff.mp hchild.2.1, Option.bind_some, if_pos ⟨rfl, htip⟩, parent?,
    hchild.2.2, Option.bind_some, mem_iff.mp hchild.1]
  rfl

theorem follow?_report {direction : Direction} {pointer : Pointer} (hblock : block ∈ tree)
    (hpointer : Act.destination block direction = .ok pointer)
    (hmeets : block.Meets tip direction) :
    tree.follow? tip (Act.report block direction) = some pointer := by
  cases direction with
  | apply =>
      rw [← Except.ok.inj hpointer]
      exact follow?_added hblock hmeets
  | undo =>
      cases hparent : block.parent with
      | none =>
          rw [Act.destination, hparent] at hpointer
          cases hpointer
      | some parent =>
          rcases exists_parent_of hblock hparent with ⟨low, hchild, rfl⟩
          rw [hchild.destination_undo] at hpointer
          rw [← Except.ok.inj hpointer]
          exact follow?_removed hchild hmeets

end BlockTree

/-!
# Batches of the serial track
-/

def Edit.serialTip? : Edit → Option Pointer
  | .put key value => if key = Frontier.key .serial then Pointer.read? value else none
  | .erase _ => none

/-- The serial tip that a batch of the serial track has moved to.  The last edit of a batch
says whose batch it is. -/
def Entry.landing? : Entry → Option Pointer
  | .batch edits (.ok _) => edits.getLast?.bind Edit.serialTip?
  | _ => none

theorem Entry.landing?_serial (own : List Edit) (pointer : Pointer) :
    (Entry.batch (own ++ [Frontier.edit .serial pointer]) (.ok ())).landing? = some pointer := by
  rw [landing?, List.getLast?_concat, Option.bind_some, Frontier.edit, Edit.serialTip?, if_pos rfl,
    Pointer.read?_write]

theorem Entry.landing?_concurrent (own : List Edit) (pointer : Pointer) :
    (Entry.batch (own ++ [Frontier.edit .concurrent pointer]) (.ok ())).landing? = none := by
  have hkey : Frontier.key .concurrent ≠ Frontier.key .serial := Frontier.key_ne _ _ (by decide)
  rw [landing?, List.getLast?_concat, Option.bind_some, Frontier.edit, Edit.serialTip?,
    if_neg hkey]

def reports (course : List Entry) : List Event :=
  (course.filterMap Entry.event?).reverse

def moves (course : List Entry) : List Event :=
  (reports course).filter Event.isMove

theorem reports_emitted (event : Event) (course : List Entry) :
    reports (.emitted event :: course) = reports course ++ [event] := by
  have hevent : (Entry.emitted event).event? = some event := rfl
  rw [reports, List.filterMap_cons_some hevent, List.reverse_cons, reports]

theorem reports_append {said course : List Entry} (h : course.filterMap Entry.event? = []) :
    reports (said ++ course) = reports said := by
  rw [reports, List.filterMap_append, h, List.append_nil, reports]

theorem BlockTree.followAll_emitted (tree : BlockTree) (start : Pointer) (past : List Entry)
    (event : Event) :
    tree.followAll start (reports (.emitted event :: past)) =
      (tree.followAll start (reports past)).bind (tree.follow? · event) := by
  unfold followAll
  rw [reports_emitted, List.foldlM_append]
  congr 1
  funext tip
  rw [List.foldlM_cons]
  cases tree.follow? tip event <;> rfl

def serialTipAfter (start : Pointer) (course : List Entry) : Pointer :=
  ((course.filterMap Entry.landing?).head?).getD start

def Entry.IsAside (entry : Entry) : Prop :=
  entry.landing? = none ∧ ∀ event, entry = .emitted event → event.isMove = false

theorem Entry.IsAside.of_not_deed {entry : Entry} (h : entry.isDeed = false) : entry.IsAside := by
  cases entry with
  | batch edits answer =>
      cases answer with
      | ok _ => cases h
      | error cause => exact ⟨rfl, by simp⟩
  | emitted event => cases h
  | _ => exact ⟨rfl, by simp⟩

theorem Entry.IsAside.of_event {event : Event} (h : event.isMove = false) :
    (Entry.emitted event).IsAside := by
  refine ⟨rfl, ?_⟩
  intro other hother
  cases hother
  exact h

/-!
# Mirrors
-/

/-- The course, newest first, leads a follower from the one tip to the other. -/
inductive Mirrors (tree : BlockTree) (start : Pointer) : List Entry → Pointer → Prop where
  | begin : Mirrors tree start [] start
  | aside {entry : Entry} {past : List Entry} {tip : Pointer} :
      Mirrors tree start past tip → entry.IsAside → Mirrors tree start (entry :: past) tip
  | move {entry : Entry} {event : Event} {past : List Entry} {tip next : Pointer} :
      Mirrors tree start past tip → entry.landing? = some next → event.isMove = true →
      tree.follow? tip event = some next →
      Mirrors tree start (.emitted event :: entry :: past) next

namespace Mirrors

variable {tree : BlockTree} {start tip : Pointer} {past newer older : List Entry} {entry : Entry}
variable {event : Event}

theorem aside_all {said : List Entry} (h : Mirrors tree start past tip)
    (hsaid : ∀ entry ∈ said, entry.IsAside) : Mirrors tree start (said ++ past) tip := by
  induction said with
  | nil => exact h
  | cons entry rest ih =>
      exact aside (ih fun e he => hsaid e (List.mem_cons_of_mem _ he))
        (hsaid entry List.mem_cons_self)

theorem event?_eq_none_of_landing {next : Pointer} (h : entry.landing? = some next) :
    entry.event? = none := by
  cases entry <;> first | rfl | cases h

theorem followAll_eq (h : Mirrors tree start past tip) :
    tree.followAll start (reports past) = some tip := by
  induction h with
  | begin => rfl
  | @aside entry past tip _ haside ih =>
      cases entry with
      | emitted event =>
          rw [BlockTree.followAll_emitted, ih, Option.bind_some]
          exact BlockTree.follow?_of_not_move (haside.2 event rfl)
      | _ => exact ih
  | @move entry event past tip next _ hlanding _ hfollow ih =>
      have hreports : reports (entry :: past) = reports past := by
        unfold reports
        rw [List.filterMap_cons_none (event?_eq_none_of_landing hlanding)]
      rw [BlockTree.followAll_emitted, hreports, ih, Option.bind_some]
      exact hfollow

theorem serialTipAfter_eq (h : Mirrors tree start past tip) : serialTipAfter start past = tip := by
  induction h with
  | begin => rfl
  | @aside entry past tip _ haside ih =>
      unfold serialTipAfter at ih ⊢
      rw [List.filterMap_cons_none haside.1]
      exact ih
  | @move entry event past tip next _ hlanding _ _ _ =>
      unfold serialTipAfter
      rw [List.filterMap_cons_none rfl, List.filterMap_cons_some hlanding]
      rfl

theorem told (h : Mirrors tree start past tip) (hpast : past = newer ++ entry :: older)
    (hlanding : entry.landing? ≠ none) :
    ∃ rest event, newer = rest ++ [.emitted event] ∧ event.isMove = true := by
  induction h generalizing newer with
  | begin => exact absurd hpast.symm (by simp)
  | @aside latest past tip _ haside ih =>
      cases newer with
      | nil =>
          cases hpast
          exact absurd haside.1 hlanding
      | cons first rest =>
          cases hpast
          rcases ih rfl with ⟨rest, event, rfl, hmove⟩
          exact ⟨_ :: rest, event, rfl, hmove⟩
  | @move batch event past tip next _ hbatch hmove _ ih =>
      cases newer with
      | nil =>
          cases hpast
          exact absurd rfl hlanding
      | cons first rest =>
          cases rest with
          | nil =>
              cases hpast
              exact ⟨[], event, rfl, hmove⟩
          | cons second rest =>
              cases hpast
              rcases ih rfl with ⟨rest, event, rfl, hmove⟩
              exact ⟨_ :: _ :: rest, event, rfl, hmove⟩

theorem landed (h : Mirrors tree start past tip)
    (hpast : past = newer ++ .emitted event :: older) (hmove : event.isMove = true) :
    ∃ entry rest, older = entry :: rest ∧ entry.landing? ≠ none := by
  induction h generalizing newer with
  | begin => exact absurd hpast.symm (by simp)
  | @aside latest past tip _ haside ih =>
      cases newer with
      | nil =>
          cases hpast
          rw [haside.2 event rfl] at hmove
          cases hmove
      | cons first rest =>
          cases hpast
          exact ih rfl
  | @move batch told past tip next _ hbatch _ _ ih =>
      cases newer with
      | nil =>
          cases hpast
          exact ⟨batch, past, rfl, by rw [hbatch]; simp⟩
      | cons first rest =>
          cases rest with
          | nil =>
              cases hpast
              cases hbatch
          | cons second rest =>
              cases hpast
              exact ih rfl

/-- At every earlier moment the course mirrored the serial track as well, unless a batch of that
track had just landed. -/
theorem earlier (h : Mirrors tree start past tip) (hpast : older <:+ past)
    (hdone : ∀ entry ∈ older.head?, entry.landing? = none) :
    ∃ before, Mirrors tree start older before := by
  induction h with
  | begin =>
      rw [List.suffix_nil.mp hpast]
      exact ⟨start, .begin⟩
  | @aside latest past tip hmirrors haside ih =>
      rcases List.suffix_cons_iff.mp hpast with rfl | hrest
      · exact ⟨tip, .aside hmirrors haside⟩
      · exact ih hrest
  | @move batch event past tip next hmirrors hbatch hmove hfollow ih =>
      rcases List.suffix_cons_iff.mp hpast with rfl | hrest
      · exact ⟨next, .move hmirrors hbatch hmove hfollow⟩
      · rcases List.suffix_cons_iff.mp hrest with rfl | hrest
        · rw [hdone batch rfl] at hbatch
          cases hbatch
        · exact ih hrest

end Mirrors

end ChainIndex
