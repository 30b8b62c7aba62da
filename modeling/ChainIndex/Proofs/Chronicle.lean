import ChainIndex.Proofs.Batches
import ChainIndex.Proofs.BlockTree
import ChainIndex.World.Basic

/-!
# Chronicles

The course of events of an indexer is lawful if each entry of it may follow on
what came before.  Along the way it is kept how far the two tracks have come, as
the block each of them stands at; together with the table this is where the
course leads to.

There are four moves of a track, and each goes with the batch that records it:

* the concurrent track grows by any number of blocks, one on top of the other, and
  shrinks by one block, but never below the serial track;
* the serial track rises onto a child of its block, which the concurrent track has
  passed, and falls to the parent of its block.

What holds of every lawful course is shown by going through these rules.
-/

namespace ChainIndex

/-!
# Moves
-/

inductive Move where
  | grow (blocks : List Block) (high : Block)
  | shrink (block low : Block)
  | rise (high : Block)
  | fall (block low : Block)

namespace Move

def track : Move → Track
  | .grow _ _ | .shrink _ _ => .concurrent
  | .rise _ | .fall _ _ => .serial

def direction : Move → Direction
  | .grow _ _ | .rise _ => .apply
  | .shrink _ _ | .fall _ _ => .undo

def blocks : Move → List Block
  | .grow blocks _ => blocks
  | .shrink block _ | .fall block _ => [block]
  | .rise high => [high]

def target : Move → Block
  | .grow _ high | .rise high => high
  | .shrink _ low | .fall _ low => low

def report : Move → Option Event
  | .rise high => some (.added high.hash high.height)
  | .fall block _ => some (.removed block.hash block.height)
  | .grow _ _ | .shrink _ _ => none

end Move

structure Standing where
  table : Table
  concurrent : Block
  serial : Block
  /-- The moves made so far, newest first. -/
  moves : List Move
  /-- The event by which the last move is still to be told. -/
  owed : Option Event

namespace Standing

def blank (tree : BlockTree) : Standing :=
  ⟨.empty, tree.genesis, tree.genesis, [], none⟩

def tip (standing : Standing) : Track → Block
  | .concurrent => standing.concurrent
  | .serial => standing.serial

/-- What a move writes to the table, with the edits of the indexes in front. -/
def batch (move : Move) (edits : List Edit) : List Edit :=
  edits ++ [Frontier.edit move.track move.target.pointer]

/-- Where a move leads once it has been told. -/
def after (standing : Standing) (move : Move) (edits : List Edit) : Standing where
  table := standing.table.commit (batch move edits)
  concurrent := if move.track = .concurrent then move.target else standing.concurrent
  serial := if move.track = .serial then move.target else standing.serial
  moves := move :: standing.moves
  owed := none

/-- The blocks for which the indexes of a track may be asked. -/
def Concerns (tree : BlockTree) (standing : Standing) (block : Block) :
    Track → Direction → Prop
  | .concurrent, .apply => block ∈ tree
  | .concurrent, .undo => block = standing.concurrent ∧ block ≠ tree.genesis
  | .serial, .apply => tree.Child standing.serial block ∧ tree.Below block standing.concurrent
  | .serial, .undo => block = standing.serial ∧ block ≠ tree.genesis

end Standing

def Move.IsLawful (tree : BlockTree) (standing : Standing) : Move → Prop
  | .grow blocks high => tree.Climb standing.concurrent blocks high
  | .shrink block low =>
      block = standing.concurrent ∧ tree.Child low block ∧ tree.Below standing.serial low
  | .rise high => tree.Child standing.serial high ∧ tree.Below high standing.concurrent
  | .fall block low => block = standing.serial ∧ tree.Child low block

/-!
# Lawful courses
-/

/-- Whether an entry leaves the table and the tips alone and tells of neither. -/
def Entry.IsQuiet : Entry → Prop
  | .batch _ (.ok ()) => False
  | .consulted _ _ _ _ => False
  | .emitted (.added _ _) => False
  | .emitted (.removed _ _) => False
  | _ => True

inductive Gathered (catalogue : Catalogue) (table : Table) (track : Track)
    (direction : Direction) : List Block → List Edit → Prop where
  | none : Gathered catalogue table track direction [] []
  | more {block : Block} {rest : List Block} {outages : Outages} {own edits : List Edit} :
      catalogue.edits track block direction ⟨table, outages⟩ = .ok own →
      Gathered catalogue table track direction rest edits →
      Gathered catalogue table track direction (block :: rest) (own ++ edits)

inductive Advance (tree : BlockTree) (catalogue : Catalogue) (standing : Standing) :
    Entry → Standing → Prop where
  | quiet {entry : Entry} :
      entry.IsQuiet → standing.owed = none → Advance tree catalogue standing entry standing
  | consulted {track : Track} {block : Block} {direction : Direction} {view : View} :
      view.table = standing.table → standing.Concerns tree block track direction →
      standing.owed = none →
      Advance tree catalogue standing (.consulted track block direction view) standing
  | moved {move : Move} {edits : List Edit} :
      move.IsLawful tree standing →
      Gathered catalogue standing.table move.track move.direction move.blocks edits →
      standing.owed = none →
      Advance tree catalogue standing (.batch (Standing.batch move edits) (.ok ()))
        { standing.after move edits with owed := move.report }
  | told {event : Event} :
      standing.owed = some event →
      Advance tree catalogue standing (.emitted event) { standing with owed := none }

/-- A lawful course, the newest entry first, and where it leads. -/
inductive Chronicle (tree : BlockTree) (catalogue : Catalogue) : List Entry → Standing → Prop where
  | blank : Chronicle tree catalogue [] (.blank tree)
  | next {entry : Entry} {past : List Entry} {before after : Standing} :
      Chronicle tree catalogue past before → Advance tree catalogue before entry after →
      Chronicle tree catalogue (entry :: past) after

/-- The table that the batches of a course have made. -/
def Table.replayed : List Entry → Table
  | [] => .empty
  | .batch edits (.ok ()) :: past => (replayed past).commit edits
  | _ :: past => replayed past

namespace Chronicle

variable {tree : BlockTree} {catalogue : Catalogue} {course : List Entry} {standing : Standing}

theorem earlier (h : Chronicle tree catalogue course standing) {past : List Entry}
    (hpast : past <:+ course) : ∃ before, Chronicle tree catalogue past before := by
  induction h with
  | blank =>
      rw [List.suffix_nil.mp hpast]
      exact ⟨_, blank⟩
  | @next entry rest before after hrest hstep ih =>
      rcases List.suffix_cons_iff.mp hpast with rfl | hrest'
      · exact ⟨after, next hrest hstep⟩
      · exact ih hrest'

theorem table_eq (h : Chronicle tree catalogue course standing) :
    standing.table = Table.replayed course := by
  induction h with
  | blank => rfl
  | @next entry past before after _ hstep ih =>
      cases hstep with
      | quiet hquiet _ =>
          rw [ih]
          cases entry with
          | batch edits answer =>
              cases answer with
              | ok _ => exact hquiet.elim
              | error _ => rfl
          | _ => rfl
      | consulted _ _ _ => exact ih
      | moved _ _ _ =>
          rw [Table.replayed, ← ih]
          rfl
      | told _ => exact ih

/-!
# The order of the tracks
-/

/-- The concurrent track stands in the tree, and the serial track below it. -/
theorem order (h : Chronicle tree catalogue course standing) :
    standing.concurrent ∈ tree ∧ tree.Below standing.serial standing.concurrent := by
  induction h with
  | blank => exact ⟨tree.genesis_mem, BlockTree.Below.refl _⟩
  | @next entry past before after _ hstep ih =>
      cases hstep with
      | quiet _ _ => exact ih
      | consulted _ _ _ => exact ih
      | told _ => exact ih
      | @moved move edits hlawful _ _ =>
          rcases ih with ⟨hmem, hbelow⟩
          cases move with
          | grow blocks high =>
              have hclimb : tree.Climb before.concurrent blocks high := hlawful
              exact ⟨hclimb.high_mem hmem, hbelow.trans hclimb.isBelow⟩
          | shrink block low =>
              rcases hlawful with ⟨_, hchild, hserial⟩
              exact ⟨hchild.1, hserial⟩
          | rise high =>
              rcases hlawful with ⟨_, hpassed⟩
              exact ⟨hmem, hpassed⟩
          | fall block low =>
              rcases hlawful with ⟨rfl, hchild⟩
              exact ⟨hmem, (BlockTree.Below.of_child hchild).trans hbelow⟩

theorem serial_mem (h : Chronicle tree catalogue course standing) : standing.serial ∈ tree :=
  h.order.2.mem h.order.1

end Chronicle

end ChainIndex
