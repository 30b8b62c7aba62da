import ChainIndex.Proofs.OwnKeys

/-!
# Replays

Blocks that are put on a track one by one lead from one table to another.  Outside the keys of
the tips this depends on nothing but the table outside these keys, as long as the indexes keep
to themselves; and a block that was put on last is then taken off again without a trace.
-/

namespace ChainIndex

def Frontier.Foreign (key : Bytes) : Prop :=
  ∀ track, key ≠ Frontier.key track

/-!
# Where blocks lead
-/

namespace Catalogue

inductive Leads (catalogue : Catalogue) (track : Track) : Table → List Block → Table → Prop where
  | stay (table : Table) : Leads catalogue track table [] table
  | on {table after : Table} {block : Block} {rest : List Block} {own : List Edit} :
      catalogue.edits track block .apply (.clear table) = .ok own →
      Leads catalogue track (table.commit (own ++ [Frontier.edit track block.pointer])) rest after →
      Leads catalogue track table (block :: rest) after

/-- Where a track begins if the blocks are put on both tracks, the concurrent one first. -/
def Begins (catalogue : Catalogue) (start : Table) (blocks : List Block) : Track → Table → Prop
  | .concurrent, table => table = start
  | .serial, table => catalogue.Leads .concurrent start blocks table

/-- The table is the one under which the block is put on the track. -/
def Visits (catalogue : Catalogue) (start : Table) (blocks : List Block) (track : Track)
    (block : Block) (table : Table) : Prop :=
  ∃ base front, catalogue.Begins start blocks track base ∧ front ++ [block] <+: blocks ∧
    catalogue.Leads track base front table

/-- Every index has edits for every one of the blocks. -/
def Enters (catalogue : Catalogue) (start : Table) (blocks : List Block) : Prop :=
  ∀ track block table, catalogue.Visits start blocks track block table →
    ∀ index ∈ catalogue.on track, ∃ own, index.edits block .apply (.clear table) = .ok own

end Catalogue

/-- The index has edits that take the block off again, and these bring back what was there
before under its stem. -/
def Index.Restores (index : Index) (stem : Bytes) (block : Block) (before after : Table) : Prop :=
  ∃ undone, index.edits block .undo (.clear after) = .ok undone ∧
    Table.Alike (stem <+: ·) (after.commit undone) before

def Catalogue.Restores (catalogue : Catalogue) (stem : Index → Bytes) (start : Table)
    (blocks : List Block) : Prop :=
  ∀ track block table own, catalogue.Visits start blocks track block table →
    catalogue.edits track block .apply (.clear table) = .ok own →
    ∀ index ∈ catalogue.on track, index.Restores (stem index) block table
      (table.commit (own ++ [Frontier.edit track block.pointer]))

namespace Catalogue.Leads

variable {catalogue : Catalogue} {track : Track} {table middle after other : Table}
variable {front back : List Block} {block : Block} {own : List Edit}

theorem append (h : catalogue.Leads track table front middle)
    (h' : catalogue.Leads track middle back after) :
    catalogue.Leads track table (front ++ back) after := by
  induction h with
  | stay _ => exact h'
  | on hown _ ih => exact on hown (ih h')

theorem split (h : catalogue.Leads track table (front ++ back) after) :
    ∃ middle, catalogue.Leads track table front middle ∧
      catalogue.Leads track middle back after := by
  induction front generalizing table with
  | nil => exact ⟨table, stay table, h⟩
  | cons block rest ih =>
      cases h with
      | on hown hrest =>
          rcases ih hrest with ⟨middle, hfront, hback⟩
          exact ⟨middle, on hown hfront, hback⟩

theorem snoc (h : catalogue.Leads track table front middle)
    (hown : catalogue.edits track block .apply (.clear middle) = .ok own) :
    catalogue.Leads track table (front ++ [block])
      (middle.commit (own ++ [Frontier.edit track block.pointer])) :=
  h.append (on hown (stay _))

theorem of_snoc (h : catalogue.Leads track table (front ++ [block]) after) :
    ∃ middle own, catalogue.Leads track table front middle ∧
      catalogue.edits track block .apply (.clear middle) = .ok own ∧
      after = middle.commit (own ++ [Frontier.edit track block.pointer]) := by
  rcases h.split with ⟨middle, hfront, hlast⟩
  cases hlast with
  | on hown hrest =>
      cases hrest
      exact ⟨middle, _, hfront, hown, rfl⟩

theorem unique (h : catalogue.Leads track table front after)
    (h' : catalogue.Leads track table front other) : after = other := by
  induction h with
  | stay _ =>
      cases h'
      rfl
  | on hown _ ih =>
      cases h' with
      | on hown' hrest =>
          cases hown.symm.trans hown'
          exact ih hrest

end Catalogue.Leads

theorem Catalogue.Enters.exists_leads {catalogue : Catalogue} {start base : Table}
    {blocks : List Block} {track : Track} (h : catalogue.Enters start blocks)
    (hbegins : catalogue.Begins start blocks track base) :
    ∃ after, catalogue.Leads track base blocks after := by
  have hfront (front : List Block) :
      front <+: blocks → ∃ after, catalogue.Leads track base front after := by
    induction front using List.reverseRecOn with
    | nil => exact fun _ => ⟨base, .stay base⟩
    | append_singleton front block ih =>
        intro hpart
        rcases ih ((List.prefix_append _ _).trans hpart) with ⟨middle, hmiddle⟩
        rcases exists_gather (h track block middle ⟨base, front, hbegins, hpart, hmiddle⟩) with
          ⟨own, hown⟩
        exact ⟨_, hmiddle.snoc hown⟩
  exact hfront blocks (List.prefix_refl _)

/-!
# Tables alike outside the tips
-/

namespace Table.Alike

variable {a b table : Table} {track : Track}

theorem tip (table : Table) (own : List Edit) (track : Track) (pointer : Pointer) :
    Alike Frontier.Foreign (table.commit (own ++ [Frontier.edit track pointer]))
      (table.commit own) := by
  intro key hkey
  exact Frontier.get?_commit_edit_of_ne table own pointer (hkey track).symm

theorem land (h : Alike Frontier.Foreign a b) (own : List Edit) (track : Track)
    (pointer other : Pointer) :
    Alike Frontier.Foreign (a.commit (own ++ [Frontier.edit track pointer]))
      (b.commit (own ++ [Frontier.edit track other])) :=
  ((tip a own track pointer).trans (h.commit own)).trans (tip b own track other).symm

end Table.Alike

namespace Catalogue.KeepsApart

variable {catalogue : Catalogue} {stem : Index → Bytes} {track : Track} {block : Block}
variable {direction : Direction} {a b before current : Table} {own : List Edit}

theorem edits_congr (h : catalogue.KeepsApart stem)
    (hreads : ∀ index ∈ catalogue, index.ReadsUnder (stem index))
    (halike : Table.Alike Frontier.Foreign a b) :
    catalogue.edits track block direction (.clear a) =
      catalogue.edits track block direction (.clear b) := by
  apply gather_congr
  intro index hindex
  have hmem := mem_of_mem_on hindex
  exact hreads index hmem _ _ _ _ (halike.mono fun key hkey => h.ne_tip hmem hkey)

/-- A block that was put on last is taken off again without a trace. -/
theorem undo (h : catalogue.KeepsApart stem)
    (hreads : ∀ index ∈ catalogue, index.ReadsUnder (stem index))
    (hown : catalogue.edits track block .apply (.clear before) = .ok own)
    (hrestores : ∀ index ∈ catalogue.on track, index.Restores (stem index) block before
      (before.commit (own ++ [Frontier.edit track block.pointer])))
    (halike : Table.Alike Frontier.Foreign current
      (before.commit (own ++ [Frontier.edit track block.pointer]))) (pointer : Pointer) :
    ∃ undone, catalogue.edits track block .undo (.clear current) = .ok undone ∧
      Table.Alike Frontier.Foreign (current.commit (undone ++ [Frontier.edit track pointer]))
        before := by
  have hindex (index : Index) (hindex : index ∈ catalogue.on track) :
      ∃ undone, index.edits block .undo
        (.clear (before.commit (own ++ [Frontier.edit track block.pointer]))) = .ok undone := by
    rcases hrestores index hindex with ⟨undone, hundone, _⟩
    exact ⟨undone, hundone⟩
  rcases exists_gather hindex with ⟨edits, hedits⟩
  refine ⟨edits, (h.edits_congr hreads halike).trans hedits, ?_⟩
  refine (Table.Alike.tip current edits track pointer).trans ?_
  refine (halike.commit edits).trans ?_
  intro key hkey
  by_cases hunder : ∃ index ∈ catalogue.on track, stem index <+: key
  · -- What an index keeps to itself it brings back itself.
    rcases hunder with ⟨index, hindex, hstem⟩
    rcases hrestores index hindex with ⟨undone, hundone, hback⟩
    exact (h.alike hedits hindex hundone _ key hstem).trans (hback key hstem)
  · -- No index of the track has touched any other key.
    have hfree {view : View} {direction : Direction} {edits : List Edit}
        (hedits : catalogue.edits track block direction view = .ok edits) :
        ∀ edit ∈ edits, edit.key ≠ key := by
      intro edit hedit hsame
      rcases h.exists_under hedits hedit with ⟨index, hindex, hstem⟩
      exact hunder ⟨index, hindex, hsame ▸ hstem⟩
    rw [Table.get?_commit_of_untouched _ (hfree hedits),
      Table.Alike.tip before own track _ key hkey, Table.get?_commit_of_untouched _ (hfree hown)]

end Catalogue.KeepsApart

/-!
# Tips in the table
-/

namespace Frontier

theorem load_clear_iff {table : Table} {genesis : Pointer} {frontier : Frontier} :
    load (.clear table) genesis = .ok frontier ↔
      ∀ track, ∃ found, recorded (.clear table) track = .ok found ∧
        found.getD genesis = frontier.tip track := by
  unfold load
  constructor
  · intro h
    cases hconcurrent : recorded (.clear table) .concurrent with
    | error fault =>
        rw [hconcurrent] at h
        cases h
    | ok concurrent =>
        rw [hconcurrent] at h
        cases hserial : recorded (.clear table) .serial with
        | error fault =>
            rw [hserial] at h
            cases h
        | ok serial =>
            rw [hserial] at h
            cases h
            intro track
            cases track
            · exact ⟨concurrent, hconcurrent, rfl⟩
            · exact ⟨serial, hserial, rfl⟩
  · intro h
    rcases h .concurrent with ⟨concurrent, hconcurrent, htop⟩
    rcases h .serial with ⟨serial, hserial, hlow⟩
    rw [hconcurrent, hserial]
    show Except.ok (⟨concurrent.getD genesis, serial.getD genesis⟩ : Frontier) = _
    rw [htop, hlow]
    rfl

theorem recorded_congr {a b : Table} {track : Track} (h : a.get? (key track) = b.get? (key track)) :
    recorded (.clear a) track = recorded (.clear b) track := by
  unfold recorded
  rw [View.get?_clear, View.get?_clear, h]

theorem load_commit {table : Table} {genesis : Pointer} {frontier : Frontier}
    (h : load (.clear table) genesis = .ok frontier) {own : List Edit}
    (hspares : ∀ edit ∈ own, ∀ track, edit.key ≠ key track) (track : Track) (pointer : Pointer) :
    load (.clear (table.commit (own ++ [edit track pointer]))) genesis =
      .ok (frontier.move track pointer) := by
  rw [load_clear_iff] at h ⊢
  intro other
  by_cases hsame : other = track
  · subst hsame
    have hrecord := get?_commit_edit_same table own other pointer
    refine ⟨some pointer, recorded_of_record rfl hrecord, ?_⟩
    rw [tip_move_same]
    rfl
  · rcases h other with ⟨found, hfound, htip⟩
    refine ⟨found, ?_, htip.trans (tip_move_other frontier hsame pointer).symm⟩
    have hget : (table.commit (own ++ [edit track pointer])).get? (key other) =
        table.get? (key other) := by
      rw [get?_commit_edit_of_ne _ _ _ (key_ne _ _ (Ne.symm hsame))]
      exact Table.get?_commit_of_untouched _ fun edit hedit => hspares edit hedit other
    exact (recorded_congr hget).trans hfound

end Frontier

end ChainIndex
