import ChainIndex.Proofs.CalmHosts
import ChainIndex.Proofs.Histories
import ChainIndex.Proofs.Mirrors
import ChainIndex.Proofs.RunTurns
import ChainIndex.Proofs.Serving
import ChainIndex.Proofs.Stages

/-!
# Events are faithful to the serial track

From any world on, whatever is asked of an indexer, its course mirrors the serial track: this
is kept by every lull and by every single step of a track, and a request is made of lulls and
steps.  Hosts and callers may tell of no blocks but those of one tree; beyond that the hosts
may fail at any call, cut the work short, and call any branch the best.

A host may cut the work short at any of its calls.  So what is said of the world that a request
leaves behind is said of the world at every call as well.
-/

namespace ChainIndex

/-!
# Mirrored worlds
-/

/-- Since the start the course has mirrored the serial track, and nothing has been heard of
that is not in the tree. -/
structure Mirrored (tree : BlockTree) (start world : World σ) : Prop where
  told : ∃ said, world.course = said ++ start.course ∧
    Mirrors tree start.frontier.serial said world.frontier.serial
  announced : ∀ block ∈ world.intake.announced, block ∈ tree
  queued : ∀ block ∈ world.inbox.queue, block ∈ tree

theorem Host.Agrees.notified {host : Host σ} {tree : BlockTree} {signal : Signal}
    (h : host.Agrees tree) (hsends : host.Sends signal) : signal.Fits tree := by
  cases hsends with
  | @block place outside hsignal =>
      cases place with
      | byHash hash => exact (h.byHash hash outside).2 signal hsignal
      | byHeight height => exact (h.byHeight height outside).2 signal hsignal
  | header hsignal => exact (h.header _ _).2 signal hsignal
  | best hsignal => exact (h.bestHash _).2 signal hsignal
  | batch hsignal => exact (h.accept _ _).2 signal hsignal
  | read hsignal => exact (h.outages _).2 signal hsignal

namespace Mirrored

variable {tree : BlockTree} {host : Host σ} {start world after : World σ} {track : Track}
variable {block : Block} {direction : Direction} {pointer : Pointer} {asked : List Entry}

theorem refl (hannounced : ∀ block ∈ start.intake.announced, block ∈ tree)
    (hqueued : ∀ block ∈ start.inbox.queue, block ∈ tree) : Mirrored tree start start :=
  ⟨⟨[], rfl, .begin⟩, hannounced, hqueued⟩

theorem changed (h : Mirrored tree start world) (hcourse : after.course = world.course)
    (hserial : after.frontier.serial = world.frontier.serial)
    (hannounced : ∀ block ∈ after.intake.announced, block ∈ tree)
    (hqueued : ∀ block ∈ after.inbox.queue, block ∈ tree) : Mirrored tree start after := by
  refine ⟨?_, hannounced, hqueued⟩
  rw [hcourse, hserial]
  exact h.told

theorem record (h : Mirrored tree start world) (entry : Entry) (haside : entry.IsAside) :
    Mirrored tree start (world.record entry) := by
  rcases h.told with ⟨said, hcourse, hmirrors⟩
  exact ⟨⟨entry :: said, congrArg (entry :: ·) hcourse, .aside hmirrors haside⟩, h.announced,
    h.queued⟩

theorem enter (h : Mirrored tree start world) (phase : Phase) :
    Mirrored tree start { world.record (.entered phase) with phase := phase } :=
  (h.record (.entered phase) (.of_not_deed rfl)).changed rfl rfl h.announced h.queued

theorem lull (h : Mirrored tree start world) (hagrees : host.Agrees tree)
    (hlull : Lull host world after) : Mirrored tree start after where
  told := by
    rcases h.told with ⟨said, hcourse, hmirrors⟩
    rcases hlull.course with ⟨more, hmore, hquiet⟩
    refine ⟨more ++ said, by rw [hmore, hcourse, List.append_assoc], ?_⟩
    rw [hlull.frontier]
    exact hmirrors.aside_all fun entry hentry => .of_not_deed (hquiet entry hentry)
  announced := by
    rw [hlull.intake]
    exact h.announced
  queued := by
    intro block hblock
    rcases hlull.queued block hblock with hblock | hsent
    · exact h.queued block hblock
    · exact hagrees.notified hsent

/-!
# Steps
-/

theorem landed_concurrent (h : Mirrored tree start world) (own : List Edit) (pointer : Pointer) :
    Mirrored tree start (world.landed .concurrent own pointer) := by
  have haside : (Entry.batch (own ++ [Frontier.edit .concurrent pointer]) (.ok ())).IsAside :=
    ⟨Entry.landing?_concurrent own pointer, by simp⟩
  exact (h.record _ haside).changed rfl rfl h.announced h.queued

theorem stepped_serial (h : Mirrored tree start world) (own : List Edit) (hblock : block ∈ tree)
    (hpointer : Act.destination block direction = .ok pointer)
    (hmeets : block.Meets world.frontier.serial direction) :
    Mirrored tree start (world.stepped .serial own block direction pointer) := by
  rcases h.told with ⟨said, hcourse, hmirrors⟩
  refine ⟨⟨_ :: _ :: said, ?_, .move hmirrors (Entry.landing?_serial own pointer) ?_
    (BlockTree.follow?_report hblock hpointer hmeets)⟩, h.announced, h.queued⟩
  · exact congrArg (_ :: _ :: ·) hcourse
  · cases direction <;> rfl

theorem stepped (h : Mirrored tree start world) (hagrees : host.Agrees tree)
    (hstepped : Stepped host asked track block direction world after) (hblock : block ∈ tree)
    (hmeets : block.Meets (world.frontier.tip track) direction) : Mirrored tree start after := by
  cases hstepped with
  | @step heard outages own pointer hasks _ _ hpointer =>
      have hheard := h.lull hagrees hasks.lull
      cases track with
      | concurrent => exact hheard.landed_concurrent own pointer
      | serial =>
          rw [← hasks.frontier] at hmeets
          exact hheard.stepped_serial own hblock hpointer hmeets

theorem drained (h : Mirrored tree start world) : Mirrored tree start world.drained := by
  refine h.changed rfl rfl ?_ (by simp [World.drained])
  intro block hblock
  replace hblock : (Following.drain world.inbox world.intake).announced = some block := hblock
  rw [drain_eq] at hblock
  rcases Option.or_eq_some_iff.mp hblock with hlast | ⟨_, hkept⟩
  · exact h.queued block (List.mem_of_getLast? hlast)
  · exact h.announced block hkept

theorem keepsSwitch (hagrees : host.Agrees tree) :
    Switching.Keeps host (Mirrored tree start) fun _ => Mirrored tree start where
  halts h := h
  asks _ hasks h := h.lull hagrees hasks.lull
  step := by
    intro track hash block direction world after _ hfinds hfits hstepped h
    rcases hagrees.finds hfinds with ⟨hblock, hhash⟩
    refine h.stepped hagrees hstepped hblock ?_
    cases direction with
    | undo => exact hhash.trans hfits
    | apply => exact (Block.extends?_eq_true.mp hfits).2
  hinder _ hasks _ h := h.lull hagrees hasks.lull
  switched h := h.record _ (.of_event rfl)

end Mirrored

/-!
# Forward sync

Besides, the blocks in flight are blocks of the tree, and they are linked.
-/

structure Climbing (tree : BlockTree) (start world : World σ) : Prop
    extends Mirrored tree start world where
  linked : Forward.Links world
  fetched : ∀ block ∈ world.intake.inFlight, block ∈ tree

namespace Climbing

variable {tree : BlockTree} {host : Host σ} {start world after : World σ} {kept : Intake}
variable {asked : List Entry}

theorem announced_left (h : Climbing tree start world)
    (hleft : kept.announced = none ∨ kept.announced = world.intake.announced) :
    ∀ block ∈ kept.announced, block ∈ tree := by
  rcases hleft with hleft | hleft
  · rw [hleft]
    simp
  · rw [hleft]
    exact h.announced

theorem fetchStep (hagrees : host.Agrees tree)
    (hstep : Forward.FetchStep host world.intake asked kept)
    (hasks : Asks host asked { world with intake := kept } after) (h : Climbing tree start world) :
    Climbing tree start after where
  toMirrored := by
    have hkept : Mirrored tree start { world with intake := kept } :=
      h.toMirrored.changed rfl rfl (h.announced_left hstep.announced) h.queued
    exact hkept.lull hagrees hasks.lull
  linked := h.linked.fetched hstep hasks
  fetched := by
    rw [hasks.intake]
    cases hstep with
    | taken _ _ _ hoffers _ _ =>
        intro other hother
        rcases List.mem_append.mp hother with hother | hother
        · exact h.fetched other hother
        · rw [List.mem_singleton.mp hother]
          exact hoffers.mem hagrees h.announced
    | _ => exact h.fetched

theorem groupStep (hagrees : host.Agrees tree) (hstep : Forward.GroupStep host world after)
    (h : Climbing tree start world) : Climbing tree start after := by
  have hlinked := h.linked.grouped hstep
  cases hstep with
  | idle _ => exact h
  | @grouped last edits _ _ _ _ _ _ hasks =>
      have hheard := h.toMirrored.lull hagrees hasks.lull
      have hlanded := hheard.landed_concurrent edits last.pointer
      exact ⟨hlanded.changed rfl rfl h.announced hheard.queued, hlinked, h.fetched⟩

theorem serialStep (hagrees : host.Agrees tree) (hstep : Forward.SerialStep host world after)
    (h : Climbing tree start world) : Climbing tree start after := by
  have hlinked := h.linked.committed hstep
  cases hstep with
  | idle _ => exact h
  | @committed block moved hnext hstepped =>
      rcases Forward.nextSerial?_eq_some hnext with ⟨_, rest, hrest⟩
      have hmoved := h.toMirrored.stepped hagrees hstepped
        (h.fetched block (by rw [hrest]; exact List.mem_cons_self)) (h.linked.parent_eq hrest)
      have hpassed : Mirrored tree start
          { moved with
            intake := { moved.intake with
              inFlight := moved.intake.inFlight.tail
              grouped := moved.intake.grouped - 1 } } :=
        hmoved.changed rfl rfl hmoved.announced hmoved.queued
      refine ⟨hpassed.record _ (.of_event rfl), hlinked, ?_⟩
      cases hstepped with
      | @step heard _ _ _ hasks _ _ _ =>
          show ∀ block ∈ heard.intake.inFlight.tail, block ∈ tree
          rw [hasks.intake]
          exact fun other hother => h.fetched other (List.mem_of_mem_tail hother)

theorem finishes (h : Climbing tree start world) {outcome : Forward.Outcome}
    (hfinishes : Forward.Finishes world outcome after) : Mirrored tree start after := by
  cases hfinishes with
  | forked _ => exact h.toMirrored
  | synced _ => exact h.toMirrored.record _ (.of_event rfl)

theorem keeps (hagrees : host.Agrees tree) (start : World σ) :
    Forward.StagesKeep host (Climbing tree start) fun _ => Mirrored tree start where
  fetched := fetchStep hagrees
  grouped := groupStep hagrees
  committed := serialStep hagrees
  fetchHalt := by
    intro _ kept _ world _ _ hhalt hasks h
    have hkept : Mirrored tree start { world with intake := kept } :=
      h.toMirrored.changed rfl rfl (h.announced_left hhalt.announced) h.queued
    exact hkept.lull hagrees hasks.lull
  groupHalt hhalt h := by
    cases hhalt with
    | declined _ _ _ hasks | refused _ _ hasks => exact h.toMirrored.lull hagrees hasks.lull
  serialHalt hhalt h := by
    cases hhalt with
    | hindered _ _ hasks => exact h.toMirrored.lull hagrees hasks.lull

end Climbing

namespace Mirrored

variable {tree : BlockTree} {host : Host σ} {start world : World σ}

section

variable (hagrees : host.Agrees tree)
include hagrees

theorem forward (h : Mirrored tree start world) :
    (Forward.run host).Yields world (fun _ => Mirrored tree start)
      fun _ => Mirrored tree start := by
  refine Forward.run_of_turns (fun _ => h) (fun _ _ => h) fun next _ _ => ?_
  refine (Climbing.keeps hagrees start).turns ?_ ?_ (fun _ hnow => hnow.toMirrored) _
  · exact ⟨h.changed rfl rfl h.announced h.queued, .stay _, by simp [Forward.reset]⟩
  · intro now outcome after hnow hends
    cases hends with
    | stopped _ => exact hnow.toMirrored
    | finished _ hleft hfinishes => exact hleft.finishes hfinishes

/-!
# Whole requests
-/

theorem keepsSync :
    Following.SyncKeeps host (Mirrored tree start) fun _ => Mirrored tree start where
  toKeeps := keepsSwitch hagrees
  entered h := h.enter _
  drained h := h.drained
  forward h := h.forward hagrees
  stopped _ h := h

omit hagrees in
theorem keepsRun : Following.RunKeeps (Mirrored tree start) where
  enter phase h := h.enter phase
  failed _ h := h.record _ (.of_event rfl)
  noticed := by
    intro world block rest hqueue h
    have hqueued := h.queued
    rw [hqueue] at hqueued
    refine h.changed rfl rfl ?_ fun other hother => hqueued other (List.mem_cons_of_mem _ hother)
    intro other hother
    cases hother
    exact hqueued block List.mem_cons_self

theorem run : (Following.run host).Preserves (Mirrored tree start) :=
  fun _ => keepsRun.run (fun _ => (keepsSync hagrees).sync) (fun _ _ h => h) fun _ h => h

theorem resume : (Following.resume host).Preserves (Mirrored tree start) :=
  fun _ => keepsRun.resume (fun _ => (keepsSync hagrees).sync) (fun _ _ h => h) fun _ h => h

theorem request {request : Request} (hfits : request.Fits tree)
    (hopen : ∀ settings, request ≠ .start settings) :
    (request.act host).Preserves (Mirrored tree start) := by
  cases request with
  | start settings => exact absurd rfl (hopen settings)
  | announce block =>
      refine Act.preserves_change fun world h => h.changed rfl rfl ?_ h.queued
      intro other hother
      cases hother
      exact hfits
  | send signal =>
      refine Act.preserves_change fun world h => ?_
      have hsignal : (Terms.loose tree host.catalogue).Admits signal := by
        cases signal with
        | notify block => exact hfits
        | stop wanted => exact False.elim
        | release => trivial
      exact (h.record (.signalled signal) (.of_not_deed rfl)).changed rfl rfl h.announced
        (Stands.queued_receive h.queued hsignal)
  | shutdown => exact Act.preserves_change fun world h => h.changed rfl rfl h.announced h.queued
  | sync =>
      exact Act.Preserves.bind (fun _ => (keepsSync hagrees).sync) fun _ => Act.preserves_pure _
  | run => exact Act.Preserves.bind (run hagrees) fun _ => Act.preserves_pure _
  | resume => exact Act.Preserves.bind (resume hagrees) fun _ => Act.preserves_pure _
  | round forkSeen =>
      exact Act.Preserves.bind (fun _ h => (keepsSync hagrees).syncTurn h forkSeen) fun _ =>
        Act.preserves_pure _
  | takeNotices => exact Act.preserves_change fun _ h => h.drained
  | enter phase => exact Act.preserves_change fun _ h => h.enter phase

end

end Mirrored

/-!
# Runs
-/

/-- The worlds that an open indexer may be led to from the given one.  Each request may meet
another host. -/
inductive Continues (tree : BlockTree) (start : World σ) : World σ → Prop where
  | stay : Continues tree start start
  | asked {host : Host σ} {request : Request} {world : World σ} :
      Continues tree start world → host.Agrees tree → request.Fits tree →
      (∀ settings, request ≠ .start settings) →
      Continues tree start ((request.act host).perform world).2

theorem Continues.mirrored {tree : BlockTree} {start world : World σ}
    (h : Continues tree start world)
    (hannounced : ∀ block ∈ start.intake.announced, block ∈ tree)
    (hqueued : ∀ block ∈ start.inbox.queue, block ∈ tree) : Mirrored tree start world := by
  induction h with
  | stay => exact .refl hannounced hqueued
  | asked _ hagrees hfits hopen ih =>
      exact (Mirrored.request hagrees hfits hopen _ ih).left

/-- Each batch of the serial track that lands is told of at once by an event, and no other event
tells of a move.  Whoever follows the events from the serial tip on is never stuck, and is at the
serial tip whenever no such event is due. -/
theorem events_mirror_serial_track {tree : BlockTree} {start world : World σ}
    (hannounced : ∀ block ∈ start.intake.announced, block ∈ tree)
    (hqueued : ∀ block ∈ start.inbox.queue, block ∈ tree) (h : Continues tree start world) :
    ∃ said, world.course = said ++ start.course ∧
      world.frontier.serial = serialTipAfter start.frontier.serial said ∧
      (∀ newer entry older, said = newer ++ entry :: older → entry.landing? ≠ none →
        ∃ rest event, newer = rest ++ [.emitted event] ∧ event.isMove = true) ∧
      (∀ newer event older, said = newer ++ .emitted event :: older → event.isMove = true →
        ∃ entry rest, older = entry :: rest ∧ entry.landing? ≠ none) ∧
      ∀ older, older <:+ said → (∀ entry ∈ older.head?, entry.landing? = none) →
        tree.followAll start.frontier.serial (reports older) =
          some (serialTipAfter start.frontier.serial older) := by
  rcases (h.mirrored hannounced hqueued).told with ⟨said, hcourse, hmirrors⟩
  refine ⟨said, hcourse, hmirrors.serialTipAfter_eq.symm, ?_, ?_, ?_⟩
  · intro newer entry older hsaid hlanding
    exact hmirrors.told hsaid hlanding
  · intro newer event older hsaid hmove
    exact hmirrors.landed hsaid hmove
  · intro older holder hdone
    rcases hmirrors.earlier holder hdone with ⟨tip, hbefore⟩
    rw [hbefore.followAll_eq, hbefore.serialTipAfter_eq]

/-- The indexer takes in the block beside the best chain and leaves it for the best chain; the
events lead whoever follows them the same way. -/
theorem events_mirror_serial_track_of_sample :
    (∀ block ∈ Sample.told.intake.announced, block ∈ Sample.tree) ∧
    (∀ block ∈ Sample.told.inbox.queue, block ∈ Sample.tree) ∧
    Continues Sample.tree Sample.told Sample.synced ∧
    ∃ said, Sample.synced.course = said ++ Sample.told.course ∧
      moves said = [.added "x" 1, .removed "x" 1, .added "a" 1, .added "b" 2] ∧
      Sample.tree.followAll Sample.genesis.pointer (reports said) =
        some Sample.second.pointer := by
  have hannounced : ∀ block ∈ Sample.told.intake.announced, block ∈ Sample.tree := by
    decide +kernel
  have hqueued : ∀ block ∈ Sample.told.inbox.queue, block ∈ Sample.tree := by decide +kernel
  have hcontinues : Continues Sample.tree Sample.told Sample.synced :=
    .asked .stay (Sample.within.agrees Sample.catalogue) trivial fun settings => by simp
  rcases events_mirror_serial_track hannounced hqueued hcontinues with
    ⟨said, hcourse, htip, _, _, hfollow⟩
  have hreports : reports said = reports Sample.synced.course :=
    (reports_append (by decide +kernel)).symm.trans (congrArg reports hcourse).symm
  have hmoves : moves Sample.synced.course =
      [.added "x" 1, .removed "x" 1, .added "a" 1, .added "b" 2] := by
    decide +kernel
  have hstart : Sample.told.frontier.serial = Sample.genesis.pointer := by decide +kernel
  have hend : Sample.synced.frontier.serial = Sample.second.pointer := by decide +kernel
  have hlast : Sample.synced.course.head?.bind Entry.landing? = none := by decide +kernel
  have hdone : ∀ entry ∈ said.head?, entry.landing? = none := by
    intro entry hentry
    have hfirst (rest : List Entry) : (said ++ rest).head? = some entry := by
      rw [List.head?_append, Option.mem_def.mp hentry, Option.some_or]
    have hhead := (congrArg List.head? hcourse).trans (hfirst _)
    exact (congrArg (Option.bind · Entry.landing?) hhead).symm.trans hlast
  refine ⟨hannounced, hqueued, hcontinues, said, hcourse,
    (congrArg (List.filter Event.isMove) hreports).trans hmoves, ?_⟩
  calc Sample.tree.followAll Sample.genesis.pointer (reports said)
      = Sample.tree.followAll Sample.told.frontier.serial (reports said) :=
        congrArg (Sample.tree.followAll · (reports said)) hstart.symm
    _ = some (serialTipAfter Sample.told.frontier.serial said) :=
        hfollow said (List.suffix_refl said) hdone
    _ = some Sample.synced.frontier.serial := congrArg some htip.symm
    _ = some Sample.second.pointer := congrArg some hend

end ChainIndex
