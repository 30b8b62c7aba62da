import ChainIndex.Proofs.Accounts
import ChainIndex.Proofs.FaithfulEvents

/-!
# Attention

A follower that waits with nothing left in its queue, and whose last sync came to its end, has
asked for the best hash after everything it has been told, and stands at the answer.  For a
notification that comes while forward sync is under way stays in the queue until the run is at
rest, even if it crowds out others; and forward sync does not end as synced before the host has
named the newest block.

Nothing is assumed of the host.
-/

namespace ChainIndex

def Entry.isNotice : Entry → Bool
  | .signalled (.notify _) => true
  | _ => false

theorem Act.yields_of_forall {act : Act σ α} {world : World σ} {ended : α → World σ → Prop}
    (h : ∀ a after, ended a after) : act.Yields world ended fun _ _ => True := by
  unfold Yields
  generalize act.perform world = outcome
  rcases outcome with ⟨result, after⟩
  cases result with
  | ok a => exact h a after
  | error cause => trivial

theorem Act.Yields.of_ok {act : Act σ α} {world : World σ} {ended : α → World σ → Prop}
    {halted : Halt → World σ → Prop} (h : act.Yields world ended halted) {a : α}
    (hok : (act.perform world).1 = .ok a) : ended a (act.perform world).2 := by
  unfold Yields at h
  generalize act.perform world = outcome at h hok ⊢
  rcases outcome with ⟨result, after⟩
  cases hok
  exact h

/-!
# Nothing leaves the queue
-/

namespace Inbox

variable {inbox : Inbox} {signal : Signal} {entry : Entry} {said : List Entry}

theorem capacity_receive (inbox : Inbox) (signal : Signal) :
    (inbox.receive signal).capacity = inbox.capacity := by
  unfold receive
  split
  · cases signal with
    | notify block =>
        dsimp only
        split <;> rfl
    | _ => rfl
  · rfl

theorem attached_of_receive (h : (inbox.receive signal).attached = true) :
    inbox.attached = true := by
  unfold receive at h
  split at h
  · assumption
  · exact h

theorem queue_of_receive (hroom : 0 < inbox.capacity) (hempty : (inbox.receive signal).queue = []) :
    inbox.queue = [] ∧ (inbox.attached = true → ∀ block, signal ≠ .notify block) := by
  unfold receive at hempty
  split at hempty
  · rename_i hattached
    cases signal with
    | notify block =>
        dsimp only at hempty
        split at hempty
        · simp at hempty
        · rename_i hfull
          rw [hempty] at hfull
          exact absurd hroom hfull
    | _ => exact ⟨hempty, fun _ block => by simp⟩
  · rename_i hgone
    exact ⟨hempty, fun hattached => absurd hattached hgone⟩

theorem capacity_heard (inbox : Inbox) (said : List Entry) :
    (inbox.heard said).capacity = inbox.capacity := by
  induction said with
  | nil => rfl
  | cons entry older ih =>
      cases entry with
      | signalled signal => exact (capacity_receive _ signal).trans ih
      | _ => exact ih

theorem silent_of_heard (hroom : 0 < inbox.capacity) (hempty : (inbox.heard said).queue = [])
    (hattached : (inbox.heard said).attached = true) : ∀ entry ∈ said, entry.isNotice = false := by
  induction said with
  | nil => simp
  | cons entry older ih =>
      cases entry with
      | signalled signal =>
          have hroom' : 0 < (inbox.heard older).capacity := by rwa [capacity_heard]
          have hthere := attached_of_receive hattached
          rcases queue_of_receive hroom' hempty with ⟨hbefore, hsignal⟩
          refine List.forall_mem_cons.mpr ⟨?_, ih hbefore hthere⟩
          cases signal with
          | notify block => exact absurd rfl (hsignal hthere block)
          | _ => rfl
      | _ => exact List.forall_mem_cons.mpr ⟨rfl, ih hempty hattached⟩

end Inbox

/-!
# The last question
-/

/-- Of all answers to the question for the best hash this is the last one. -/
def Heeded (best : BlockHash) (said : List Entry) : Prop :=
  ∃ newer older, said = newer ++ .askedBest (.ok best) :: older ∧
    ∀ entry ∈ newer, entry.asksBest = false

theorem Heeded.append {best : BlockHash} {said more : List Entry} (h : Heeded best said)
    (hmore : ∀ entry ∈ more, entry.asksBest = false) : Heeded best (more ++ said) := by
  rcases h with ⟨newer, older, rfl, hnewer⟩
  refine ⟨more ++ newer, older, by rw [List.append_assoc], ?_⟩
  intro entry hentry
  rcases List.mem_append.mp hentry with hentry | hentry
  · exact hmore entry hentry
  · exact hnewer entry hentry

theorem asksBest_of_marks {said : List Entry} {most : List Mark} (h : (marks said).Sublist most)
    (hmost : Mark.best ∉ most) : ∀ entry ∈ said, entry.asksBest = false := by
  intro entry hentry
  cases entry with
  | askedBest answer =>
      have hmem : Mark.best ∈ marks said := List.mem_filterMap.mpr ⟨_, hentry, rfl⟩
      exact absurd (h.subset hmem) hmost
  | _ => rfl

theorem Heeded.append_past {best : BlockHash} {said : List Entry} (h : Heeded best said)
    (past : List Entry) : Heeded best (said ++ past) := by
  rcases h with ⟨newer, older, rfl, hnewer⟩
  exact ⟨newer, older ++ past, by rw [List.append_assoc, List.cons_append], hnewer⟩

theorem asksBest_of_answers {said : List Entry}
    (h : ∀ entry ∈ answers said, entry.asksBest = false) :
    ∀ entry ∈ said, entry.asksBest = false := by
  intro entry hentry
  rcases mem_answers hentry with hentry | ⟨signal, rfl⟩
  · exact h entry hentry
  · rfl

theorem Heeded.of_answers {best : BlockHash} {said : List Entry}
    (h : answers said = [.askedBest (.ok best)]) : Heeded best said := by
  rcases List.filter_eq_cons_iff.mp h with ⟨newer, older, rfl, hnewer, _, _⟩
  refine ⟨newer, older, rfl, asksBest_of_answers ?_⟩
  intro entry hentry
  rcases List.mem_filter.mp hentry with ⟨hentry, hanswer⟩
  exact absurd hanswer (hnewer entry hentry)

/-!
# Forward sync
-/

namespace Forward

theorem FetchStep.heeds {host : Host σ} {intake kept : Intake} {asked : List Entry}
    (hstep : FetchStep host intake asked kept) (hover : kept.exhausted = true)
    (hfork : kept.forkAt = none) :
    asked = [] ∧ kept = intake ∨ asked = [.askedBest (.ok kept.lastHash)] := by
  cases hstep with
  | stalled _ => exact Or.inl ⟨rfl, rfl⟩
  | taken hopen _ _ _ _ _ => cases (exhausted_of_not_stalled hopen).symm.trans hover
  | caughtUp _ _ => exact Or.inr rfl
  | missing _ _ _ _ _ => cases hfork
  | apart _ _ _ _ _ => cases hfork

structure Listening (start world : World σ) : Prop where
  linked : Links world
  said : ∃ said, world.course = said ++ start.course ∧ world.inbox = start.inbox.heard said ∧
    (world.intake.exhausted = true → world.intake.forkAt = none →
      Heeded world.intake.lastHash said)

namespace Listening

variable {host : Host σ} {start world after : World σ}

theorem fetchStep {asked : List Entry} {kept : Intake}
    (hstep : FetchStep host world.intake asked kept)
    (hasks : Asks host asked { world with intake := kept } after) (h : Listening start world) :
    Listening start after where
  linked := h.linked.fetched hstep hasks
  said := by
    rcases h.said with ⟨said, hcourse, hinbox, hheeded⟩
    rcases hasks.course with ⟨more, hcourse', hinbox', rfl, _⟩
    refine ⟨more ++ said, ?_, ?_, ?_⟩
    · rw [hcourse', List.append_assoc, ← hcourse]
    · rw [hinbox', Inbox.heard_append, ← hinbox]
    · rw [hasks.intake]
      intro hover hfork
      rcases hstep.heeds hover hfork with ⟨hnone, hkept⟩ | hanswers
      · rw [show kept = world.intake from hkept] at hover hfork ⊢
        refine (hheeded hover hfork).append (asksBest_of_answers ?_)
        rw [hnone]
        exact List.forall_mem_nil _
      · exact (Heeded.of_answers hanswers).append_past said

theorem logged (h : Listening start world) {most : List Mark} (hlogs : world.Logs host most after)
    (hmost : Mark.best ∉ most)
    (hlinked : Links after)
    (hlast : after.intake.lastHash = world.intake.lastHash)
    (hexhausted : after.intake.exhausted = world.intake.exhausted)
    (hfork : after.intake.forkAt = world.intake.forkAt) : Listening start after where
  linked := hlinked
  said := by
    rcases h.said with ⟨said, hcourse, hinbox, hheeded⟩
    rcases hlogs with ⟨more, hmore, _⟩
    refine ⟨more ++ said, ?_, ?_, ?_⟩
    · rw [hmore.course, hcourse, List.append_assoc]
    · rw [hmore.inbox, hinbox, Inbox.heard_append]
    · rw [hlast, hexhausted, hfork]
      exact fun hover hnone => (hheeded hover hnone).append (asksBest_of_marks hmore.marks hmost)

theorem groupStep (hstep : GroupStep host world after) (h : Listening start world) :
    Listening start after := by
  have hlogs := hstep.logs
  have hlinked := h.linked.grouped hstep
  cases hstep with
  | idle _ => exact h
  | grouped _ _ _ _ _ => exact h.logged hlogs (by decide) hlinked rfl rfl rfl

theorem serialStep (hstep : SerialStep host world after) (h : Listening start world) :
    Listening start after := by
  have hlogs := hstep.logs
  have hlinked := h.linked.committed hstep
  cases hstep with
  | idle _ => exact h
  | committed _ hstepped =>
      cases hstepped with
      | step hasks _ _ _ =>
          have hlast := congrArg Intake.lastHash hasks.intake
          have hexhausted := congrArg Intake.exhausted hasks.intake
          have hfork := congrArg Intake.forkAt hasks.intake
          exact h.logged hlogs (by decide) hlinked hlast hexhausted hfork

theorem keeps (host : Host σ) (start : World σ) :
    StagesKeep host (Listening start) fun _ _ => True where
  fetched := fetchStep
  grouped := groupStep
  committed := serialStep
  fetchHalt _ _ _ _ := trivial
  groupHalt _ _ := trivial
  serialHalt _ _ := trivial

end Listening

end Forward

def UpToDate (start world : World σ) : Prop :=
  ∃ said, world.course = said ++ start.course ∧ world.inbox = start.inbox.heard said ∧
    Heeded world.frontier.serial.hash said

theorem UpToDate.record {start world : World σ} (h : UpToDate start world) {entry : Entry}
    (hasks : entry.asksBest = false) (hheard : world.inbox.hear entry = world.inbox) :
    UpToDate start (world.record entry) := by
  rcases h with ⟨said, hcourse, hinbox, hheeded⟩
  have hmore : ∀ other ∈ [entry], other.asksBest = false := by simpa using hasks
  refine ⟨entry :: said, congrArg (entry :: ·) hcourse, ?_, hheeded.append hmore⟩
  show world.inbox = (start.inbox.heard said).hear entry
  rw [← hinbox, hheard]

namespace Forward

variable {host : Host σ} {start world : World σ}

theorem Listening.finished (h : Listening start world) (hover : isOver world.intake = true)
    {outcome : Outcome} {after : World σ} (hfinishes : Finishes world outcome after) :
    ∀ tip, outcome = .synced tip → UpToDate start after := by
  have hover : world.intake.exhausted = true ∧ world.intake.inFlight = [] := by
    simpa [isOver] using hover
  intro tip htip
  cases hfinishes with
  | forked _ => cases htip
  | synced hfork =>
      have hlinked : Linked _ _ _ := h.linked
      rw [hover.2] at hlinked
      rcases h.said with ⟨said, hcourse, hinbox, hheeded⟩
      have hcurrent : UpToDate start world :=
        ⟨said, hcourse, hinbox, hlinked.eq_of_nil ▸ hheeded hover.1 hfork⟩
      exact hcurrent.record rfl rfl

/-- Forward sync that ends as synced has asked for the best hash since it began. -/
theorem run_heeds (host : Host σ) (world : World σ) :
    (run host).Yields world (fun outcome after => ∀ tip, outcome = .synced tip →
      UpToDate world after) fun _ _ => True := by
  refine run_of_turns (fun _ => trivial) (fun _ _ => trivial) fun next hlevel _ => ?_
  refine (Listening.keeps host world).turns ?_ ?_ (fun _ _ => trivial) _
  · refine ⟨.stay _, [], rfl, rfl, fun hover => ?_⟩
    cases hover
  · intro now outcome after _ hends
    cases hends with
    | stopped _ => exact fun tip htip => by cases htip
    | finished hover hleft hfinishes => exact hleft.finished hover hfinishes

end Forward

/-!
# Syncs
-/

def Current (world : World σ) : Prop :=
  ∃ start : World σ, (∃ phase past, start.course = .entered phase :: past) ∧ UpToDate start world

theorem Current.enter {world : World σ} (h : Current world) (phase : Phase) :
    Current { world.record (.entered phase) with phase := phase } := by
  rcases h with ⟨start, hstart, hdate⟩
  exact ⟨start, hstart, hdate.record rfl rfl⟩

namespace Following

variable {host : Host σ} {world : World σ}

theorem cycle_heeds (host : Host σ) (forkSeen : Bool) (world : World σ) :
    (cycle host forkSeen).Yields world (fun outcome after => ∀ tip, outcome = .synced tip →
      Current after) fun _ _ => True := by
  refine cycle_of_parts (Act.yields_of_forall fun _ aligned => ?_)
  refine Act.yields_of_forall fun _ switched => ?_
  refine (Forward.run_heeds host (switched.entered .syncing)).imp ?_
  intro outcome after hafter tip htip
  exact ⟨_, ⟨.syncing, switched.course, rfl⟩, hafter tip htip⟩

theorem syncTurn_heeds (host : Host σ) (forkSeen : Bool) (world : World σ) :
    (syncTurn host forkSeen).Yields world
      (fun result after => result.Is (fun _ => True) fun _ => after.phase = .synced →
        Current after) fun _ _ => True := by
  refine syncTurn_of_cycle (fun _ hphase => by cases hphase) fun _ => ?_
  refine (cycle_heeds host forkSeen world.drained).mono ?_ ?_
  · intro outcome after hafter
    cases outcome with
    | synced tip => exact fun _ => (hafter tip rfl).enter .synced
    | forked height => trivial
    | stopped tip =>
        intro hphase
        cases hphase
  · intro cause after _
    refine ⟨fun _ => ?_, fun _ => trivial⟩
    intro hphase
    cases hphase

theorem sync_heeds (host : Host σ) (world : World σ) :
    (sync host).Yields world (fun _ after => after.phase = .synced → Current after)
      fun _ _ => True := by
  refine Act.yields_turns (fun _ _ _ => True) ?_ (fun _ _ _ => trivial) trivial
  intro _ forkSeen now _
  exact syncTurn_heeds host forkSeen now

/-!
# The run
-/

def Waits (result : Turn Unit Rest) (world after : World σ) : Prop :=
  result = .done .waiting → after = world ∧ world.inbox.attached = true

theorem Wakes.waits {result : Turn Unit Rest} {after : World σ} (h : Wakes world result after) :
    Waits result world after := by
  intro hwaits
  subst hwaits
  cases h with
  | waiting _ hattached _ => exact ⟨rfl, hattached⟩

def Watchful (rest : Rest) (world : World σ) : Prop :=
  rest = .waiting → world.phase = .synced → world.inbox.attached = true ∧ Current world

theorem fault?_eq_none_of_synced (h : (reported host world).phase = .synced) :
    fault? host world = none := by
  unfold reported at h
  cases hfault : fault? host world with
  | none => rfl
  | some cause =>
      rw [hfault, Option.elim_some, told, phaseAfter] at h
      cases hfatal : cause.isFatal <;> simp [hfatal] at h

theorem Harmless.current (h : Harmless host world)
    (hsynced : (reported host world).phase = .synced) : Current (reported host world) := by
  have hnone := fault?_eq_none_of_synced hsynced
  rcases h.exists_perform hnone with ⟨tip, hperform⟩
  have hreported : reported host world = left host world := by
    rw [reported, hnone, Option.elim_none]
  have hheeds := sync_heeds host world
  unfold Act.Yields at hheeds
  rw [hperform] at hheeds
  rw [hreported] at hsynced ⊢
  exact hheeds hsynced

theorem Takes.watchful {result : Turn Unit Rest} {after : World σ}
    (h : Takes host world result after) :
    result.Is (fun _ => True) (Watchful · after) := by
  cases h with
  | fatal _ _ => exact fun hwaits => by cases hwaits
  | stopping _ _ => exact fun hwaits => by cases hwaits
  | woken hharmless _ hwakes =>
      cases result with
      | again _ => trivial
      | done rest =>
          intro hrest hphase
          subst hrest
          rcases hwakes.waits rfl with ⟨rfl, hattached⟩
          exact ⟨hattached, hharmless.current hphase⟩

theorem runTurn_watchful (host : Host σ) (world : World σ) :
    (runTurn host ()).Yields world (fun result after => result.Is (fun _ => True)
      (Watchful · after)) fun _ _ => True := by
  cases hwanted : world.inbox.stopWanted with
  | true =>
      unfold Act.Yields
      rw [runTurn_of_stopWanted hwanted]
      intro hwaits
      cases hwaits
  | false =>
      exact (runTurn_takes hwanted).mono (fun _ _ htakes => htakes.watchful) fun _ _ _ => trivial

theorem run_watchful (host : Host σ) (world : World σ) :
    (run host).Yields world Watchful fun _ _ => True := by
  refine Act.yields_turns (fun _ _ _ => True) ?_ (fun _ _ _ => trivial) trivial
  intro _ _ now _
  exact runTurn_watchful host now

theorem resume_watchful (host : Host σ) (world : World σ) :
    (resume host).Yields world (fun rest after =>
      (rest = .waiting → after = world ∧ world.inbox.attached = true) ∨ Watchful rest after)
      fun _ _ => True := by
  rw [resume, Act.yields_bind]
  refine (wake_wakes world).imp ?_
  intro result woken hwakes
  cases result with
  | again _ =>
      refine (run_watchful host woken).imp ?_
      intro rest after hafter
      exact Or.inr hafter
  | done rest => exact Or.inl fun hrest => hwakes.waits (congrArg Turn.done hrest)

end Following

/-- A run of a follower that comes to rest again and again.  While it waits the world outside
may change, and callers that are still there may send their signals. -/
inductive Runs (host : Host σ) (start : World σ) : Following.Rest → World σ → Prop where
  | begun {rest : Following.Rest} : ((Following.run host).perform start).1 = .ok rest →
      Runs host start rest ((Following.run host).perform start).2
  | elsewhere {world : World σ} (outside : σ) :
      Runs host start .waiting world → Runs host start .waiting { world with outside := outside }
  | heard {world : World σ} (signal : Signal) :
      Runs host start .waiting world → world.inbox.attached = true →
      Runs host start .waiting (world.receive signal)
  | resumed {rest : Following.Rest} {world : World σ} : Runs host start .waiting world →
      ((Following.resume host).perform world).1 = .ok rest →
      Runs host start rest ((Following.resume host).perform world).2

def Attentive (world : World σ) : Prop :=
  ∃ said phase past, world.course = said ++ .entered phase :: past ∧
    (∀ entry ∈ said, entry.isNotice = false) ∧ Heeded world.frontier.serial.hash said

theorem Current.attentive {world : World σ} (h : Current world) (hroom : 0 < world.inbox.capacity)
    (hattached : world.inbox.attached = true) (hempty : world.inbox.queue = []) :
    Attentive world := by
  rcases h with ⟨start, ⟨phase, past, hstart⟩, said, hcourse, hinbox, hheeded⟩
  rw [hinbox] at hroom hattached hempty
  rw [Inbox.capacity_heard] at hroom
  refine ⟨said, phase, past, ?_, Inbox.silent_of_heard hroom hempty hattached, hheeded⟩
  rw [hcourse, hstart]

theorem Attentive.receive {world : World σ} (h : Attentive world) {signal : Signal}
    (hsignal : ∀ block, signal ≠ .notify block) : Attentive (world.receive signal) := by
  rcases h with ⟨said, phase, past, hcourse, hsilent, hheeded⟩
  have hmore : ∀ entry ∈ [Entry.signalled signal], entry.asksBest = false := by
    simp [Entry.asksBest]
  have hlonger := congrArg (Entry.signalled signal :: ·) hcourse
  refine ⟨.signalled signal :: said, phase, past, hlonger, ?_, hheeded.append hmore⟩
  refine List.forall_mem_cons.mpr ⟨?_, hsilent⟩
  cases signal with
  | notify block => exact absurd rfl (hsignal block)
  | _ => rfl

theorem Runs.attentive {host : Host σ} {start world : World σ} {rest : Following.Rest}
    (h : Runs host start rest world) (hwaiting : rest = .waiting)
    (hroom : 0 < world.inbox.capacity) (hempty : world.inbox.queue = [])
    (hsynced : world.phase = .synced) : Attentive world := by
  induction h with
  | begun hrun =>
      have hwatchful := (Following.run_watchful host start).of_ok hrun
      rcases hwatchful hwaiting hsynced with ⟨hattached, hcurrent⟩
      exact hcurrent.attentive hroom hattached hempty
  | elsewhere outside _ ih => exact ih rfl hroom hempty hsynced
  | @heard world signal _ hattached ih =>
      rw [show (world.receive signal).inbox = world.inbox.receive signal from rfl] at hroom hempty
      rw [Inbox.capacity_receive] at hroom
      rcases Inbox.queue_of_receive hroom hempty with ⟨hbefore, hsignal⟩
      exact (ih rfl hroom hbefore hsynced).receive (hsignal hattached)
  | @resumed rest world _ hresume ih =>
      have hwatchful := (Following.resume_watchful host world).of_ok hresume
      rcases hwatchful with hsame | hwatchful
      · rw [(hsame hwaiting).1] at hroom hempty hsynced ⊢
        exact ih rfl hroom hempty hsynced
      · rcases hwatchful hwaiting hsynced with ⟨hattached, hcurrent⟩
        exact hcurrent.attentive hroom hattached hempty

/-- Where a run waits with an empty queue and its last sync has come to its end, the host has been
asked for the best hash after the last announcement, and the serial tip is the last answer. -/
theorem no_announcement_is_lost {host : Host σ} {start world : World σ}
    (h : Runs host start .waiting world) (hroom : 0 < world.inbox.capacity)
    (hempty : world.inbox.queue = []) (hsynced : world.phase = .synced) :
    ∃ newer older phase past,
      world.course = newer ++ .askedBest (.ok world.frontier.serial.hash) ::
        (older ++ .entered phase :: past) ∧
      (∀ entry ∈ newer ++ older, entry.isNotice = false) ∧
      ∀ entry ∈ newer, entry.asksBest = false := by
  rcases h.attentive rfl hroom hempty hsynced with
    ⟨said, phase, past, hcourse, hsilent, newer, older, rfl, hnewer⟩
  refine ⟨newer, older, phase, past, ?_, ?_, hnewer⟩
  · rw [hcourse, List.append_assoc, List.cons_append]
  · intro entry hentry
    rcases List.mem_append.mp hentry with hentry | hentry
    · exact hsilent entry (List.mem_append_left _ hentry)
    · exact hsilent entry (List.mem_append_right _ (List.mem_cons_of_mem _ hentry))

namespace Sample

def waiting : World Unit := ((Following.run host).perform opened).2

def noticed : World Unit := waiting.receive (.notify beside)

def rested : World Unit := ((Following.resume host).perform noticed).2

theorem runs_waiting : Runs host opened .waiting waiting :=
  .begun (by decide +kernel)

theorem runs_noticed : Runs host opened .waiting noticed :=
  .heard (.notify beside) runs_waiting (by decide +kernel)

theorem runs_rested : Runs host opened .waiting rested :=
  .resumed runs_noticed (by decide +kernel)

end Sample

/-- A block beside the best chain is announced to a run that waits at the end of that chain. -/
theorem no_announcement_is_lost_of_sample :
    Runs Sample.host Sample.opened .waiting Sample.rested ∧
    0 < Sample.rested.inbox.capacity ∧ Sample.rested.inbox.queue = [] ∧
    Sample.rested.phase = .synced ∧
    Sample.rested.course.any Entry.isNotice = true ∧
    ∃ newer older, Sample.rested.course = newer ++ .askedBest (.ok "b") :: older ∧
      ∀ entry ∈ newer, entry.isNotice = false := by
  have hroom : 0 < Sample.rested.inbox.capacity := by decide +kernel
  have hempty : Sample.rested.inbox.queue = [] := by decide +kernel
  have hsynced : Sample.rested.phase = .synced := by decide +kernel
  have hnotice : Sample.rested.course.any Entry.isNotice = true := by decide +kernel
  have htip : Sample.rested.frontier.serial.hash = "b" := by decide +kernel
  rcases no_announcement_is_lost Sample.runs_rested hroom hempty hsynced with
    ⟨newer, older, phase, past, hcourse, hsilent, _⟩
  rw [htip] at hcourse
  exact ⟨Sample.runs_rested, hroom, hempty, hsynced, hnotice, newer, _, hcourse,
    fun entry hentry => hsilent entry (List.mem_append_left _ hentry)⟩

end ChainIndex
