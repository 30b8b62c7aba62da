import ChainIndex.Proofs.Attention
import ChainIndex.Proofs.Escalation
import Mathlib.Data.List.Chain

/-!
# Outcomes of runs

A run goes from sync to sync.  After each of them it says whether the sync returned a fault, and
which.  A fatal fault is the end of it: the run says so and does nothing more.  After any other
sync it waits for a notification, and begins the next sync once it has taken one; it stops only
if it has been asked to, or if all callers have gone and the queue is empty.

The worlds in which the syncs of a run begin are read off from the run, so that what each sync
returns is known from the world in which it begins.  Nothing is assumed of the host.
-/

namespace ChainIndex

/-!
# What callers have asked for
-/

namespace Inbox

variable {inbox : Inbox} {said : List Entry}

theorem attached_of_receive_eq_false {signal : Signal}
    (h : (inbox.receive signal).attached = false) : inbox.attached = false ∨ signal = .release := by
  unfold receive at h
  split at h
  · cases signal with
    | notify block =>
        dsimp only at h
        split at h <;> exact Or.inl h
    | stop wanted => exact Or.inl h
    | release => exact Or.inr rfl
  · exact Or.inl h

theorem stop_mem_of_heard (h : (inbox.heard said).stopWanted = true) :
    inbox.stopWanted = true ∨ .signalled (.stop true) ∈ said := by
  induction said with
  | nil => exact Or.inl h
  | cons entry older ih =>
      have hearlier (h : (inbox.heard older).stopWanted = true) :
          inbox.stopWanted = true ∨ .signalled (.stop true) ∈ entry :: older :=
        (ih h).imp_right (List.mem_cons_of_mem entry)
      cases entry with
      | signalled signal =>
          rcases stopWanted_receive h with h | rfl
          · exact hearlier h
          · exact Or.inr List.mem_cons_self
      | _ => exact hearlier h

theorem release_mem_of_heard (h : (inbox.heard said).attached = false) :
    inbox.attached = false ∨ .signalled .release ∈ said := by
  induction said with
  | nil => exact Or.inl h
  | cons entry older ih =>
      have hearlier (h : (inbox.heard older).attached = false) :
          inbox.attached = false ∨ .signalled .release ∈ entry :: older :=
        (ih h).imp_right (List.mem_cons_of_mem entry)
      cases entry with
      | signalled signal =>
          rcases attached_of_receive_eq_false h with h | rfl
          · exact hearlier h
          · exact Or.inr List.mem_cons_self
      | _ => exact hearlier h

end Inbox

theorem Fault.isFatal_iff (cause : Fault) :
    cause.isFatal = true ↔ (∀ reason, cause ≠ .chain reason) ∧ ∀ what, cause ≠ .notFound what := by
  cases cause <;> simp [isFatal, isTransient]

/-!
# The syncs of a run
-/

namespace Following

def report (host : Host σ) (world : World σ) : List Entry :=
  (fault? host world).elim [] fun cause => [.entered (phaseAfter cause), .emitted (.failed cause)]

/-- The worlds in which a run begins its syncs, oldest first.  A turn of the run begins with a
sync unless a stop is wanted. -/
def syncPoints (host : Host σ) : (allowed : Nat) → World σ → List (World σ)
  | 0, _ => []
  | allowed + 1, world =>
      if world.inbox.stopWanted then []
      else world ::
        match (runTurn host ()).perform world with
        | (.ok (.again _), after) => syncPoints host allowed after
        | _ => []

def resumePoints (host : Host σ) (world : World σ) : List (World σ) :=
  match (wake : Act σ (Turn Unit Rest)).perform world with
  | (.ok (.again _), woken) => syncPoints host host.patience woken
  | _ => []

end Following

/-- A run of a follower that comes to rest again and again until it ends or is cut short, with
the worlds in which its syncs begin.  While it waits the world outside may change, and callers
that are still there may send their signals. -/
inductive RunsThrough (host : Host σ) (start : World σ) :
    List (World σ) → Except Halt Following.Rest → World σ → Prop where
  | begun : RunsThrough host start (Following.syncPoints host host.patience start)
      ((Following.run host).perform start).1 ((Following.run host).perform start).2
  | elsewhere {points : List (World σ)} {world : World σ} (outside : σ) :
      RunsThrough host start points (.ok .waiting) world →
      RunsThrough host start points (.ok .waiting) { world with outside := outside }
  | heard {points : List (World σ)} {world : World σ} (signal : Signal) :
      RunsThrough host start points (.ok .waiting) world → world.inbox.attached = true →
      RunsThrough host start points (.ok .waiting) (world.receive signal)
  | resumed {points : List (World σ)} {world : World σ} :
      RunsThrough host start points (.ok .waiting) world →
      RunsThrough host start (points ++ Following.resumePoints host world)
        ((Following.resume host).perform world).1 ((Following.resume host).perform world).2

namespace Following

section

variable {host : Host σ} {start world last : World σ} {points : List (World σ)}

/-!
# The account of a run
-/

/-- Since the sync from the last point nothing has been said but the report on it, and what
callers have sent; and nothing has been taken from the queue. -/
def Rests (host : Host σ) (last world : World σ) : Prop :=
  ∃ signals : List Signal,
    world.course = signals.map Entry.signalled ++ (report host last ++ (left host last).course) ∧
      world.inbox = (left host last).inbox.heard (signals.map Entry.signalled)

/-- The run has rested since the sync from the last point, and the next one begins as soon as a
notification has been taken from the queue. -/
def Follows (host : Host σ) (last next : World σ) : Prop :=
  ∃ resting block rest, Rests host last resting ∧ resting.inbox.queue = block :: rest ∧
    next = resting.noticed block rest

/-- Callers have been heard since the start, each fault of a sync has been reported, and no other,
and the syncs have followed one another. -/
structure Tally (host : Host σ) (start : World σ) (points : List (World σ)) (said : List Entry)
    (world : World σ) : Prop where
  course : world.course = said ++ start.course
  wish : world.inbox.wish = (start.inbox.heard said).wish
  failures : failures said = points.filterMap (fault? host)
  follows : points.IsChain (Follows host)

structure Going (host : Host σ) (start : World σ) (points : List (World σ)) (said : List Entry)
    (world : World σ) : Prop extends Tally host start points said world where
  harmless : ∀ point ∈ points, Harmless host point
  fit : ∀ entry ∈ said, entry.isFit host.catalogue = true

def Ready (host : Host σ) (start : World σ) (points : List (World σ)) (world : World σ) : Prop :=
  ∃ said, Going host start points said world ∧
    (world.inbox.stopWanted = false → ∀ last ∈ points.getLast?, Follows host last world)

def Resting (host : Host σ) (start : World σ) (points : List (World σ)) (world : World σ) : Prop :=
  ∃ said last, Going host start points said world ∧ points.getLast? = some last ∧
    Rests host last world

inductive Comes (host : Host σ) (start : World σ) :
    List (World σ) → Except Halt Rest → World σ → Prop where
  | waiting {points : List (World σ)} {world : World σ} :
      Resting host start points world → Comes host start points (.ok .waiting) world
  | stopped {points : List (World σ)} {said : List Entry} {world : World σ} :
      Going host start points said world →
      world.inbox.stopWanted = true ∨
        (world.inbox.attached = false ∧ world.inbox.queue = []) →
      Comes host start points (.ok (.ended .stopped)) world.wound
  | failed {points : List (World σ)} {point : World σ} {said : List Entry} {cause : Fault} :
      Tally host start (points ++ [point]) (report host point ++ said) (reported host point) →
      (∀ point ∈ points, Harmless host point) → fault? host point = some cause →
      cause.isFatal = true → Blames host.catalogue (.fault cause) said →
      Comes host start (points ++ [point]) (.ok (.ended .error)) (reported host point)
  | cut {points : List (World σ)} {said : List Entry} {cause : Halt} {world : World σ} :
      Tally host start points said world →
      (∀ point ∈ points, ∀ fault ∈ fault? host point, fault.isFatal = false) →
      (∀ fault, cause ≠ .fault fault) → Blames host.catalogue cause said →
      Comes host start points (.error cause) world

/-!
# From turn to turn
-/

theorem reported_course (host : Host σ) (world : World σ) :
    (reported host world).course = report host world ++ (left host world).course := by
  unfold reported report
  cases fault? host world <;> rfl

theorem reported_inbox (host : Host σ) (world : World σ) :
    (reported host world).inbox = (left host world).inbox := by
  unfold reported
  cases fault? host world <;> rfl

theorem heard_report (host : Host σ) (world : World σ) (inbox : Inbox) :
    inbox.heard (report host world) = inbox := by
  unfold report
  cases fault? host world <;> rfl

theorem failures_report (host : Host σ) (world : World σ) :
    ChainIndex.failures (report host world) = (fault? host world).toList := by
  unfold report
  cases fault? host world <;> rfl

theorem fit_report (host : Host σ) (world : World σ) :
    ∀ entry ∈ report host world, entry.isFit host.catalogue = true := by
  unfold report
  cases fault? host world <;> simp [Entry.isFit]

theorem escalated_left {halt : Halt} {after : World σ}
    (hperform : (sync host).perform world = (.error halt, after)) :
    Escalated host.catalogue world halt (left host world) := by
  have hsync := sync_escalates host world
  unfold Act.Yields at hsync
  unfold left
  rw [hperform] at hsync ⊢
  exact hsync

theorem Harmless.smooth (h : Harmless host world) :
    ∃ said, Smooth host.catalogue world said (left host world) := by
  cases hfault : fault? host world with
  | none =>
      rcases h.exists_perform hfault with ⟨tip, hperform⟩
      have hsync := sync_escalates host world
      unfold Act.Yields at hsync
      rw [hperform] at hsync
      exact hsync
  | some cause =>
      have hmild := h.mild cause hfault
      rcases escalated_left (perform_of_fault? hfault) with ⟨said, hdiscreet, hblames⟩
      refine ⟨said, hdiscreet, hblames.fit ?_⟩
      rintro culprit reason rfl
      cases hmild

theorem Tally.synced {said more : List Entry} {point : World σ}
    (h : Tally host start points said point)
    (hfollows : ∀ last ∈ points.getLast?, Follows host last point)
    (hmore : Discreet point more (left host point)) :
    Tally host start (points ++ [point]) (report host point ++ (more ++ said))
      (reported host point) where
  course := by
    rw [reported_course, hmore.course, h.course, List.append_assoc, List.append_assoc]
  wish := by
    rw [reported_inbox, Inbox.heard_append, heard_report, Inbox.heard_append, hmore.wish]
    exact Inbox.wish_heard h.wish more
  failures := by
    rw [failures_append, failures_append, hmore.failures, h.failures, failures_report,
      List.append_nil, List.filterMap_append]
    cases hfault : fault? host point <;> simp [hfault]
  follows := by
    rw [List.isChain_append]
    refine ⟨h.follows, .singleton point, ?_⟩
    intro last hlast next hnext
    cases hnext
    exact hfollows last hlast

theorem Resting.wakes (h : Resting host start points world) {result : Turn Unit Rest}
    {after : World σ} (hwakes : Wakes world result after) :
    result.Is (fun _ => Ready host start points after)
      fun rest => Comes host start points (.ok rest) after := by
  rcases h with ⟨said, last, hgoing, hlast, hrests⟩
  cases hwakes with
  | @noticed block rest hqueue =>
      refine ⟨said, ⟨⟨hgoing.course, hgoing.wish, hgoing.failures, hgoing.follows⟩,
        hgoing.harmless, hgoing.fit⟩, ?_⟩
      intro _ other hother
      cases hlast.symm.trans hother
      exact ⟨world, block, rest, hrests, hqueue, rfl⟩
  | deserted hqueue hattached => exact .stopped hgoing (.inr ⟨hattached, hqueue⟩)
  | stopping _ hwanted =>
      refine ⟨said, hgoing, fun hgoes => ?_⟩
      rw [hwanted] at hgoes
      cases hgoes
  | waiting _ _ _ => exact .waiting ⟨said, last, hgoing, hlast, hrests⟩

theorem Going.takes {said : List Entry} (h : Going host start points said world)
    (hfollows : ∀ last ∈ points.getLast?, Follows host last world) {result : Turn Unit Rest}
    {after : World σ} (htakes : Takes host world result after) :
    result.Is (fun _ => Ready host start (points ++ [world]) after)
      fun rest => Comes host start (points ++ [world]) (.ok rest) after := by
  have hsynced (hharmless : Harmless host world) :
      ∃ said, Going host start (points ++ [world]) said (reported host world) := by
    rcases hharmless.smooth with ⟨more, hmore⟩
    refine ⟨_, h.toTally.synced hfollows hmore.toDiscreet, ?_, ?_⟩
    · exact List.forall_mem_append.mpr ⟨h.harmless, List.forall_mem_singleton.mpr hharmless⟩
    · exact List.forall_mem_append.mpr
        ⟨fit_report host world, List.forall_mem_append.mpr ⟨hmore.fit, h.fit⟩⟩
  cases htakes with
  | @fatal cause hfault hfatal =>
      rcases escalated_left (perform_of_fault? hfault) with ⟨more, hmore, hblames⟩
      exact .failed (h.toTally.synced hfollows hmore) h.harmless hfault hfatal
        (hblames.append h.fit)
  | stopping hharmless hwanted =>
      rcases hsynced hharmless with ⟨_, hgoing⟩
      exact .stopped hgoing (.inl hwanted)
  | woken hharmless _ hwakes =>
      rcases hsynced hharmless with ⟨all, hgoing⟩
      have hresting : Resting host start (points ++ [world]) (reported host world) :=
        ⟨all, world, hgoing, List.getLast?_concat, [], reported_course host world,
          reported_inbox host world⟩
      exact hresting.wakes hwakes

theorem Going.cut {said : List Entry} (h : Going host start points said world)
    (hfollows : ∀ last ∈ points.getLast?, Follows host last world) {halt : Halt}
    {after : World σ} (hperform : (sync host).perform world = (.error halt, after))
    (hhalt : ∀ cause, halt ≠ .fault cause) :
    Comes host start (points ++ [world]) (.error halt) after := by
  have hnone : fault? host world = none := by
    rw [fault?, hperform]
    cases halt with
    | fault cause => exact absurd rfl (hhalt cause)
    | _ => rfl
  have hreported : reported host world = after := by
    rw [reported, hnone, left, hperform, Option.elim_none]
  rcases escalated_left hperform with ⟨more, hmore, hblames⟩
  have htally := h.toTally.synced hfollows hmore
  rw [hreported] at htally
  refine .cut htally ?_ hhalt ?_
  · refine List.forall_mem_append.mpr ⟨fun point hpoint => (h.harmless point hpoint).mild, ?_⟩
    refine List.forall_mem_singleton.mpr ?_
    rw [hnone]
    simp
  · rw [report, hnone]
    exact hblames.append h.fit

/-!
# The whole run
-/

theorem Ready.runs (h : Ready host start points world) (allowed : Nat) :
    Comes host start (points ++ syncPoints host allowed world)
      ((Act.turns (runTurn host) allowed ()).perform world).1
      ((Act.turns (runTurn host) allowed ()).perform world).2 := by
  induction allowed generalizing points world with
  | zero =>
      rcases h with ⟨said, hgoing, _⟩
      rw [syncPoints, List.append_nil]
      exact .cut hgoing.toTally (fun point hpoint => (hgoing.harmless point hpoint).mild)
        (by simp) (.plain hgoing.fit)
  | succ allowed ih =>
      rcases h with ⟨said, hgoing, hfollows⟩
      rw [syncPoints, Act.perform_turns_succ]
      cases hwanted : world.inbox.stopWanted with
      | true =>
          rw [runTurn_of_stopWanted hwanted, if_pos rfl, List.append_nil]
          exact .stopped hgoing (.inl hwanted)
      | false =>
          have hturn : (runTurn host ()).Yields world _ _ := runTurn_takes hwanted
          rw [if_neg Bool.false_ne_true]
          unfold Act.Yields at hturn
          generalize (runTurn host ()).perform world = outcome at hturn ⊢
          rcases outcome with ⟨result, after⟩
          cases result with
          | error halt => exact hgoing.cut (hfollows hwanted) hturn.1 hturn.2
          | ok turn =>
              have hcomes := hgoing.takes (hfollows hwanted) hturn
              cases turn with
              | done rest => exact hcomes
              | again _ =>
                  have hrest := ih hcomes
                  rw [List.append_assoc] at hrest
                  exact hrest

theorem Comes.begun (host : Host σ) (start : World σ) :
    Comes host start (syncPoints host host.patience start) ((run host).perform start).1
      ((run host).perform start).2 := by
  have hready : Ready host start [] start :=
    ⟨[], ⟨⟨rfl, rfl, rfl, .nil⟩, by simp, by simp⟩, fun _ last hlast => by cases hlast⟩
  exact hready.runs host.patience

theorem Resting.resumed (h : Resting host start points world) :
    Comes host start (points ++ resumePoints host world) ((resume host).perform world).1
      ((resume host).perform world).2 := by
  have hwakes : (wake : Act σ (Turn Unit Rest)).Yields world (Wakes world) fun _ _ => False :=
    wake_wakes world
  rw [resumePoints, resume, Act.perform_bind]
  unfold Act.Yields at hwakes
  generalize (wake : Act σ (Turn Unit Rest)).perform world = outcome at hwakes ⊢
  rcases outcome with ⟨result, after⟩
  cases result with
  | error halt => exact hwakes.elim
  | ok turn =>
      have hcomes := h.wakes hwakes
      cases turn with
      | done rest =>
          rw [List.append_nil]
          exact hcomes
      | again _ => exact hcomes.runs host.patience

theorem Resting.elsewhere (h : Resting host start points world) (outside : σ) :
    Resting host start points { world with outside := outside } := by
  rcases h with ⟨said, last, hgoing, hlast, hrests⟩
  exact ⟨said, last, { hgoing with }, hlast, hrests⟩

theorem Resting.heard (h : Resting host start points world) (signal : Signal) :
    Resting host start points (world.receive signal) := by
  rcases h with ⟨said, last, hgoing, hlast, signals, hcourse, hinbox⟩
  refine ⟨.signalled signal :: said, last, ?_, hlast, signal :: signals,
    congrArg (Entry.signalled signal :: ·) hcourse, congrArg (Inbox.receive · signal) hinbox⟩
  refine ⟨⟨congrArg (Entry.signalled signal :: ·) hgoing.course, ?_, hgoing.failures,
    hgoing.follows⟩, hgoing.harmless, List.forall_mem_cons.mpr ⟨rfl, hgoing.fit⟩⟩
  show (world.inbox.receive signal).wish = ((start.inbox.heard said).receive signal).wish
  rw [Inbox.wish_receive, Inbox.wish_receive, hgoing.wish]

end

end Following

theorem RunsThrough.comes {host : Host σ} {start world : World σ} {points : List (World σ)}
    {outcome : Except Halt Following.Rest} (h : RunsThrough host start points outcome world) :
    Following.Comes host start points outcome world := by
  induction h with
  | begun => exact .begun host start
  | elsewhere outside _ ih =>
      cases ih with
      | waiting hresting => exact .waiting (hresting.elsewhere outside)
  | heard signal _ _ ih =>
      cases ih with
      | waiting hresting => exact .waiting (hresting.heard signal)
  | resumed _ ih =>
      cases ih with
      | waiting hresting => exact hresting.resumed

/-!
# The verdict
-/

/-- What a run comes to is decided by what its syncs return, and by its callers. -/
structure Following.Decided (host : Host σ) (start : World σ) (points : List (World σ))
    (outcome : Except Halt Following.Rest) (world : World σ) (said : List Entry) : Prop where
  course : world.course = said ++ start.course
  /-- Each fault that a sync returns is reported once, and no other. -/
  told : failures said = points.filterMap (fault? host)
  fatal : outcome = .ok (.ended .error) ↔
    ∃ point ∈ points, ∃ cause ∈ fault? host point,
      (∀ reason, cause ≠ .chain reason) ∧ ∀ what, cause ≠ .notFound what
  /-- The sync that fails the run is its last, and after it comes nothing but the report. -/
  final : outcome = .ok (.ended .error) → ∃ earlier point cause,
    points = earlier ++ [point] ∧ fault? host point = some cause ∧
      world.course = .entered .error :: .emitted (.failed cause) :: (left host point).course ∧
      ∀ other ∈ earlier, ∀ fault ∈ fault? host other, fault.isFatal = false
  /-- Whatever an index raises when it is asked fails the run at once as the fault of a service,
  unless it cuts the run short. -/
  blamed {newer older : List Entry} {track : Track} {block : Block} {direction : Direction}
    {view : View} {index : Index} {raised : Halt} :
    said = newer ++ .consulted track block direction view :: older →
    index ∈ host.catalogue.on track → index.edits block direction view = .error raised →
      (∃ culprit reason, outcome = .ok (.ended .error) ∧
        newer = [.entered .error, .emitted (.failed (.service culprit reason))]) ∨
      (∃ cause, outcome = .error cause ∧ (∀ fault, cause ≠ .fault fault) ∧ newer = [])
  /-- Between two syncs the run has rested, and a notification has been taken from the queue. -/
  follows : points.IsChain (Follows host)
  stopped : outcome = .ok (.ended .stopped) →
    (world.inbox.stopWanted = true ∧
      (start.inbox.stopWanted = true ∨ .signalled (.stop true) ∈ said)) ∨
    (world.inbox.attached = false ∧ world.inbox.queue = [] ∧
      (start.inbox.attached = false ∨ .signalled .release ∈ said))
  published {phase : Phase} : outcome = .ok (.ended phase) →
    world.phase = phase ∧ (phase = .stopped ∨ phase = .error)
  /-- Faults are reported, and do not cut the run short. -/
  cut {cause : Halt} : outcome = .error cause → ∀ fault, cause ≠ .fault fault

theorem eq_of_append_cons_eq_append_cons {good : α → Bool} {front back newer older : List α}
    {bad other : α} (h : front ++ bad :: back = newer ++ other :: older)
    (hfront : ∀ a ∈ front, good a = true) (hback : ∀ a ∈ back, good a = true)
    (hother : good other = false) : newer = front ∧ other = bad := by
  have hbad (hgood : good other = true) : newer = front ∧ other = bad := by
    rw [hother] at hgood
    cases hgood
  rcases List.append_eq_append_iff.mp h with ⟨more, hnewer, hrest⟩ | ⟨more, hmore, hrest⟩
  · cases more with
    | nil =>
        cases hrest
        exact ⟨by rw [hnewer, List.append_nil], rfl⟩
    | cons _ more =>
        cases hrest
        exact hbad (hback other (List.mem_append_right more List.mem_cons_self))
  · cases more with
    | nil =>
        cases hrest
        exact ⟨by rw [hmore, List.append_nil], rfl⟩
    | cons _ more =>
        cases hrest
        rw [hmore] at hfront
        exact hbad (hfront other (List.mem_append_right newer List.mem_cons_self))

section

variable {catalogue : Catalogue} {said front newer older : List Entry} {track : Track}
variable {block : Block} {direction : Direction} {view : View} {index : Index} {raised : Halt}

theorem isFit_of_raised (hindex : index ∈ catalogue.on track)
    (hraised : index.edits block direction view = .error raised) :
    (Entry.consulted track block direction view).isFit catalogue = false := by
  rcases Catalogue.edits_of_raised hindex hraised with ⟨cause, hcause⟩
  rw [Entry.isFit, hcause]
  rfl

/-- Where an index that raises something has been asked, it has been asked last. -/
theorem Blames.eq_of_raised {cause : Halt} (h : Blames catalogue cause said)
    (hfront : ∀ entry ∈ front, entry.isFit catalogue = true)
    (hsplit : front ++ said = newer ++ .consulted track block direction view :: older)
    (hindex : index ∈ catalogue.on track)
    (hraised : index.edits block direction view = .error raised) :
    newer = front ∧ catalogue.edits track block direction view = .error cause := by
  have hunfit := isFit_of_raised hindex hraised
  cases h with
  | plain hsaid =>
      have hall := List.forall_mem_append.mpr ⟨hfront, hsaid⟩
      rw [hsplit] at hall
      rw [hall _ (List.mem_append_right newer List.mem_cons_self)] at hunfit
      cases hunfit
  | unfit hedits holder =>
      rcases eq_of_append_cons_eq_append_cons hsplit hfront holder hunfit with ⟨hnewer, hentry⟩
      cases hentry
      exact ⟨hnewer, hedits⟩

end

namespace Following

section

variable {host : Host σ} {start world point : World σ} {points : List (World σ)}
variable {said : List Entry}

theorem not_fatal (h : ∀ point ∈ points, ∀ cause ∈ fault? host point, cause.isFatal = false) :
    ¬ ∃ point ∈ points, ∃ cause ∈ fault? host point,
      (∀ reason, cause ≠ .chain reason) ∧ ∀ what, cause ≠ .notFound what := by
  rintro ⟨point, hpoint, cause, hcause, hkind⟩
  have hmild := h point hpoint cause hcause
  rw [(Fault.isFatal_iff cause).mpr hkind] at hmild
  cases hmild

theorem Going.not_fatal (h : Going host start points said world) :
    ¬ ∃ point ∈ points, ∃ cause ∈ fault? host point,
      (∀ reason, cause ≠ .chain reason) ∧ ∀ what, cause ≠ .notFound what :=
  Following.not_fatal fun point hpoint => (h.harmless point hpoint).mild

theorem Going.not_raised (h : Going host start points said world) {newer older : List Entry}
    {track : Track} {block : Block} {direction : Direction} {view : View} {index : Index}
    {raised : Halt} (hsplit : said = newer ++ .consulted track block direction view :: older)
    (hindex : index ∈ host.catalogue.on track)
    (hraised : index.edits block direction view = .error raised) : False := by
  have hfit := h.fit
  rw [hsplit] at hfit
  have hconsulted := hfit _ (List.mem_append_right newer List.mem_cons_self)
  rw [isFit_of_raised hindex hraised] at hconsulted
  cases hconsulted

theorem Going.waits (h : Going host start points said world) :
    Decided host start points (.ok .waiting) world said where
  course := h.course
  told := h.failures
  fatal := iff_of_false (fun hended => by cases hended) h.not_fatal
  final hended := by cases hended
  blamed hsplit hindex hraised := (h.not_raised hsplit hindex hraised).elim
  follows := h.follows
  stopped hended := by cases hended
  published hended := by cases hended
  cut hcut := by cases hcut

theorem Going.record (h : Going host start points said world) (phase : Phase) :
    Going host start points (.entered phase :: said) (world.record (.entered phase)) :=
  ⟨⟨congrArg (Entry.entered phase :: ·) h.course, h.wish, h.failures, h.follows⟩, h.harmless,
    List.forall_mem_cons.mpr ⟨rfl, h.fit⟩⟩

theorem Going.wound (h : Going host start points said world) :
    ∃ said, Going host start points said world.wound :=
  ⟨_, { (h.record .stopping).record .stopped with }⟩

theorem Going.stops (h : Going host start points said world) (hphase : world.phase = .stopped)
    (hasked : world.inbox.stopWanted = true ∨
      (world.inbox.attached = false ∧ world.inbox.queue = [])) :
    Decided host start points (.ok (.ended .stopped)) world said where
  course := h.course
  told := h.failures
  fatal := iff_of_false (fun hended => by cases hended) h.not_fatal
  final hended := by cases hended
  blamed hsplit hindex hraised := (h.not_raised hsplit hindex hraised).elim
  follows := h.follows
  stopped _ := by
    rcases hasked with hwanted | ⟨hgone, hempty⟩
    · have hheard := (congrArg Prod.fst h.wish).symm.trans hwanted
      exact .inl ⟨hwanted, Inbox.stop_mem_of_heard hheard⟩
    · have hheard := (congrArg Prod.snd h.wish).symm.trans hgone
      exact .inr ⟨hgone, hempty, Inbox.release_mem_of_heard hheard⟩
  published hended := by
    cases hended
    exact ⟨hphase, .inl rfl⟩
  cut hcut := by cases hcut

theorem Tally.fails {cause : Fault}
    (h : Tally host start (points ++ [point]) (report host point ++ said) (reported host point))
    (hharmless : ∀ point ∈ points, Harmless host point)
    (hfault : fault? host point = some cause) (hfatal : cause.isFatal = true)
    (hblames : Blames host.catalogue (.fault cause) said) :
    Decided host start (points ++ [point]) (.ok (.ended .error)) (reported host point)
      (report host point ++ said) := by
  have hreport : report host point = [.entered .error, .emitted (.failed cause)] := by
    rw [report, hfault, Option.elim_some, phaseAfter, if_pos hfatal]
  constructor
  · exact h.course
  · exact h.failures
  · refine ⟨fun _ => ⟨point, ?_, cause, hfault, (Fault.isFatal_iff cause).mp hfatal⟩,
      fun _ => rfl⟩
    exact List.mem_append_right points List.mem_cons_self
  · refine fun _ => ⟨points, point, cause, rfl, hfault, ?_, fun other hother =>
      (hharmless other hother).mild⟩
    rw [reported_course, hreport]
    rfl
  · intro newer older track block direction view index raised hsplit hindex hraised
    rcases hblames.eq_of_raised (fit_report host point) hsplit hindex hraised with
      ⟨rfl, hedits⟩
    rcases Catalogue.edits_fault hedits with ⟨culprit, reason, rfl⟩
    exact .inl ⟨culprit, reason, rfl, hreport⟩
  · exact h.follows
  · intro hended
    cases hended
  · intro phase hended
    cases hended
    refine ⟨?_, .inr rfl⟩
    rw [reported, hfault, Option.elim_some, told, phaseAfter, if_pos hfatal]
  · intro cause hcut
    cases hcut

theorem Tally.breaks {cause : Halt} (h : Tally host start points said world)
    (hmild : ∀ point ∈ points, ∀ fault ∈ fault? host point, fault.isFatal = false)
    (hcause : ∀ fault, cause ≠ .fault fault) (hblames : Blames host.catalogue cause said) :
    Decided host start points (.error cause) world said where
  course := h.course
  told := h.failures
  fatal := iff_of_false (fun hended => by cases hended) (not_fatal hmild)
  final hended := by cases hended
  blamed hsplit hindex hraised := by
    have hlast := hblames.eq_of_raised (List.forall_mem_nil _) hsplit hindex hraised
    exact .inr ⟨cause, rfl, hcause, hlast.1⟩
  follows := h.follows
  stopped hended := by cases hended
  published hended := by cases hended
  cut hcut := by
    cases hcut
    exact hcause

end

end Following

/-- However notifications, wishes to stop, the going of callers and the failures of the host fall
upon a run: it reports each fault that a sync returns once, and no other; it fails if and only if
a sync returns a fault that is not transient, as whatever an index raises is, and then it does
nothing more; after any other sync it takes a notification from the queue before the next; it
stops only if it has been asked to, or if all callers have gone and the queue is empty; and it
ends in the phase that it publishes. -/
theorem faults_decide_the_run {host : Host σ} {start world : World σ} {points : List (World σ)}
    {outcome : Except Halt Following.Rest} (h : RunsThrough host start points outcome world) :
    ∃ said, Following.Decided host start points outcome world said := by
  cases h.comes with
  | waiting hresting =>
      rcases hresting with ⟨said, _, hgoing, _⟩
      exact ⟨said, hgoing.waits⟩
  | stopped hgoing hasked =>
      rcases hgoing.wound with ⟨said, hwound⟩
      exact ⟨said, hwound.stops rfl hasked⟩
  | failed htally hharmless hfault hfatal hblames =>
      exact ⟨_, htally.fails hharmless hfault hfatal hblames⟩
  | cut htally hmild hcause hblames => exact ⟨_, htally.breaks hmild hcause hblames⟩

namespace Sample

def clueless : Index := ⟨"clueless", false, fun _ _ _ => .error (.fault (.notFound "entry"))⟩

/-- The chain cannot be reached at first, and a block is announced meanwhile. -/
def flaky : Host Bool where
  blockAt place outside := ⟨ofFault (chain.blockAt place), outside, []⟩
  headerOf hash outside := ⟨ofFault (chain.headerOf hash), outside, []⟩
  bestHash outside :=
    if outside then ⟨ofFault chain.bestHash, true, []⟩
    else ⟨.error (.fault (.chain "offline")), true, [.notify first]⟩
  accept _ outside := ⟨.ok (), outside, []⟩
  outages outside := ⟨.ok .none, outside, []⟩
  outages_ne_fault := nofun
  catalogue := [Times.index, clueless]
  patience := Host.enough

def offline : World Bool := ⟨blank.toFollower, false, .empty, []⟩

def failed : World Bool := ((Following.run flaky).perform offline).2

theorem runsThrough_failed :
    RunsThrough flaky offline (Following.syncPoints flaky flaky.patience offline)
      (.ok (.ended .error)) failed := by
  have houtcome : ((Following.run flaky).perform offline).1 = .ok (.ended .error) := by
    decide +kernel
  have hbegun : RunsThrough flaky offline _ _ _ := .begun
  rw [houtcome] at hbegun
  exact hbegun

end Sample

/-- The first sync meets a transient fault, and after a notification the second one a fatal one. -/
theorem faults_decide_the_run_of_sample :
    RunsThrough Sample.flaky Sample.offline
      (Following.syncPoints Sample.flaky Sample.flaky.patience Sample.offline)
      (.ok (.ended .error)) Sample.failed ∧
    failures Sample.failed.course = [.chain "offline", .service "clueless" "not found: entry"] ∧
    Sample.failed.phase = .error ∧
    ∃ past, Sample.failed.course =
      .entered .error :: .emitted (.failed (.service "clueless" "not found: entry")) :: past := by
  have hfaults : (Following.syncPoints Sample.flaky Sample.flaky.patience
      Sample.offline).filterMap (Following.fault? Sample.flaky) =
        [.chain "offline", .service "clueless" "not found: entry"] := by
    decide +kernel
  rcases faults_decide_the_run Sample.runsThrough_failed with ⟨said, hdecided⟩
  have hcourse : Sample.failed.course = said := by
    rw [hdecided.course]
    exact List.append_nil said
  rcases hdecided.final rfl with ⟨earlier, point, cause, hpoints, hfault, hlast, _⟩
  have htold := (congrArg failures hcourse).trans (hdecided.told.trans hfaults)
  have hcause := congrArg List.getLast? hfaults
  rw [hpoints, List.filterMap_append, List.filterMap_cons_some hfault, List.filterMap_nil,
    List.getLast?_concat] at hcause
  cases hcause
  exact ⟨Sample.runsThrough_failed, htold, (hdecided.published rfl).1, _, hlast⟩

end ChainIndex
