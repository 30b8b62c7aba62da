import ChainIndex.Proofs.Yields

/-!
# Lulls and steps

An indexer does two things that others can see: it has batches land in the table, and it
tells of events.  In between it asks, reads and thinks, and in such a lull both tracks, the
table and the intake stay as they are.  What the course gains in a lull is the answers that
were given, and the signals of callers who were heard meanwhile.

What the acts that reach the host yield is stated here of every host, down to the answers
that they leave in the course.  A block that is put on a track or taken off it is a lull and
then a step; where this is cut short, it is a lull and a reason.
-/

namespace ChainIndex

/-!
# Deeds
-/

/-- Whether the entry is of something done: a batch that landed, or an event. -/
def Entry.isDeed : Entry → Bool
  | .batch _ (.ok _) => true
  | .emitted _ => true
  | _ => false

def deeds (course : List Entry) : List Entry :=
  course.filter Entry.isDeed

theorem deeds_append (said course : List Entry) :
    deeds (said ++ course) = deeds said ++ deeds course :=
  List.filter_append said course

theorem deeds_eq_nil {said : List Entry} (h : ∀ entry ∈ said, entry.isDeed = false) :
    deeds said = [] := by
  rw [deeds, List.filter_eq_nil_iff]
  intro entry hentry hdeed
  rw [h entry hentry] at hdeed
  cases hdeed

/-!
# What a host may answer
-/

inductive Host.Sends (host : Host σ) (signal : Signal) : Prop where
  | block {place : Lookup} {outside : σ} :
      signal ∈ (host.blockAt place outside).signals → Sends host signal
  | header {hash : BlockHash} {outside : σ} :
      signal ∈ (host.headerOf hash outside).signals → Sends host signal
  | best {outside : σ} : signal ∈ (host.bestHash outside).signals → Sends host signal
  | batch {edits : List Edit} {outside : σ} :
      signal ∈ (host.accept edits outside).signals → Sends host signal
  | read {outside : σ} : signal ∈ (host.outages outside).signals → Sends host signal

namespace Host

def Finds (host : Host σ) (place : Lookup) (answer : Except Halt Block) : Prop :=
  ∃ outside, (host.blockAt place outside).answer = answer

def Tells (host : Host σ) (hash : BlockHash) (answer : Except Halt Header) : Prop :=
  ∃ outside, (host.headerOf hash outside).answer = answer

def Names (host : Host σ) (answer : Except Halt BlockHash) : Prop :=
  ∃ outside, (host.bestHash outside).answer = answer

def Takes (host : Host σ) (edits : List Edit) (answer : Except Halt Unit) : Prop :=
  ∃ outside, (host.accept edits outside).answer = answer

def Reads (host : Host σ) (answer : Except Halt Outages) : Prop :=
  ∃ outside, (host.outages outside).answer = answer

end Host

/-!
# What the inbox has heard
-/

def Entry.isSignal : Entry → Bool
  | .signalled _ => true
  | _ => false

namespace Inbox

variable {inbox : Inbox} {signal : Signal} {block : Block} {said : List Entry}

theorem mem_receive (h : block ∈ (inbox.receive signal).queue) :
    block ∈ inbox.queue ∨ signal = .notify block := by
  unfold receive at h
  split at h
  · cases signal with
    | notify heard =>
        dsimp only at h
        split at h
        · rcases List.mem_append.mp h with h | h
          · exact Or.inl h
          · exact Or.inr (congrArg Signal.notify (List.mem_singleton.mp h).symm)
        · exact Or.inl h
    | stop wanted => exact Or.inl h
    | release => exact Or.inl h
  · exact Or.inl h

theorem stopWanted_receive (h : (inbox.receive signal).stopWanted = true) :
    inbox.stopWanted = true ∨ signal = .stop true := by
  unfold receive at h
  split at h
  · cases signal with
    | notify heard =>
        dsimp only at h
        split at h <;> exact Or.inl h
    | stop wanted => exact Or.inr (congrArg Signal.stop h)
    | release => exact Or.inl h
  · exact Or.inl h

def hear (inbox : Inbox) : Entry → Inbox
  | .signalled signal => inbox.receive signal
  | _ => inbox

theorem hear_of_isSignal {entry : Entry} (h : entry.isSignal = false) :
    inbox.hear entry = inbox := by
  cases entry with
  | signalled signal => cases h
  | _ => rfl

def heard (inbox : Inbox) : List Entry → Inbox
  | [] => inbox
  | entry :: older => (inbox.heard older).hear entry

theorem heard_append (inbox : Inbox) (newer older : List Entry) :
    inbox.heard (newer ++ older) = (inbox.heard older).heard newer := by
  induction newer with
  | nil => rfl
  | cons entry rest ih => exact congrArg (Inbox.hear · entry) ih

theorem mem_heard (h : block ∈ (inbox.heard said).queue) :
    block ∈ inbox.queue ∨ .signalled (.notify block) ∈ said := by
  induction said with
  | nil => exact Or.inl h
  | cons entry older ih =>
      have holder (h : block ∈ (inbox.heard older).queue) :
          block ∈ inbox.queue ∨ .signalled (.notify block) ∈ entry :: older :=
        (ih h).imp_right (List.mem_cons_of_mem entry)
      cases entry with
      | signalled signal =>
          rcases mem_receive h with h | rfl
          · exact holder h
          · exact Or.inr List.mem_cons_self
      | _ => exact holder h

theorem stopWanted_of_heard (h : (inbox.heard said).stopWanted = true) :
    inbox.stopWanted = true ∨ .signalled (.stop true) ∈ said := by
  induction said with
  | nil => exact Or.inl h
  | cons entry older ih =>
      have holder (h : (inbox.heard older).stopWanted = true) :
          inbox.stopWanted = true ∨ .signalled (.stop true) ∈ entry :: older :=
        (ih h).imp_right (List.mem_cons_of_mem entry)
      cases entry with
      | signalled signal =>
          rcases stopWanted_receive h with h | rfl
          · exact holder h
          · exact Or.inr List.mem_cons_self
      | _ => exact holder h

end Inbox

/-!
# Answers
-/

def Entry.isQuestion : Entry → Bool
  | .askedBlock _ _ => true
  | .askedHeader _ _ => true
  | .askedBest _ => true
  | _ => false

def answers (said : List Entry) : List Entry :=
  said.filter (! ·.isSignal)

theorem answers_append (newer older : List Entry) :
    answers (newer ++ older) = answers newer ++ answers older :=
  List.filter_append newer older

theorem answers_cons {entry : Entry} (h : entry.isSignal = false) (said : List Entry) :
    answers (entry :: said) = entry :: answers said :=
  List.filter_cons_of_pos (by rw [h]; rfl)

theorem mem_answers {entry : Entry} {said : List Entry} (h : entry ∈ said) :
    entry ∈ answers said ∨ ∃ signal, entry = .signalled signal := by
  cases hentry : entry.isSignal with
  | false => exact Or.inl (List.mem_filter.mpr ⟨h, by rw [hentry]; rfl⟩)
  | true =>
      cases entry with
      | signalled signal => exact Or.inr ⟨signal, rfl⟩
      | _ => cases hentry

theorem filterMap_answers {f : Entry → Option β} (hf : ∀ signal, f (.signalled signal) = none)
    (said : List Entry) : (answers said).filterMap f = said.filterMap f := by
  induction said with
  | nil => rfl
  | cons entry rest ih =>
      cases entry with
      | signalled signal =>
          rw [List.filterMap_cons_none (hf signal)]
          exact ih
      | _ => rw [answers_cons rfl, List.filterMap_cons, List.filterMap_cons, ih]

def Adds (host : Host σ) (given : List Entry) (world after : World σ) : Prop :=
  ∃ said, after.course = said ++ world.course ∧ after.inbox = world.inbox.heard said ∧
    answers said = given ∧ ∀ signal, .signalled signal ∈ said → host.Sends signal

namespace Adds

variable {host : Host σ} {start world after : World σ} {given older newer : List Entry}

theorem refl (host : Host σ) (world : World σ) : Adds host [] world world :=
  ⟨[], rfl, rfl, rfl, by simp⟩

theorem trans (h : Adds host older start world) (h' : Adds host newer world after) :
    Adds host (newer ++ older) start after := by
  rcases h with ⟨said, hcourse, hinbox, hanswers, hsends⟩
  rcases h' with ⟨more, hcourse', hinbox', hanswers', hsends'⟩
  refine ⟨more ++ said, ?_, ?_, ?_, ?_⟩
  · rw [hcourse', hcourse, List.append_assoc]
  · rw [hinbox', hinbox, Inbox.heard_append]
  · rw [answers_append, hanswers', hanswers]
  · intro signal hsignal
    exact (List.mem_append.mp hsignal).elim (hsends' signal) (hsends signal)

theorem past (h : Adds host given world after) : world.course <:+ after.course := by
  rcases h with ⟨said, hcourse, _⟩
  exact ⟨said, hcourse.symm⟩

theorem record (h : Adds host given start world) {entry : Entry}
    (hsignal : entry.isSignal = false) : Adds host (entry :: given) start (world.record entry) := by
  rcases h with ⟨said, hcourse, hinbox, hanswers, hsends⟩
  refine ⟨entry :: said, congrArg (entry :: ·) hcourse, ?_, ?_, ?_⟩
  · show world.inbox = (start.inbox.heard said).hear entry
    rw [← hinbox, Inbox.hear_of_isSignal hsignal]
  · rw [answers_cons hsignal, hanswers]
  · intro signal hmem
    rcases List.mem_cons.mp hmem with rfl | hmem
    · cases hsignal
    · exact hsends signal hmem

theorem receive (h : Adds host given start world) {signal : Signal} (hsends : host.Sends signal) :
    Adds host given start (world.receive signal) := by
  rcases h with ⟨said, hcourse, hinbox, hanswers, hsent⟩
  refine ⟨.signalled signal :: said, congrArg (_ :: ·) hcourse,
    congrArg (Inbox.receive · signal) hinbox, hanswers, ?_⟩
  intro other hmem
  rcases List.mem_cons.mp hmem with hsame | hmem
  · cases hsame
    exact hsends
  · exact hsent other hmem

end Adds

/-- The host has given these answers, and nothing has been done. -/
structure Asks (host : Host σ) (asked : List Entry) (world after : World σ) : Prop where
  frontier : after.frontier = world.frontier
  intake : after.intake = world.intake
  table : after.table = world.table
  idle : ∀ entry ∈ asked, entry.isDeed = false
  course : Adds host asked world after

namespace Asks

variable {host : Host σ} {start world after : World σ} {asked older newer : List Entry}

theorem refl (host : Host σ) (world : World σ) : Asks host [] world world where
  frontier := rfl
  intake := rfl
  table := rfl
  idle := by simp
  course := .refl host world

theorem trans (h : Asks host older start world) (h' : Asks host newer world after) :
    Asks host (newer ++ older) start after where
  frontier := h'.frontier.trans h.frontier
  intake := h'.intake.trans h.intake
  table := h'.table.trans h.table
  idle := List.forall_mem_append.mpr ⟨h'.idle, h.idle⟩
  course := h.course.trans h'.course

theorem past (h : Asks host asked world after) : world.course <:+ after.course :=
  h.course.past

theorem record (h : Asks host asked start world) {entry : Entry} (hdeed : entry.isDeed = false)
    (hsignal : entry.isSignal = false) :
    Asks host (entry :: asked) start (world.record entry) :=
  { h with
    idle := List.forall_mem_cons.mpr ⟨hdeed, h.idle⟩
    course := h.course.record hsignal }

theorem receive (h : Asks host asked start world) {signal : Signal} (hsends : host.Sends signal) :
    Asks host asked start (world.receive signal) :=
  { h with course := h.course.receive hsends }

theorem heard (h : Asks host asked start world) (outside : σ) {signals : List Signal}
    (hsends : ∀ signal ∈ signals, host.Sends signal) :
    Asks host asked start (signals.foldl World.receive { world with outside := outside }) := by
  have hfold {now : World σ} (hnow : Asks host asked start now) :
      Asks host asked start (signals.foldl World.receive now) := by
    induction signals generalizing now with
    | nil => exact hnow
    | cons signal rest ih =>
        exact ih (fun s hs => hsends s (List.mem_cons_of_mem _ hs))
          (hnow.receive (hsends signal List.mem_cons_self))
  exact hfold { h with }

theorem changeIntake (h : Asks host asked start world) (f : Intake → Intake)
    {halted : Halt → World σ → Prop} :
    (Act.changeIntake f).Yields world
      (fun _ after => Asks host asked { start with intake := f start.intake } after) halted :=
  { h with intake := congrArg f h.intake }

/-!
# Questions
-/

theorem question (h : Asks host asked start world) {reply : Reply σ α}
    {entry : Except Halt α → Entry} (hdeed : ∀ answer, (entry answer).isDeed = false)
    (hsignal : ∀ answer, (entry answer).isSignal = false)
    (hsends : ∀ signal ∈ reply.signals, host.Sends signal) {act : Act σ α}
    (hact : act.perform world = (reply.answer, world.take reply entry)) :
    act.Yields world
      (fun a after => Asks host (entry (.ok a) :: asked) start after ∧ reply.answer = .ok a)
      (fun cause after => Asks host (entry (.error cause) :: asked) start after ∧
        reply.answer = .error cause) := by
  have hafter : Asks host (entry reply.answer :: asked) start (world.take reply entry) :=
    (h.heard reply.outside hsends).record (hdeed _) (hsignal _)
  unfold Act.Yields
  rw [hact]
  cases hanswer : reply.answer with
  | ok a => exact ⟨hanswer ▸ hafter, rfl⟩
  | error cause => exact ⟨hanswer ▸ hafter, rfl⟩

theorem blockAt (h : Asks host asked start world) (place : Lookup) :
    (Act.blockAt host place).Yields world
      (fun block after => Asks host (.askedBlock place (.ok block) :: asked) start after ∧
        host.Finds place (.ok block))
      (fun cause after => Asks host (.askedBlock place (.error cause) :: asked) start after ∧
        host.Finds place (.error cause)) := by
  refine (h.question (fun _ => rfl) (fun _ => rfl) (fun _ => .block) rfl).mono ?_ ?_
  · intro block after hended
    exact ⟨hended.1, world.outside, hended.2⟩
  · intro cause after hhalted
    exact ⟨hhalted.1, world.outside, hhalted.2⟩

theorem headerOf (h : Asks host asked start world) (hash : BlockHash) :
    (Act.headerOf host hash).Yields world
      (fun header after => Asks host (.askedHeader hash (.ok header) :: asked) start after ∧
        host.Tells hash (.ok header))
      (fun cause after => Asks host (.askedHeader hash (.error cause) :: asked) start after ∧
        host.Tells hash (.error cause)) := by
  refine (h.question (fun _ => rfl) (fun _ => rfl) (fun _ => .header) rfl).mono ?_ ?_
  · intro header after hended
    exact ⟨hended.1, world.outside, hended.2⟩
  · intro cause after hhalted
    exact ⟨hhalted.1, world.outside, hhalted.2⟩

theorem bestHash (h : Asks host asked start world) :
    (Act.bestHash host).Yields world
      (fun best after => Asks host (.askedBest (.ok best) :: asked) start after ∧
        host.Names (.ok best))
      (fun cause after => Asks host (.askedBest (.error cause) :: asked) start after ∧
        host.Names (.error cause)) := by
  refine (h.question (fun _ => rfl) (fun _ => rfl) (fun _ => .best) rfl).mono ?_ ?_
  · intro best after hended
    exact ⟨hended.1, world.outside, hended.2⟩
  · intro cause after hhalted
    exact ⟨hhalted.1, world.outside, hhalted.2⟩

theorem view (h : Asks host asked start world) :
    (Act.view host).Yields world
      (fun seen after => ∃ outages, Asks host (.viewed (.ok outages) :: asked) start after ∧
        host.Reads (.ok outages) ∧ seen = ⟨start.table, outages⟩)
      (fun cause after => Asks host (.viewed (.error cause) :: asked) start after ∧
        host.Reads (.error cause)) := by
  have hafter : Asks host (.viewed (host.outages world.outside).answer :: asked) start
      (world.take (host.outages world.outside) .viewed) :=
    (h.heard _ fun _ => .read).record rfl rfl
  unfold Act.Yields
  rw [Act.perform_view]
  cases hanswer : (host.outages world.outside).answer with
  | ok outages =>
      rw [hanswer] at hafter
      exact ⟨outages, hafter, ⟨world.outside, hanswer⟩, by rw [h.table]⟩
  | error cause =>
      rw [hanswer] at hafter
      exact ⟨hafter, world.outside, hanswer⟩

end Asks

/-!
# Questions that need not be answered
-/

/-- What becomes of an answer where it is no fault that nothing was found. -/
inductive Found (f : α → Option β) : Except Halt α → Option β → Prop where
  | given (a : α) : Found f (.ok a) (f a)
  | missing (what : String) : Found f (.error (.fault (.notFound what))) none

def Halt.IsMissing (cause : Halt) : Prop :=
  ∃ what, cause = .fault (.notFound what)

namespace Asks

variable {host : Host σ} {start world after : World σ} {asked older newer : List Entry}

theorem hashAt (h : Asks host asked start world) (height : UInt64) :
    (Act.hashAt host height).Yields world
      (fun found after => ∃ answer, Found (some ·.hash) answer found ∧
        Asks host (.askedBlock (.byHeight height) answer :: asked) start after ∧
        host.Finds (.byHeight height) answer)
      (fun cause after => ¬ cause.IsMissing ∧
        Asks host (.askedBlock (.byHeight height) (.error cause) :: asked) start after ∧
        host.Finds (.byHeight height) (.error cause)) := by
  rw [Act.hashAt, Act.yields_bind, Act.yields_attempt]
  refine (h.blockAt (.byHeight height)).mono ?_ ?_
  · intro block after hended
    exact ⟨_, .given block, hended⟩
  · intro cause after hhalted
    cases cause with
    | fault fault =>
        cases fault with
        | notFound what => exact ⟨_, .missing what, hhalted⟩
        | _ => exact ⟨by simp [Halt.IsMissing], hhalted⟩
    | _ => exact ⟨by simp [Halt.IsMissing], hhalted⟩

theorem parentOf (h : Asks host asked start world) (hash : BlockHash) :
    (Act.parentOf host hash).Yields world
      (fun found after => ∃ answer, Found Header.parent answer found ∧
        Asks host (.askedHeader hash answer :: asked) start after ∧ host.Tells hash answer)
      (fun cause after => ¬ cause.IsMissing ∧
        Asks host (.askedHeader hash (.error cause) :: asked) start after ∧
        host.Tells hash (.error cause)) := by
  rw [Act.parentOf, Act.yields_bind, Act.yields_attempt]
  refine (h.headerOf hash).mono ?_ ?_
  · intro header after hended
    exact ⟨_, .given header, hended⟩
  · intro cause after hhalted
    cases cause with
    | fault fault =>
        cases fault with
        | notFound what => exact ⟨_, .missing what, hhalted⟩
        | _ => exact ⟨by simp [Halt.IsMissing], hhalted⟩
    | _ => exact ⟨by simp [Halt.IsMissing], hhalted⟩

end Asks

/-!
# Lulls
-/

def Lull (host : Host σ) (world after : World σ) : Prop :=
  ∃ asked, Asks host asked world after

theorem Asks.lull {host : Host σ} {asked : List Entry} {world after : World σ}
    (h : Asks host asked world after) : Lull host world after :=
  ⟨asked, h⟩

namespace Lull

variable {host : Host σ} {start world after : World σ}

theorem refl (host : Host σ) (world : World σ) : Lull host world world :=
  ⟨[], .refl host world⟩

theorem trans (h : Lull host start world) (h' : Lull host world after) :
    Lull host start after := by
  rcases h with ⟨older, h⟩
  rcases h' with ⟨newer, h'⟩
  exact ⟨newer ++ older, h.trans h'⟩

theorem frontier (h : Lull host world after) : after.frontier = world.frontier := by
  rcases h with ⟨_, h⟩
  exact h.frontier

theorem intake (h : Lull host world after) : after.intake = world.intake := by
  rcases h with ⟨_, h⟩
  exact h.intake

theorem table (h : Lull host world after) : after.table = world.table := by
  rcases h with ⟨_, h⟩
  exact h.table

theorem course (h : Lull host world after) :
    ∃ said, after.course = said ++ world.course ∧ ∀ entry ∈ said, entry.isDeed = false := by
  rcases h with ⟨asked, h⟩
  rcases h.course with ⟨said, hcourse, _, rfl, _⟩
  refine ⟨said, hcourse, ?_⟩
  intro entry hentry
  rcases mem_answers hentry with hentry | ⟨signal, rfl⟩
  · exact h.idle entry hentry
  · rfl

theorem past (h : Lull host world after) : world.course <:+ after.course := by
  rcases h with ⟨_, h⟩
  exact h.past

theorem deeds_eq (h : Lull host world after) : deeds after.course = deeds world.course := by
  rcases h.course with ⟨said, hcourse, hsaid⟩
  rw [hcourse, deeds_append, deeds_eq_nil hsaid, List.nil_append]

theorem queued (h : Lull host world after) :
    ∀ block ∈ after.inbox.queue, block ∈ world.inbox.queue ∨ host.Sends (.notify block) := by
  intro block hblock
  rcases h with ⟨_, h⟩
  rcases h.course with ⟨said, _, hinbox, _, hsends⟩
  rw [hinbox] at hblock
  exact (Inbox.mem_heard hblock).imp_right (hsends _)

theorem stop (h : Lull host world after) (hstop : after.inbox.stopWanted = true) :
    world.inbox.stopWanted = true ∨ host.Sends (.stop true) := by
  rcases h with ⟨_, h⟩
  rcases h.course with ⟨said, _, hinbox, _, hsends⟩
  rw [hinbox] at hstop
  exact (Inbox.stopWanted_of_heard hstop).imp_right (hsends _)

end Lull

/-!
# Asking the indexes
-/

def consultation (track : Track) (block : Block) (direction : Direction) (table : Table)
    (outages : Outages) : List Entry :=
  [.consulted track block direction ⟨table, outages⟩, .viewed (.ok outages)]

/-- The indexes have no edits for the block, and what was asked by then. -/
inductive Host.Declines (host : Host σ) (track : Track) (block : Block) (direction : Direction)
    (start : World σ) (cause : Halt) : List Entry → World σ → Prop where
  | unread {after : World σ} : host.Reads (.error cause) →
      Declines host track block direction start cause [.viewed (.error cause)] after
  | unfit {outages : Outages} {past : List Entry} {after : World σ} :
      host.Reads (.ok outages) →
      host.catalogue.edits track block direction ⟨start.table, outages⟩ = .error cause →
      after.course = .consulted track block direction ⟨start.table, outages⟩ :: past →
      start.course <:+ past →
      Declines host track block direction start cause
        (consultation track block direction start.table outages) after

theorem Asks.consult {host : Host σ} {asked : List Entry} {start world : World σ}
    (h : Asks host asked start world) (track : Track) (block : Block) (direction : Direction) :
    (Act.consult host track block direction).Yields world
      (fun own after => ∃ outages,
        Asks host (consultation track block direction start.table outages ++ asked) start after ∧
        host.Reads (.ok outages) ∧
        host.catalogue.edits track block direction ⟨start.table, outages⟩ = .ok own)
      (fun cause after => ∃ more, Asks host (more ++ asked) start after ∧
        host.Declines track block direction start cause more after) := by
  rw [Act.consult, Act.yields_bind]
  refine h.view.mono ?_ fun _ _ hhalted => ⟨_, hhalted.1, .unread hhalted.2⟩
  intro seen viewed hended
  rcases hended with ⟨outages, hviewed, hreads, rfl⟩
  rw [Act.yields_bind, Act.yields_change, Act.yields_ofExcept]
  have hasked : Asks host (consultation track block direction start.table outages ++ asked) start
      (viewed.record (.consulted track block direction ⟨start.table, outages⟩)) :=
    hviewed.record rfl rfl
  cases hedits : host.catalogue.edits track block direction ⟨start.table, outages⟩ with
  | ok own => exact ⟨outages, hasked, hreads, hedits⟩
  | error cause => exact ⟨_, hasked, .unfit hreads hedits rfl hviewed.past⟩

/-!
# Steps
-/

namespace World

def landed (world : World σ) (track : Track) (own : List Edit) (pointer : Pointer) : World σ :=
  { world.record (.batch (own ++ [Frontier.edit track pointer]) (.ok ())) with
    table := world.table.commit (own ++ [Frontier.edit track pointer])
    frontier := world.frontier.move track pointer }

def stepped (world : World σ) (track : Track) (own : List Edit) (block : Block)
    (direction : Direction) (pointer : Pointer) : World σ :=
  match track with
  | .concurrent => world.landed .concurrent own pointer
  | .serial => (world.landed .serial own pointer).record (.emitted (Act.report block direction))

end World

theorem Asks.commit {host : Host σ} {asked : List Entry} {start world : World σ}
    (h : Asks host asked start world) (track : Track) (own : List Edit) (pointer : Pointer) :
    (Act.commit host track own pointer).Yields world
      (fun _ after =>
        (host.accept (own ++ [Frontier.edit track pointer]) world.outside).answer = .ok () ∧
        ∃ heard : World σ, Asks host asked start heard ∧ after = heard.landed track own pointer)
      (fun cause after =>
        (host.accept (own ++ [Frontier.edit track pointer]) world.outside).answer = .error cause ∧
        Asks host (.batch (own ++ [Frontier.edit track pointer]) (.error cause) :: asked) start
          after) := by
  rw [Act.commit, Act.yields_bind]
  generalize hbatch : own ++ [Frontier.edit track pointer] = batch
  have hheard := h.heard (host.accept batch world.outside).outside
    fun signal (hsignal : signal ∈ (host.accept batch world.outside).signals) => .batch hsignal
  unfold Act.Yields
  rw [Act.perform_write]
  unfold World.take
  cases hanswer : (host.accept batch world.outside).answer with
  | ok _ =>
      refine ⟨rfl, _, hheard, ?_⟩
      unfold World.landed
      rw [hheard.table, ← h.table, hbatch]
      rfl
  | error cause => exact ⟨rfl, hheard.record rfl rfl⟩

inductive Stepped (host : Host σ) (asked : List Entry) (track : Track) (block : Block)
    (direction : Direction) (world : World σ) : World σ → Prop where
  | step {heard : World σ} {outages : Outages} {own : List Edit} {pointer : Pointer} :
      Asks host (consultation track block direction world.table outages ++ asked) world heard →
      host.Reads (.ok outages) →
      host.catalogue.edits track block direction ⟨world.table, outages⟩ = .ok own →
      Act.destination block direction = .ok pointer →
      Stepped host asked track block direction world
        (heard.stepped track own block direction pointer)

def tidings (block : Block) (direction : Direction) : Track → List Entry
  | .concurrent => []
  | .serial => [.emitted (Act.report block direction)]

theorem Adds.landed {host : Host σ} {given : List Entry} {start world : World σ}
    (h : Adds host given start world) (track : Track) (own : List Edit) (pointer : Pointer) :
    Adds host (.batch (own ++ [Frontier.edit track pointer]) (.ok ()) :: given) start
      (world.landed track own pointer) :=
  h.record rfl

theorem Stepped.adds {host : Host σ} {asked : List Entry} {track : Track} {block : Block}
    {direction : Direction} {world after : World σ}
    (h : Stepped host asked track block direction world after) : ∃ outages own pointer,
      host.catalogue.edits track block direction ⟨world.table, outages⟩ = .ok own ∧
      Adds host (tidings block direction track ++
        .batch (own ++ [Frontier.edit track pointer]) (.ok ()) ::
          (consultation track block direction world.table outages ++ asked)) world after := by
  cases h with
  | @step heard outages own pointer hasks _ hown _ =>
      have hlanded := hasks.course.landed track own pointer
      refine ⟨outages, own, pointer, hown, ?_⟩
      cases track with
      | concurrent => exact hlanded
      | serial => exact hlanded.record rfl

theorem Stepped.past {host : Host σ} {asked : List Entry} {track : Track} {block : Block}
    {direction : Direction} {world after : World σ}
    (h : Stepped host asked track block direction world after) :
    world.course <:+ after.course := by
  rcases h.adds with ⟨_, _, _, _, hadds⟩
  exact hadds.past

inductive Host.Hinders (host : Host σ) (track : Track) (block : Block) (direction : Direction)
    (start : World σ) : Halt → List Entry → World σ → Prop where
  | declined {cause : Halt} {asked : List Entry} {after : World σ} :
      host.Declines track block direction start cause asked after →
      Hinders host track block direction start cause asked after
  | rootless {outages : Outages} {own : List Edit} {fault : Fault} {after : World σ} :
      host.catalogue.edits track block direction ⟨start.table, outages⟩ = .ok own →
      Act.destination block direction = .error fault →
      Hinders host track block direction start (.fault fault)
        (consultation track block direction start.table outages) after
  | refused {outages : Outages} {own : List Edit} {pointer : Pointer} {cause : Halt}
      {after : World σ} :
      host.catalogue.edits track block direction ⟨start.table, outages⟩ = .ok own →
      host.Takes (own ++ [Frontier.edit track pointer]) (.error cause) →
      Hinders host track block direction start cause
        (.batch (own ++ [Frontier.edit track pointer]) (.error cause) ::
          consultation track block direction start.table outages) after

theorem Asks.stepBlock {host : Host σ} {asked : List Entry} {start world : World σ}
    (h : Asks host asked start world) (track : Track) (block : Block) (direction : Direction) :
    (Act.stepBlock host track block direction).Yields world
      (fun _ after => Stepped host asked track block direction start after)
      (fun cause after => ∃ more, Asks host (more ++ asked) start after ∧
        host.Hinders track block direction start cause more after) := by
  rw [Act.stepBlock, Act.yields_bind]
  refine (h.consult track block direction).mono ?_ ?_
  · intro own consulted hended
    rcases hended with ⟨outages, hconsulted, hreads, hown⟩
    unfold Act.commitBlock
    rw [Act.yields_bind, Act.yields_ofExcept]
    cases hpointer : Act.destination block direction with
    | error fault => exact ⟨_, hconsulted, .rootless hown hpointer⟩
    | ok pointer =>
        show (Act.commit host track own pointer >>= _).Yields consulted _ _
        rw [Act.yields_bind]
        refine (hconsulted.commit track own pointer).mono ?_ ?_
        · intro _ after hended
          rcases hended with ⟨_, heard, hheard, rfl⟩
          have hstep := Stepped.step hheard hreads hown hpointer
          cases track with
          | concurrent => exact hstep
          | serial => exact hstep
        · intro cause after hhalted
          exact ⟨_, hhalted.2, .refused hown ⟨consulted.outside, hhalted.1⟩⟩
  · intro cause after hhalted
    rcases hhalted with ⟨more, hafter, hdeclines⟩
    exact ⟨more, hafter, .declined hdeclines⟩

end ChainIndex
