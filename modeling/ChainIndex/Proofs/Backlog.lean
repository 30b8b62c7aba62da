import ChainIndex.Proofs.Stages
import ChainIndex.Proofs.Mirrors

/-!
# Backlog

How far fetching may be ahead of the serial track.  A course of events is read for two kinds of
entries: blocks that were had from the host, and batches of the serial track that landed.  At
no moment of a run of forward sync have there been more of the first than of the second by more
than the high water mark, whatever the host answers.
-/

namespace ChainIndex

def Entry.isFetch : Entry → Bool
  | .askedBlock _ (.ok _) => true
  | _ => false

def fetched (said : List Entry) : Nat :=
  said.countP Entry.isFetch

def committed (said : List Entry) : Nat :=
  said.countP (·.landing?.isSome)

/-- Since the start no more than so many blocks have been outstanding at any moment, and now no
more than so many are. -/
def Backlog (start : List Entry) (room ahead : Nat) (course : List Entry) : Prop :=
  ∃ said, course = said ++ start ∧
    (∀ recent, recent <:+ said → fetched recent ≤ committed recent + room) ∧
    fetched said ≤ committed said + ahead

namespace Backlog

variable {start course : List Entry} {room ahead more : Nat} {entry : Entry}

theorem begin (start : List Entry) (room ahead : Nat) : Backlog start room ahead start := by
  refine ⟨[], rfl, fun recent hrecent => ?_, Nat.zero_le _⟩
  rw [List.suffix_nil.mp hrecent]
  exact Nat.zero_le _

theorem mono (h : Backlog start room ahead course) (hmore : ahead ≤ more) :
    Backlog start room more course := by
  rcases h with ⟨said, hcourse, hrecent, hsaid⟩
  exact ⟨said, hcourse, hrecent, by omega⟩

theorem full (h : Backlog start room ahead course) : Backlog start room room course := by
  rcases h with ⟨said, hcourse, hrecent, _⟩
  exact ⟨said, hcourse, hrecent, hrecent said (List.suffix_refl said)⟩

theorem cons (h : Backlog start room ahead course)
    (hahead : ∀ said, fetched said ≤ committed said + ahead →
      fetched (entry :: said) ≤ committed (entry :: said) + more) (hroom : more ≤ room) :
    Backlog start room more (entry :: course) := by
  rcases h with ⟨said, rfl, hrecent, hsaid⟩
  have hnow := hahead said hsaid
  refine ⟨entry :: said, rfl, fun recent hsuffix => ?_, hnow⟩
  rcases List.suffix_cons_iff.mp hsuffix with rfl | hsuffix
  · omega
  · exact hrecent recent hsuffix

theorem other (h : Backlog start room ahead course) (hroom : ahead ≤ room)
    (hentry : entry.isFetch = false) : Backlog start room ahead (entry :: course) := by
  refine h.cons (fun said hsaid => ?_) hroom
  unfold fetched committed at hsaid ⊢
  rw [List.countP_cons, List.countP_cons, hentry, if_neg Bool.false_ne_true]
  split <;> omega

theorem landed (h : Backlog start room (ahead + 1) course) (hroom : ahead < room)
    (hentry : entry.isFetch = false) (hlanding : entry.landing?.isSome = true) :
    Backlog start room ahead (entry :: course) := by
  refine h.cons (fun said hsaid => ?_) (Nat.le_of_lt hroom)
  unfold fetched committed at hsaid ⊢
  rw [List.countP_cons, List.countP_cons, hentry, hlanding, if_neg Bool.false_ne_true, if_pos rfl]
  omega

theorem append (h : Backlog start room ahead course) (said : List Entry)
    (hroom : ahead + fetched said ≤ room) :
    Backlog start room (ahead + fetched said) (said ++ course) := by
  induction said with
  | nil => exact h
  | cons entry older ih =>
      have hcount : fetched (entry :: older) = fetched older + if entry.isFetch then 1 else 0 :=
        List.countP_cons
      rw [hcount] at hroom ⊢
      refine (ih (by omega)).cons (fun said hsaid => ?_) hroom
      unfold fetched committed at hsaid ⊢
      rw [List.countP_cons, List.countP_cons]
      omega

end Backlog

/-!
# What the stages fetch
-/

theorem fetched_append (newer older : List Entry) :
    fetched (newer ++ older) = fetched newer + fetched older :=
  List.countP_append

theorem fetched_cons {entry : Entry} (h : entry.isFetch = false) (older : List Entry) :
    fetched (entry :: older) = fetched older :=
  List.countP_cons_of_neg (by rw [h]; exact Bool.false_ne_true)

theorem fetched_eq_zero {said : List Entry} (h : ∀ entry ∈ said, entry.isFetch = false) :
    fetched said = 0 := by
  rw [fetched, List.countP_eq_zero]
  intro entry hentry
  rw [h entry hentry]
  exact Bool.false_ne_true

theorem fetched_answers (said : List Entry) : fetched (answers said) = fetched said := by
  rw [fetched, answers, List.countP_filter]
  refine List.countP_congr fun entry _ => ?_
  cases entry with
  | signalled signal => exact Iff.rfl
  | _ => simp [Entry.isSignal]

section

variable {host : Host σ} {start : List Entry} {room ahead : Nat} {world after : World σ}
variable {track : Track} {block : Block} {direction : Direction} {cause : Halt}
variable {given looked : List Entry}

theorem Backlog.adds (h : Backlog start room ahead world.course)
    (hadds : Adds host given world after) (hroom : ahead + fetched given ≤ room) :
    Backlog start room (ahead + fetched given) after.course := by
  rcases hadds with ⟨said, hcourse, _, rfl, _⟩
  rw [fetched_answers] at hroom ⊢
  rw [hcourse]
  exact h.append said hroom

theorem Backlog.idle (h : Backlog start room ahead world.course)
    (hadds : Adds host given world after) (hroom : ahead ≤ room) (hnone : fetched given = 0) :
    Backlog start room ahead after.course := by
  have hafter := h.adds hadds (by rwa [hnone])
  rwa [hnone] at hafter

theorem Host.Declines.fetched_eq (h : host.Declines track block direction world cause given after) :
    fetched given = 0 := by
  cases h <;> rfl

theorem Host.Hinders.fetched_eq (h : host.Hinders track block direction world cause given after) :
    fetched given = 0 := by
  cases h with
  | declined hdeclines => exact hdeclines.fetched_eq
  | _ => rfl

namespace Forward

variable {intake kept : Intake}

theorem Knows.fetched_eq {best : BlockHash} (h : Knows host intake best given) :
    fetched given = 0 := by
  cases h <;> rfl

theorem Offers.fetched_le {left : Option Block} (h : Offers host intake block left given) :
    fetched given ≤ 1 := by
  cases h with
  | announced _ _ => exact Nat.zero_le 1
  | found _ _ => exact Nat.le_refl 1

theorem FetchStep.fetched_le (h : FetchStep host intake given kept) : fetched given ≤ 1 := by
  cases h with
  | taken _ hknows _ hoffers _ _ | apart _ hknows _ hoffers _ =>
      rw [fetched_append, hknows.fetched_eq]
      exact hoffers.fetched_le
  | missing _ hknows _ _ _ =>
      rw [fetched_cons rfl, hknows.fetched_eq]
      exact Nat.zero_le 1
  | _ => exact Nat.zero_le 1

theorem FetchHalt.fetched_le (h : FetchHalt host intake cause given kept) : fetched given ≤ 1 := by
  cases h with
  | overflow hknows _ hoffers _ _ =>
      rw [fetched_append, hknows.fetched_eq]
      exact hoffers.fetched_le
  | lost hknows _ _ _ _ =>
      rw [fetched_cons rfl, hknows.fetched_eq]
      exact Nat.zero_le 1
  | unnamed _ => exact Nat.zero_le 1

theorem fetched_looks {table : Table} {blocks : List Block}
    (h : ∀ entry ∈ looked, IsLook host table track blocks entry) : fetched looked = 0 := by
  refine fetched_eq_zero fun entry hentry => ?_
  have hlook := h entry hentry
  cases entry <;> first | rfl | cases hlook

theorem GroupStep.backlog (hstep : GroupStep host world after)
    (h : Backlog start room ahead world.course) (hroom : ahead ≤ room) :
    Backlog start room ahead after.course := by
  cases hstep with
  | idle _ => exact h
  | grouped _ _ _ hlooked hasks =>
      exact (h.idle hasks.course hroom (fetched_looks hlooked)).other hroom rfl

theorem GroupHalt.backlog (hhalt : GroupHalt host world cause after)
    (h : Backlog start room ahead world.course) (hroom : ahead ≤ room) :
    Backlog start room ahead after.course := by
  cases hhalt with
  | declined _ hdeclines hlooked hasks =>
      refine h.idle hasks.course hroom ?_
      rw [fetched_append, hdeclines.fetched_eq, fetched_looks hlooked]
  | refused _ hlooked hasks =>
      exact h.idle hasks.course hroom ((fetched_cons rfl _).trans (fetched_looks hlooked))

theorem SerialHalt.backlog (hhalt : SerialHalt host world cause after)
    (h : Backlog start room ahead world.course) (hroom : ahead ≤ room) :
    Backlog start room ahead after.course := by
  cases hhalt with
  | hindered _ hhinders hasks => exact h.idle hasks.course hroom hhinders.fetched_eq

theorem Finishes.backlog {outcome : Outcome} (hfinishes : Finishes world outcome after)
    (h : Backlog start room ahead world.course) (hroom : ahead ≤ room) :
    Backlog start room ahead after.course := by
  cases hfinishes with
  | forked _ => exact h
  | synced _ => exact h.other hroom rfl

end Forward

end

/-!
# Forward sync
-/

namespace Forward

structure Measured (start : List Entry) (room : Nat) (world : World σ) : Prop where
  water : world.intake.highWater = room
  fits : world.intake.inFlight.length ≤ room
  backlog : ∃ ahead, ahead ≤ room ∧ Backlog start room ahead world.course ∧
    (world.intake.exhausted = false → ahead = world.intake.inFlight.length)

namespace Measured

variable {host : Host σ} {start : List Entry} {room : Nat} {world after : World σ}

theorem bounded (h : Measured start room world) : Backlog start room room world.course := by
  rcases h.backlog with ⟨_, _, hbacklog, _⟩
  exact hbacklog.full

theorem ahead (h : Measured start room world) (hopen : isStalled world.intake = false) :
    world.intake.inFlight.length < room ∧
      Backlog start room world.intake.inFlight.length world.course := by
  rcases h.backlog with ⟨ahead, _, hbacklog, hexact⟩
  have hfull : isFull world.intake = false := (Bool.or_eq_false_iff.mp hopen).2
  rw [isFull, h.water, decide_eq_false_iff_not] at hfull
  rw [hexact (exhausted_of_not_stalled hopen)] at hbacklog
  exact ⟨Nat.lt_of_not_le hfull, hbacklog⟩

theorem fetchStep {asked : List Entry} {kept : Intake}
    (hstep : FetchStep host world.intake asked kept)
    (hasks : Asks host asked { world with intake := kept } after)
    (h : Measured start room world) : Measured start room after := by
  cases hstalled : isStalled world.intake with
  | true =>
      cases hstep with
      | stalled _ =>
          rcases h.backlog with ⟨ahead, hroom, hbacklog, hexact⟩
          have hafter := hbacklog.idle hasks.course hroom rfl
          refine ⟨?_, ?_, ahead, hroom, hafter, ?_⟩
          all_goals rw [hasks.intake]
          · exact h.water
          · exact h.fits
          · exact hexact
      | taken hopen _ _ _ _ _ | caughtUp hopen _ | missing hopen _ _ _ _ | apart hopen _ _ _ _ =>
          cases hstalled.symm.trans hopen
  | false =>
      rcases h.ahead hstalled with ⟨hless, hbacklog⟩
      have hafter := (hbacklog.adds hasks.course (by have := hstep.fetched_le; omega)).mono
        (Nat.add_le_add_left hstep.fetched_le _)
      have hwater : after.intake.highWater = room := by
        rw [hasks.intake]
        exact hstep.sizes.2.trans h.water
      rcases hstep.inFlight hstalled with ⟨hexhausted, hflight⟩ | ⟨block, hflight⟩
      · refine ⟨hwater, ?_, room, Nat.le_refl room, hafter.full, ?_⟩
        · rw [hasks.intake, hflight]
          exact h.fits
        · rw [hasks.intake, hexhausted]
          exact fun hfalse => by cases hfalse
      · have hlength : after.intake.inFlight.length = world.intake.inFlight.length + 1 := by
          rw [hasks.intake, hflight, List.length_append, List.length_singleton]
        exact ⟨hwater, hlength ▸ hless, _, hless, hafter, fun _ => hlength.symm⟩

theorem groupStep (hstep : GroupStep host world after) (h : Measured start room world) :
    Measured start room after := by
  rcases h.backlog with ⟨ahead, hroom, hbacklog, hexact⟩
  have hafter := hstep.backlog hbacklog hroom
  cases hstep with
  | idle _ => exact h
  | grouped _ _ _ _ _ => exact ⟨h.water, h.fits, ahead, hroom, hafter, hexact⟩

theorem serialStep (hstep : SerialStep host world after) (h : Measured start room world) :
    Measured start room after := by
  rcases h.backlog with ⟨ahead, hroom, hbacklog, hexact⟩
  have hfits := h.fits
  cases hstep with
  | idle _ => exact h
  | @committed block moved hnext hstepped =>
      rcases nextSerial?_eq_some hnext with ⟨_, rest, hrest⟩
      cases hstepped with
      | @step heard outages own pointer hasks _ _ _ =>
          have hintake : heard.intake = world.intake := hasks.intake
          have hheard := hbacklog.idle hasks.course hroom rfl
          have hlanding : (Entry.batch (own ++ [Frontier.edit .serial pointer])
              (.ok ())).landing?.isSome = true := by
            rw [Entry.landing?_serial]
            rfl
          refine ⟨?_, ?_, ?_⟩
          · exact (congrArg Intake.highWater hintake).trans h.water
          · show heard.intake.inFlight.tail.length ≤ room
            rw [hintake, List.length_tail]
            omega
          · show ∃ ahead, _ ∧ Backlog start room ahead (.emitted (.indexed block.height) ::
              .emitted (Act.report block .apply) ::
              .batch (own ++ [Frontier.edit .serial pointer]) (.ok ()) :: heard.course) ∧
              (heard.intake.exhausted = false → ahead = heard.intake.inFlight.tail.length)
            rw [hintake]
            cases hexhausted : world.intake.exhausted with
            | true =>
                refine ⟨room, Nat.le_refl room, ?_, fun hopen => by cases hopen⟩
                exact ((hheard.full.other (Nat.le_refl room) rfl).other (Nat.le_refl room)
                  rfl).other (Nat.le_refl room) rfl
            | false =>
                rw [hexact hexhausted, hrest, List.length_cons] at hheard
                rw [hrest, List.length_cons] at hfits
                have hless : rest.length ≤ room := Nat.le_of_lt hfits
                have hlanded := hheard.landed hfits rfl hlanding
                rw [hrest]
                exact ⟨_, hless, (hlanded.other hless rfl).other hless rfl, fun _ => rfl⟩

theorem keeps (host : Host σ) (start : List Entry) (room : Nat) :
    StagesKeep host (Measured start room)
      fun _ after => Backlog start room room after.course where
  fetched := fetchStep
  grouped := groupStep
  committed := serialStep
  fetchHalt := by
    intro _ _ asked world after hopen hhalt hasks h
    rcases h.ahead hopen with ⟨hless, hbacklog⟩
    have hroom : world.intake.inFlight.length + fetched asked ≤ room := by
      have hfetched := hhalt.fetched_le
      omega
    exact (hbacklog.adds hasks.course hroom).full
  groupHalt hhalt h := hhalt.backlog h.bounded (Nat.le_refl room)
  serialHalt hhalt h := hhalt.backlog h.bounded (Nat.le_refl room)

end Measured

/-- At no moment of forward sync are more blocks outstanding than the high water mark allows,
whatever the host answers and however the run comes out. -/
theorem run_backlog (host : Host σ) (world : World σ) :
    (run host).Yields world
      (fun _ after => Backlog world.course world.intake.highWater world.intake.highWater
        after.course)
      fun _ after => Backlog world.course world.intake.highWater world.intake.highWater
        after.course := by
  have hbegun := Backlog.begin world.course world.intake.highWater world.intake.highWater
  refine run_of_turns (fun _ => hbegun) (fun _ _ => hbegun) fun next _ _ => ?_
  refine (Measured.keeps host _ _).turns ?_ ?_ (fun _ hnow => hnow.bounded) _
  · exact ⟨rfl, Nat.zero_le _, 0, Nat.zero_le _, .begin _ _ 0, fun _ => rfl⟩
  · intro now outcome after hnow hends
    cases hends with
    | stopped _ => exact hnow.bounded
    | finished _ hleft hfinishes => exact hfinishes.backlog hleft.bounded (Nat.le_refl _)

end Forward

end ChainIndex
