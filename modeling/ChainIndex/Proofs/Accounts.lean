import ChainIndex.Proofs.Stages
import ChainIndex.Proofs.SwitchSteps

/-!
# Accounts

What an act adds to the course of events accounts for all that becomes of the inbox: callers
are heard, and nothing else touches it.  Two kinds of entries are counted, the questions for
the best hash and the batches: for each step there is a list of such marks, and the step leaves
no more marks than that, and in no other order.  Nobody is told of a fault.  The indexes have edits
for every block they are asked for; where they have none, asking them is the last thing that is
said.
-/

namespace ChainIndex

/-!
# Marks
-/

/-- The track whose batch the entry is of, if it is of one.  The last edit of a batch says whose
it is. -/
def Entry.track? : Entry → Option Track
  | .batch edits _ =>
      some (if edits.getLast?.any (·.key = Frontier.key .serial) then .serial else .concurrent)
  | _ => none

def Entry.asksBest : Entry → Bool
  | .askedBest _ => true
  | _ => false

inductive Mark where
  | best
  | batch (track : Track)
deriving DecidableEq

def Entry.mark? : Entry → Option Mark
  | .askedBest _ => some .best
  | entry => entry.track?.map .batch

def marks (said : List Entry) : List Mark :=
  said.filterMap Entry.mark?

theorem marks_append (newer older : List Entry) :
    marks (newer ++ older) = marks newer ++ marks older :=
  List.filterMap_append

theorem Entry.track?_batch (own : List Edit) (track : Track) (pointer : Pointer)
    (answer : Except Halt Unit) :
    (Entry.batch (own ++ [Frontier.edit track pointer]) answer).track? = some track := by
  have hkey : (Frontier.edit track pointer).key = Frontier.key track := rfl
  rw [track?, List.getLast?_concat, Option.any_some, hkey]
  cases track <;> decide

/-!
# Faults
-/

def Entry.failure? : Entry → Option Fault
  | .emitted (.failed cause) => some cause
  | _ => none

def failures (said : List Entry) : List Fault :=
  (said.filterMap Entry.failure?).reverse

theorem failures_append (newer older : List Entry) :
    failures (newer ++ older) = failures older ++ failures newer := by
  rw [failures, List.filterMap_append, List.reverse_append]
  rfl

def Entry.isFit (catalogue : Catalogue) : Entry → Bool
  | .consulted track block direction view => (catalogue.edits track block direction view).isOk
  | _ => true

inductive Blames (catalogue : Catalogue) (cause : Halt) : List Entry → Prop where
  | plain {said : List Entry} :
      (∀ entry ∈ said, entry.isFit catalogue = true) → Blames catalogue cause said
  | unfit {older : List Entry} {track : Track} {block : Block} {direction : Direction}
      {view : View} :
      catalogue.edits track block direction view = .error cause →
      (∀ entry ∈ older, entry.isFit catalogue = true) →
      Blames catalogue cause (.consulted track block direction view :: older)

theorem Blames.append {catalogue : Catalogue} {cause : Halt} {more said : List Entry}
    (h : Blames catalogue cause more) (hsaid : ∀ entry ∈ said, entry.isFit catalogue = true) :
    Blames catalogue cause (more ++ said) := by
  cases h with
  | plain hmore => exact .plain (List.forall_mem_append.mpr ⟨hmore, hsaid⟩)
  | unfit hedits holder => exact .unfit hedits (List.forall_mem_append.mpr ⟨holder, hsaid⟩)

/-!
# What is noted
-/

/-- The entries leave no more marks than these, and all is well. -/
structure Notes (catalogue : Catalogue) (most : List Mark) (given : List Entry) : Prop where
  marks : (marks given).Sublist most
  silent : ∀ entry ∈ given, entry.failure? = none
  fit : ∀ entry ∈ given, entry.isFit catalogue = true

namespace Notes

variable {catalogue : Catalogue} {most more : List Mark} {given newer older : List Entry}
variable {track : Track} {block : Block} {direction : Direction}

theorem append (h : Notes catalogue more newer) (h' : Notes catalogue most older) :
    Notes catalogue (more ++ most) (newer ++ older) where
  marks := by
    rw [marks_append]
    exact h.marks.append h'.marks
  silent := List.forall_mem_append.mpr ⟨h.silent, h'.silent⟩
  fit := List.forall_mem_append.mpr ⟨h.fit, h'.fit⟩

theorem nil : Notes catalogue [] [] :=
  ⟨.refl _, by simp, by simp⟩

theorem of_plain (hmark : ∀ entry ∈ given, entry.mark? = none)
    (hsilent : ∀ entry ∈ given, entry.failure? = none)
    (hfit : ∀ entry ∈ given, entry.isFit catalogue = true) : Notes catalogue [] given where
  marks := by
    rw [List.sublist_nil]
    exact List.filterMap_eq_nil_iff.mpr hmark
  silent := hsilent
  fit := hfit

theorem questions (h : ∀ entry ∈ given, entry.isQuestion = true) :
    Notes catalogue (ChainIndex.marks given) given where
  marks := .refl _
  silent := by
    intro entry hentry
    have hquestion := h entry hentry
    cases entry <;> first | rfl | cases hquestion
  fit := by
    intro entry hentry
    have hquestion := h entry hentry
    cases entry <;> first | rfl | cases hquestion

theorem consultation {table : Table} {outages : Outages} {own : List Edit}
    (hown : catalogue.edits track block direction ⟨table, outages⟩ = .ok own) :
    Notes catalogue [] (consultation track block direction table outages) := by
  refine of_plain ?_ ?_ ?_
  · simp [ChainIndex.consultation, Entry.mark?, Entry.track?]
  · simp [ChainIndex.consultation, Entry.failure?]
  · simp [ChainIndex.consultation, Entry.isFit, hown, Except.isOk, Except.toBool]

theorem looks {host : Host σ} {table : Table} {blocks : List Block}
    (h : ∀ entry ∈ given, Forward.IsLook host table track blocks entry) :
    Notes host.catalogue [] given := by
  refine of_plain ?_ ?_ ?_
  · intro entry hentry
    have hlook := h entry hentry
    cases entry <;> first | rfl | cases hlook
  · intro entry hentry
    have hlook := h entry hentry
    cases entry <;> first | rfl | cases hlook
  · intro entry hentry
    have hlook := h entry hentry
    cases entry with
    | consulted track' block' direction' view =>
        rcases hlook with ⟨rfl, _, rfl, _, own, hown⟩
        rw [Entry.isFit, hown]
        rfl
    | _ => rfl

theorem batch (own : List Edit) (track : Track) (pointer : Pointer) (answer : Except Halt Unit) :
    Notes catalogue [.batch track] [.batch (own ++ [Frontier.edit track pointer]) answer] where
  marks := by
    have hmark : (Entry.batch (own ++ [Frontier.edit track pointer]) answer).mark? =
        some (.batch track) :=
      congrArg (Option.map Mark.batch) (Entry.track?_batch own track pointer answer)
    rw [ChainIndex.marks, List.filterMap_cons_some hmark]
    exact .refl _
  silent := List.forall_mem_singleton.mpr rfl
  fit := List.forall_mem_singleton.mpr rfl

theorem event {event : Event} (h : ∀ cause, event ≠ .failed cause) :
    Notes catalogue [] [.emitted event] := by
  refine of_plain (List.forall_mem_singleton.mpr rfl) (List.forall_mem_singleton.mpr ?_)
    (List.forall_mem_singleton.mpr rfl)
  cases event with
  | failed cause => exact absurd rfl (h cause)
  | _ => rfl

theorem tidings (block : Block) (direction : Direction) (track : Track) :
    Notes catalogue [] (tidings block direction track) := by
  cases track with
  | concurrent => exact nil
  | serial => exact event (by cases direction <;> simp [Act.report])

end Notes

/-!
# Accounts of worlds
-/

structure Stretch (host : Host σ) (most : List Mark) (world : World σ) (said : List Entry)
    (after : World σ) : Prop where
  course : after.course = said ++ world.course
  inbox : after.inbox = world.inbox.heard said
  sends : ∀ signal, .signalled signal ∈ said → host.Sends signal
  marks : (marks said).Sublist most
  failures : failures said = []

namespace World

def Logs (host : Host σ) (most : List Mark) (world after : World σ) : Prop :=
  ∃ said, Stretch host most world said after ∧ ∀ entry ∈ said, entry.isFit host.catalogue = true

def Breaks (host : Host σ) (most : List Mark) (cause : Halt) (world after : World σ) : Prop :=
  ∃ said, Stretch host most world said after ∧ Blames host.catalogue cause said

end World

section

variable {host : Host σ} {start world after : World σ} {most more : List Mark}
variable {given newer older : List Entry} {cause : Halt}

theorem Stretch.trans {said later : List Entry} (h : Stretch host most start said world)
    (h' : Stretch host more world later after) :
    Stretch host (more ++ most) start (later ++ said) after where
  course := by rw [h'.course, h.course, List.append_assoc]
  inbox := by rw [h'.inbox, h.inbox, Inbox.heard_append]
  sends signal hsignal := (List.mem_append.mp hsignal).elim (h'.sends signal) (h.sends signal)
  marks := by
    rw [marks_append]
    exact h'.marks.append h.marks
  failures := by
    rw [failures_append, h.failures, h'.failures]
    rfl

theorem Stretch.mono {said : List Entry} (h : Stretch host more world said after)
    (hmost : more.Sublist most) : Stretch host most world said after :=
  { h with marks := h.marks.trans hmost }

namespace World

theorem Logs.refl (host : Host σ) (world : World σ) : Logs host [] world world :=
  ⟨[], ⟨rfl, rfl, by simp, .refl _, rfl⟩, by simp⟩

theorem Logs.mono (h : Logs host more world after) (hmost : more.Sublist most) :
    Logs host most world after := by
  rcases h with ⟨said, hsaid, hfit⟩
  exact ⟨said, hsaid.mono hmost, hfit⟩

theorem Logs.trans (h : Logs host most start world) (h' : Logs host more world after) :
    Logs host (more ++ most) start after := by
  rcases h with ⟨said, hsaid, hfit⟩
  rcases h' with ⟨later, hlater, hfit'⟩
  exact ⟨later ++ said, hsaid.trans hlater, List.forall_mem_append.mpr ⟨hfit', hfit⟩⟩

theorem Logs.forget {intake : Intake} (h : Logs host most { world with intake := intake } after) :
    Logs host most world after := by
  rcases h with ⟨said, hsaid, hfit⟩
  exact ⟨said, { hsaid with }, hfit⟩

theorem Logs.remember (h : Logs host most world after) (intake : Intake) :
    Logs host most world { after with intake := intake } := by
  rcases h with ⟨said, hsaid, hfit⟩
  exact ⟨said, { hsaid with }, hfit⟩

theorem Logs.breaks (h : Logs host most world after) (cause : Halt) :
    Breaks host most cause world after := by
  rcases h with ⟨said, hsaid, hfit⟩
  exact ⟨said, hsaid, .plain hfit⟩

theorem Breaks.mono (h : Breaks host more cause world after) (hmost : more.Sublist most) :
    Breaks host most cause world after := by
  rcases h with ⟨said, hsaid, hblames⟩
  exact ⟨said, hsaid.mono hmost, hblames⟩

theorem Logs.since (h : Logs host most start world) (h' : Breaks host more cause world after) :
    Breaks host (more ++ most) cause start after := by
  rcases h with ⟨said, hsaid, hfit⟩
  rcases h' with ⟨later, hlater, hblames⟩
  exact ⟨later ++ said, hsaid.trans hlater, hblames.append hfit⟩

end World

/-!
# Accounts of steps
-/

theorem Adds.stretch (h : Adds host given world after) (hmost : (marks given).Sublist most)
    (hsilent : ∀ entry ∈ given, entry.failure? = none) :
    ∃ said, Stretch host most world said after ∧ answers said = given := by
  rcases h with ⟨said, hcourse, hinbox, rfl, hsends⟩
  refine ⟨said, ⟨hcourse, hinbox, hsends, ?_, ?_⟩, rfl⟩
  · rw [marks, ← filterMap_answers fun _ => rfl]
    exact hmost
  · rw [failures, ← filterMap_answers fun _ => rfl, List.filterMap_eq_nil_iff.mpr hsilent]
    rfl

theorem isFit_of_answers {catalogue : Catalogue} {said : List Entry}
    (h : ∀ entry ∈ answers said, entry.isFit catalogue = true) :
    ∀ entry ∈ said, entry.isFit catalogue = true := by
  intro entry hentry
  rcases mem_answers hentry with hentry | ⟨signal, rfl⟩
  · exact h entry hentry
  · rfl

theorem Adds.logs (h : Adds host given world after) (hnotes : Notes host.catalogue most given) :
    world.Logs host most after := by
  rcases h.stretch hnotes.marks hnotes.silent with ⟨said, hsaid, rfl⟩
  exact ⟨said, hsaid, isFit_of_answers hnotes.fit⟩

theorem Asks.logs (h : Asks host given world after)
    (hquestions : ∀ entry ∈ given, entry.isQuestion = true) :
    world.Logs host (marks given) after :=
  h.course.logs (.questions hquestions)

theorem Adds.breaks {track : Track} {block : Block} {direction : Direction} {view : View}
    {past : List Entry} (h : Adds host (.consulted track block direction view :: older) world after)
    (hedits : host.catalogue.edits track block direction view = .error cause)
    (hlast : after.course = .consulted track block direction view :: past)
    (hpast : world.course <:+ past) (hnotes : Notes host.catalogue most older) :
    world.Breaks host most cause after := by
  have hsilent : ∀ entry ∈ Entry.consulted track block direction view :: older,
      entry.failure? = none := List.forall_mem_cons.mpr ⟨rfl, hnotes.silent⟩
  rcases h.stretch hnotes.marks hsilent with ⟨said, hsaid, hgiven⟩
  rcases hpast with ⟨front, rfl⟩
  have hfront : said = .consulted track block direction view :: front :=
    List.append_cancel_right (hsaid.course.symm.trans hlast)
  subst hfront
  rw [answers_cons rfl] at hgiven
  rw [← (List.cons.inj hgiven).2] at hnotes
  exact ⟨_, hsaid, .unfit hedits (isFit_of_answers hnotes.fit)⟩

variable {track : Track} {block : Block} {direction : Direction}

theorem Host.Declines.breaks (h : host.Declines track block direction world cause newer after)
    (hasks : Asks host (newer ++ older) world after) (hnotes : Notes host.catalogue most older) :
    world.Breaks host most cause after := by
  cases h with
  | unread _ =>
      have hviewed : Notes host.catalogue [] [.viewed (.error cause)] :=
        .of_plain (by simp [Entry.mark?, Entry.track?]) (by simp [Entry.failure?])
          (by simp [Entry.isFit])
      exact (hasks.course.logs (hviewed.append hnotes)).breaks cause
  | @unfit outages _ _ _ hedits hlast hpast =>
      have hviewed : Notes host.catalogue [] [.viewed (.ok outages)] :=
        .of_plain (by simp [Entry.mark?, Entry.track?]) (by simp [Entry.failure?])
          (by simp [Entry.isFit])
      exact hasks.course.breaks hedits hlast hpast (hviewed.append hnotes)

theorem Host.Hinders.breaks (h : host.Hinders track block direction world cause newer after)
    (hasks : Asks host (newer ++ older) world after) (hnotes : Notes host.catalogue most older) :
    world.Breaks host (.batch track :: most) cause after := by
  cases h with
  | declined hdeclines => exact (hdeclines.breaks hasks hnotes).mono (List.sublist_cons_self _ _)
  | rootless hown _ =>
      have hlogs := hasks.course.logs ((Notes.consultation hown).append hnotes)
      exact (hlogs.breaks _).mono (List.sublist_cons_self _ _)
  | refused hown _ =>
      exact (hasks.course.logs
        (((Notes.batch _ track _ _).append (.consultation hown)).append hnotes)).breaks _

theorem Stepped.logs (h : Stepped host older track block direction world after)
    (hnotes : Notes host.catalogue most older) :
    world.Logs host (.batch track :: most) after := by
  rcases h.adds with ⟨outages, own, pointer, hown, hadds⟩
  exact hadds.logs ((Notes.tidings block direction track).append
    ((Notes.batch own track pointer _).append ((Notes.consultation hown).append hnotes)))

end

/-!
# Accounts of turns
-/

namespace Forward

variable {host : Host σ} {world after : World σ} {cause : Halt} {intake kept : Intake}
variable {asked : List Entry}

theorem Knows.marks {best : BlockHash} (h : Knows host intake best asked) :
    (marks asked).Sublist [.best] := by
  cases h with
  | named _ => exact .refl _
  | kept _ => exact List.nil_sublist _

theorem Offers.marks {block : Block} {left : Option Block}
    (h : Offers host intake block left asked) : marks asked = [] := by
  cases h <;> rfl

theorem FetchStep.marks (h : FetchStep host intake asked kept) :
    (marks asked).Sublist [.best] := by
  cases h with
  | stalled _ => exact List.nil_sublist _
  | taken _ hknows _ hoffers _ _ =>
      rw [marks_append, hoffers.marks]
      exact hknows.marks
  | caughtUp _ _ => exact .refl _
  | missing _ hknows _ _ _ => exact hknows.marks
  | apart _ hknows _ hoffers _ =>
      rw [marks_append, hoffers.marks]
      exact hknows.marks

theorem FetchHalt.marks (h : FetchHalt host intake cause asked kept) :
    (marks asked).Sublist [.best] := by
  cases h with
  | unnamed _ => exact .refl _
  | lost hknows _ _ _ _ => exact hknows.marks
  | overflow hknows _ hoffers _ _ =>
      rw [marks_append, hoffers.marks]
      exact hknows.marks

theorem GroupStep.logs (h : GroupStep host world after) :
    world.Logs host [.batch .concurrent] after := by
  cases h with
  | idle _ => exact (World.Logs.refl host world).mono (List.nil_sublist _)
  | @grouped last edits _ _ _ _ _ hlooked hasks =>
      have hlanded := (hasks.course.landed .concurrent edits last.pointer).logs
        ((Notes.batch edits .concurrent last.pointer _).append (.looks hlooked))
      exact hlanded.remember _

theorem GroupHalt.breaks (h : GroupHalt host world cause after) :
    world.Breaks host [.batch .concurrent] cause after := by
  cases h with
  | declined _ hdeclines hlooked hasks =>
      exact (hdeclines.breaks hasks (.looks hlooked)).mono (List.nil_sublist _)
  | refused _ hlooked hasks =>
      exact (hasks.course.logs ((Notes.batch _ .concurrent _ _).append (.looks hlooked))).breaks _

theorem SerialStep.logs (h : SerialStep host world after) :
    world.Logs host [.batch .serial] after := by
  cases h with
  | idle _ => exact (World.Logs.refl host world).mono (List.nil_sublist _)
  | @committed block moved _ hstepped =>
      exact ((hstepped.logs .nil).remember _).trans
        (((Adds.refl host _).record rfl).logs (.event (by simp)))

theorem SerialHalt.breaks (h : SerialHalt host world cause after) :
    world.Breaks host [.batch .serial] cause after := by
  cases h with
  | hindered _ hhinders hasks =>
      exact hhinders.breaks (by rwa [List.append_nil]) .nil

theorem Finishes.logs {outcome : Outcome} (h : Finishes world outcome after) :
    world.Logs host [] after := by
  cases h with
  | forked _ => exact .refl host _
  | synced _ =>
      exact ((Adds.refl host world).record rfl).logs (.event (by simp))

theorem turn_logs (host : Host σ) (world : World σ) :
    (turn host ()).Yields world
      (fun _ after => world.Logs host [.batch .serial, .batch .concurrent, .best] after ∧
        (world.inbox.stopWanted = true → after = world))
      (fun cause after =>
        world.Breaks host [.batch .serial, .batch .concurrent, .best] cause after ∧
          world.inbox.stopWanted = false) := by
  refine turn_of_stages ?_ fun hgoing => ?_
  · intro _
    exact ⟨(World.Logs.refl host world).mono (List.nil_sublist _), fun _ => rfl⟩
  have hnever {after : World σ} (hwanted : world.inbox.stopWanted = true) : after = world := by
    cases hgoing.symm.trans hwanted
  refine (fetchStage_yields host world).mono ?_ ?_
  · intro _ fetched hended
    rcases hended with ⟨asked, kept, hstep, hasks⟩
    have hfetched : world.Logs host [.best] fetched :=
      (hasks.logs hstep.questions).forget.mono hstep.marks
    refine (groupStage_yields host fetched).mono ?_ ?_
    · intro _ grouped hgroup
      have hgrouped := hfetched.trans hgroup.logs
      refine (serialStage_yields host grouped).mono ?_ ?_
      · intro _ left hserial
        have hleft := hgrouped.trans hserial.logs
        refine ⟨fun _ => ⟨hleft, hnever⟩, fun _ outcome after hfinishes => ?_⟩
        exact ⟨hleft.trans hfinishes.logs, hnever⟩
      · intro cause after hhalt
        exact ⟨hgrouped.since hhalt.breaks, hgoing⟩
    · intro cause after hhalt
      exact ⟨(hfetched.since hhalt.breaks).mono (List.sublist_cons_self _ _), hgoing⟩
  · intro cause after hhalted
    rcases hhalted with ⟨_, asked, kept, hhalt, hasks⟩
    have hlogs : world.Logs host [.best] after :=
      (hasks.logs hhalt.questions).forget.mono hhalt.marks
    exact ⟨(hlogs.breaks cause).mono (by simp), hgoing⟩

end Forward

end ChainIndex
