import ChainIndex.Proofs.Caution

/-!
# Escalation

A fault that stops an act goes up unchanged to whoever asked for the sync, and nobody is told of
it on the way.  If an index has no edits for a block, asking it is the last thing that the sync
does, and the sync ends with what the index raised, laid to that index.

Nothing is assumed of the host or of the indexes.
-/

namespace ChainIndex

/-!
# Faults of indexes
-/

theorem Fault.within_eq_service (name : String) (fault : Fault) :
    ∃ culprit reason, fault.within name = .service culprit reason := by
  cases fault with
  | service culprit reason => exact ⟨culprit, reason, rfl⟩
  | _ => exact ⟨name, _, rfl⟩

theorem Index.editsFor_fault {index : Index} {block : Block} {direction : Direction} {view : View}
    {fault : Fault} (h : index.editsFor block direction view = .error (.fault fault)) :
    ∃ culprit reason, fault = .service culprit reason := by
  unfold editsFor at h
  cases hedits : index.edits block direction view with
  | ok edits =>
      rw [hedits] at h
      cases h
  | error halt =>
      rw [hedits] at h
      cases halt with
      | fault raised =>
          cases h
          exact Fault.within_eq_service index.name raised
      | _ => cases h

namespace Catalogue

variable {block : Block} {direction : Direction} {view : View}

theorem gather_fault {indexes : List Index} {fault : Fault}
    (h : gather block direction view indexes = .error (.fault fault)) :
    ∃ culprit reason, fault = .service culprit reason := by
  induction indexes with
  | nil => cases h
  | cons index rest ih =>
      unfold gather at h
      cases hown : index.editsFor block direction view with
      | error halt =>
          rw [hown] at h
          cases h
          exact Index.editsFor_fault hown
      | ok own =>
          rw [hown] at h
          cases hmore : gather block direction view rest with
          | error halt =>
              rw [hmore] at h
              cases h
              exact ih hmore
          | ok more =>
              rw [hmore] at h
              cases h

theorem gather_of_raised {indexes : List Index} {index : Index} (hindex : index ∈ indexes)
    {raised : Halt} (h : index.edits block direction view = .error raised) :
    ∃ cause, gather block direction view indexes = .error cause := by
  induction indexes with
  | nil => cases hindex
  | cons first rest ih =>
      unfold gather
      cases hown : first.editsFor block direction view with
      | error halt => exact ⟨halt, rfl⟩
      | ok own =>
          rcases List.mem_cons.mp hindex with rfl | hrest
          · rw [Index.editsFor, h] at hown
            cases hown
          · rcases ih hrest with ⟨cause, hcause⟩
            exact ⟨cause, by rw [hcause]⟩

variable {catalogue : Catalogue} {track : Track}

/-- Whatever the indexes of a track raise is the fault of a service. -/
theorem edits_fault {fault : Fault}
    (h : catalogue.edits track block direction view = .error (.fault fault)) :
    ∃ culprit reason, fault = .service culprit reason :=
  gather_fault h

theorem edits_of_raised {index : Index} (hindex : index ∈ catalogue.on track) {raised : Halt}
    (h : index.edits block direction view = .error raised) :
    ∃ cause, catalogue.edits track block direction view = .error cause :=
  gather_of_raised hindex h

end Catalogue

/-!
# Stretches of the course
-/

structure Discreet (start : World σ) (said : List Entry) (after : World σ) : Prop where
  course : after.course = said ++ start.course
  wish : after.inbox.wish = (start.inbox.heard said).wish
  failures : failures said = []

structure Smooth (catalogue : Catalogue) (start : World σ) (said : List Entry) (after : World σ) :
    Prop extends Discreet start said after where
  fit : ∀ entry ∈ said, entry.isFit catalogue = true

def Escalated (catalogue : Catalogue) (start : World σ) (cause : Halt) (after : World σ) : Prop :=
  ∃ said, Discreet start said after ∧ Blames catalogue cause said

theorem Blames.fit {catalogue : Catalogue} {fault : Fault} {said : List Entry}
    (h : Blames catalogue (.fault fault) said)
    (hother : ∀ culprit reason, fault ≠ .service culprit reason) :
    ∀ entry ∈ said, entry.isFit catalogue = true := by
  cases h with
  | plain hfit => exact hfit
  | unfit hedits _ =>
      rcases Catalogue.edits_fault hedits with ⟨culprit, reason, hservice⟩
      exact absurd hservice (hother culprit reason)

namespace Discreet

variable {start middle after : World σ} {said more : List Entry}

theorem trans (h : Discreet start said middle) (h' : Discreet middle more after) :
    Discreet start (more ++ said) after where
  course := by rw [h'.course, h.course, List.append_assoc]
  wish := by rw [h'.wish, Inbox.heard_append, Inbox.wish_heard h.wish]
  failures := by rw [failures_append, h.failures, h'.failures, List.append_nil]

end Discreet

namespace Smooth

variable {catalogue : Catalogue} {start middle after : World σ} {said more : List Entry}

theorem refl (catalogue : Catalogue) (world : World σ) : Smooth catalogue world [] world :=
  ⟨⟨rfl, rfl, rfl⟩, by simp⟩

theorem trans (h : Smooth catalogue start said middle) (h' : Smooth catalogue middle more after) :
    Smooth catalogue start (more ++ said) after :=
  ⟨h.toDiscreet.trans h'.toDiscreet, List.forall_mem_append.mpr ⟨h'.fit, h.fit⟩⟩

theorem escalated (h : Smooth catalogue start said after) (cause : Halt) :
    Escalated catalogue start cause after :=
  ⟨said, h.toDiscreet, .plain h.fit⟩

theorem since (h : Smooth catalogue start said middle) {cause : Halt}
    (h' : Escalated catalogue middle cause after) : Escalated catalogue start cause after := by
  rcases h' with ⟨more, hdiscreet, hblames⟩
  exact ⟨_, h.toDiscreet.trans hdiscreet, hblames.append h.fit⟩

end Smooth

/-!
# Syncs
-/

section

variable {host : Host σ} {start world after : World σ} {said more : List Entry} {most : List Mark}
variable {cause : Halt}

theorem Stretch.discreet (h : Stretch host most world said after) : Discreet world said after :=
  ⟨h.course, congrArg Inbox.wish h.inbox, h.failures⟩

theorem Discreet.record (h : Discreet start said after) {entry : Entry}
    (hquiet : entry.failure? = none) (hsignal : entry.isSignal = false) :
    Discreet start (entry :: said) (after.record entry) where
  course := congrArg (entry :: ·) h.course
  wish := by
    show after.inbox.wish = ((start.inbox.heard said).hear entry).wish
    rw [Inbox.hear_of_isSignal hsignal, h.wish]
  failures := by
    show ((entry :: said).filterMap Entry.failure?).reverse = []
    rw [List.filterMap_cons_none hquiet]
    exact h.failures

theorem Smooth.record {catalogue : Catalogue} (h : Smooth catalogue start said after)
    {entry : Entry} (hfit : entry.isFit catalogue = true) (hquiet : entry.failure? = none)
    (hsignal : entry.isSignal = false) :
    Smooth catalogue start (entry :: said) (after.record entry) :=
  ⟨h.toDiscreet.record hquiet hsignal, List.forall_mem_cons.mpr ⟨hfit, h.fit⟩⟩

def Smooths (host : Host σ) (start world : World σ) : Prop :=
  ∃ said, Smooth host.catalogue start said world

theorem Smooths.logs (h : Smooths host start world) (h' : world.Logs host most after) :
    Smooths host start after := by
  rcases h with ⟨said, hsaid⟩
  rcases h' with ⟨more, hmore, hfit⟩
  exact ⟨more ++ said, hsaid.trans ⟨hmore.discreet, hfit⟩⟩

theorem Smooths.breaks (h : Smooths host start world) (h' : world.Breaks host most cause after) :
    Escalated host.catalogue start cause after := by
  rcases h with ⟨said, hsaid⟩
  rcases h' with ⟨more, hmore, hblames⟩
  exact hsaid.since ⟨more, hmore.discreet, hblames⟩

theorem Smooths.escalated (h : Smooths host start world) (cause : Halt) :
    Escalated host.catalogue start cause world := by
  rcases h with ⟨said, hsaid⟩
  exact hsaid.escalated cause

theorem Switching.keeps_smooth (host : Host σ) (start : World σ) :
    Switching.Keeps host (Smooths host start) (Escalated host.catalogue start) where
  halts h := h.escalated _
  asks hquestions hasks h := h.logs (hasks.logs hquestions)
  step _ _ _ hstepped h := h.logs (hstepped.logs (.questions (List.forall_mem_singleton.mpr rfl)))
  hinder _ hasks hhinders h :=
    h.breaks (hhinders.breaks hasks (.questions (List.forall_mem_singleton.mpr rfl)))
  switched h := by
    rcases h with ⟨said, hsaid⟩
    exact ⟨_, hsaid.record rfl rfl rfl⟩

theorem Forward.run_smooth (h : Smooths host start world) :
    (Forward.run host).Yields world (fun _ => Smooths host start)
      (Escalated host.catalogue start) := by
  refine run_of_turn (fun _ _ h => h.escalated _) ?_ ?_ h
  · intro world low next h
    rcases h with ⟨said, hsaid⟩
    exact ⟨said, { hsaid with }⟩
  · intro world h
    exact (turn_logs host world).mono (fun _ _ hended => h.logs hended.1)
      fun _ _ hhalted => h.breaks hhalted.1

theorem Following.keeps_smooth (host : Host σ) (start : World σ) :
    SyncKeeps host (Smooths host start) (Escalated host.catalogue start) where
  toKeeps := Switching.keeps_smooth host start
  entered := by
    intro phase world h
    rcases h with ⟨said, hsaid⟩
    have hentered : Smooth host.catalogue start (.entered phase :: said)
      (world.record (.entered phase)) := hsaid.record rfl rfl rfl
    exact ⟨_, { hentered with }⟩
  drained h := by
    rcases h with ⟨said, hsaid⟩
    exact ⟨said, { hsaid with }⟩
  forward := Forward.run_smooth
  stopped := by
    rintro cause world ⟨_, reason, rfl⟩ ⟨said, hdiscreet, hblames⟩
    exact ⟨said, hdiscreet, hblames.fit (by simp)⟩

theorem Following.sync_escalates (host : Host σ) (world : World σ) :
    (sync host).Yields world (fun _ after => ∃ said, Smooth host.catalogue world said after)
      fun cause after => Escalated host.catalogue world cause after :=
  (keeps_smooth host world).sync ⟨[], .refl host.catalogue world⟩

end

end ChainIndex
