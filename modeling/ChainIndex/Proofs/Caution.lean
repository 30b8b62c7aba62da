import ChainIndex.Proofs.Accounts
import ChainIndex.Proofs.RunTurns

/-!
# Caution

A stretch of the course minds the wish to stop if no batch is offered in it when the wish stands
from the beginning, and at most one more for each track when the wish is uttered on the way.  Such
stretches may follow one another, since whoever comes next finds the wish standing.  So it is
enough that each step of a sync looks for the wish first, and that it offers no more than one
batch for each track.

This needs callers who do not take the wish back.
-/

namespace ChainIndex

/-!
# Batches
-/

def batches (said : List Entry) : List Track :=
  said.filterMap Entry.track?

def Mark.track? : Mark → Option Track
  | .best => none
  | .batch track => some track

theorem batches_append (newer older : List Entry) :
    batches (newer ++ older) = batches newer ++ batches older :=
  List.filterMap_append

theorem track?_bind_mark? (entry : Entry) : entry.mark?.bind Mark.track? = entry.track? := by
  cases entry <;> rfl

theorem batches_sublist {said : List Entry} {most : List Mark} (h : (marks said).Sublist most) :
    (batches said).Sublist (most.filterMap Mark.track?) := by
  have hbatches : batches said = (marks said).filterMap Mark.track? := by
    rw [marks, List.filterMap_filterMap]
    exact congrArg (List.filterMap · said) (funext fun entry => (track?_bind_mark? entry).symm)
  rw [hbatches]
  exact h.filterMap _

/-!
# The wish to stop
-/

namespace Inbox

def wish (inbox : Inbox) : Bool × Bool :=
  (inbox.stopWanted, inbox.attached)

theorem stopWanted_of_wish {a b : Inbox} (h : a.wish = b.wish) : a.stopWanted = b.stopWanted :=
  congrArg Prod.fst h

def wishAfter (wish : Bool × Bool) : Signal → Bool × Bool
  | .notify _ => wish
  | .stop wanted => (if wish.2 then wanted else wish.1, wish.2)
  | .release => (wish.1, false)

theorem wish_receive (inbox : Inbox) (signal : Signal) :
    (inbox.receive signal).wish = wishAfter inbox.wish signal := by
  unfold receive wish
  cases hattached : inbox.attached with
  | false =>
      rw [if_neg Bool.false_ne_true, hattached]
      cases signal <;> rfl
  | true =>
      rw [if_pos rfl]
      cases signal with
      | notify block =>
          dsimp only
          split
          · rfl
          · exact congrArg (Prod.mk inbox.stopWanted) hattached
      | stop wanted => rfl
      | release => rfl

theorem wish_heard {a b : Inbox} (h : a.wish = b.wish) (said : List Entry) :
    (a.heard said).wish = (b.heard said).wish := by
  induction said with
  | nil => exact h
  | cons entry older ih =>
      cases entry with
      | signalled signal =>
          show ((a.heard older).receive signal).wish = ((b.heard older).receive signal).wish
          rw [wish_receive, wish_receive, ih]
      | _ => exact ih

theorem stopWanted_heard {inbox : Inbox} (h : inbox.stopWanted = true) {said : List Entry}
    (hstands : .signalled (.stop false) ∉ said) : (inbox.heard said).stopWanted = true := by
  induction said with
  | nil => exact h
  | cons entry older ih =>
      rw [List.mem_cons, not_or] at hstands
      have holder := ih hstands.2
      cases entry with
      | signalled signal =>
          have hwish := wish_receive (inbox.heard older) signal
          show ((inbox.heard older).receive signal).wish.1 = true
          rw [hwish]
          cases signal with
          | notify block => exact holder
          | stop wanted =>
              cases wanted with
              | true =>
                  show (if (inbox.heard older).attached then true
                    else (inbox.heard older).stopWanted) = true
                  rw [holder, ite_self]
              | false => exact absurd rfl hstands.1
          | release => exact holder
      | _ => exact holder

end Inbox

/-!
# Minding the wish
-/

structure Mindful (host : Host σ) (start : World σ) (said : List Entry) (after : World σ) :
    Prop where
  course : after.course = said ++ start.course
  wish : after.inbox.wish = (start.inbox.heard said).wish
  sends : ∀ signal, .signalled signal ∈ said → host.Sends signal
  idle : start.inbox.stopWanted = true → batches said = []
  once : ∀ newer older, said = newer ++ older → (start.inbox.heard older).stopWanted = true →
    (batches newer).Nodup

namespace Mindful

variable {host : Host σ} {start middle after : World σ} {said more : List Entry}

theorem trans (hstands : ¬ host.Sends (.stop false)) (h : Mindful host start said middle)
    (h' : Mindful host middle more after) : Mindful host start (more ++ said) after where
  course := by rw [h'.course, h.course, List.append_assoc]
  wish := by rw [h'.wish, Inbox.heard_append, Inbox.wish_heard h.wish]
  sends signal hsignal := (List.mem_append.mp hsignal).elim (h'.sends signal) (h.sends signal)
  idle hwanted := by
    have hmiddle : middle.inbox.stopWanted = true := by
      rw [Inbox.stopWanted_of_wish h.wish]
      exact Inbox.stopWanted_heard hwanted fun hmem => hstands (h.sends _ hmem)
    rw [batches_append, h'.idle hmiddle, h.idle hwanted]
    rfl
  once newer older hsplit hwanted := by
    rcases List.append_eq_append_iff.mp hsplit with ⟨front, hnewer, hsaid⟩ | ⟨back, hmore, holder⟩
    · -- The wish has been uttered before the middle, so nothing has been offered after it.
      have hmiddle : middle.inbox.stopWanted = true := by
        rw [Inbox.stopWanted_of_wish h.wish, hsaid, Inbox.heard_append]
        refine Inbox.stopWanted_heard hwanted fun hmem => hstands (h.sends _ ?_)
        rw [hsaid]
        exact List.mem_append_left _ hmem
      rw [hnewer, batches_append, h'.idle hmiddle]
      exact h.once front older hsaid hwanted
    · refine h'.once newer back hmore ?_
      rw [holder, Inbox.heard_append] at hwanted
      rw [Inbox.stopWanted_of_wish (Inbox.wish_heard h.wish back)]
      exact hwanted

theorem refl (host : Host σ) (world : World σ) : Mindful host world [] world where
  course := rfl
  wish := rfl
  sends _ hsignal := by cases hsignal
  idle _ := rfl
  once newer older hsplit _ := by
    rw [(List.append_eq_nil_iff.mp hsplit.symm).1]
    exact List.nodup_nil

theorem record (h : Mindful host start said after) {entry : Entry} (htrack : entry.track? = none)
    (hsignal : entry.isSignal = false) :
    Mindful host start (entry :: said) (after.record entry) where
  course := congrArg (entry :: ·) h.course
  wish := by
    show after.inbox.wish = ((start.inbox.heard said).hear entry).wish
    rw [Inbox.hear_of_isSignal hsignal, h.wish]
  sends signal hmem := by
    rcases List.mem_cons.mp hmem with rfl | hmem
    · cases hsignal
    · exact h.sends signal hmem
  idle hwanted := (List.filterMap_cons_none htrack).trans (h.idle hwanted)
  once newer older hsplit hwanted := by
    cases newer with
    | nil => exact List.nodup_nil
    | cons first rest =>
        cases hsplit
        rw [batches, List.filterMap_cons_none htrack]
        exact h.once rest older rfl hwanted

theorem of_stretch {most : List Mark} (h : Stretch host most start said after)
    (hmost : (most.filterMap Mark.track?).Nodup)
    (hidle : start.inbox.stopWanted = true → batches said = []) :
    Mindful host start said after where
  course := h.course
  wish := congrArg Inbox.wish h.inbox
  sends := h.sends
  idle := hidle
  once newer older hsplit _ := by
    have hbatches := batches_sublist h.marks
    rw [hsplit, batches_append] at hbatches
    exact ((List.sublist_append_left _ _).trans hbatches).nodup hmost

end Mindful

def Minds (host : Host σ) (start world : World σ) : Prop :=
  ∃ said, Mindful host start said world

namespace Minds

variable {host : Host σ} {start world after : World σ} {most : List Mark}

theorem next (hstands : ¬ host.Sends (.stop false)) (h : Minds host start world)
    (h' : Minds host world after) : Minds host start after := by
  rcases h with ⟨said, hsaid⟩
  rcases h' with ⟨more, hmore⟩
  exact ⟨more ++ said, hsaid.trans hstands hmore⟩

theorem of_going {said : List Entry} (h : Stretch host most world said after)
    (hmost : (most.filterMap Mark.track?).Nodup) (hgoing : world.inbox.stopWanted = false) :
    Minds host world after := by
  refine ⟨said, .of_stretch h hmost fun hwanted => ?_⟩
  cases hgoing.symm.trans hwanted

theorem asks {asked : List Entry} (hquestions : ∀ entry ∈ asked, entry.isQuestion = true)
    (h : Asks host asked world after) : Minds host world after := by
  have hnone : (marks asked).filterMap Mark.track? = [] := by
    rw [marks, List.filterMap_filterMap, List.filterMap_eq_nil_iff]
    intro entry hentry
    have hquestion := hquestions entry hentry
    cases entry <;> first | rfl | cases hquestion
  rcases h.logs hquestions with ⟨said, hsaid, _⟩
  refine ⟨said, .of_stretch hsaid (by rw [hnone]; exact List.nodup_nil) fun _ => ?_⟩
  have hbatches := batches_sublist hsaid.marks
  rwa [hnone, List.sublist_nil] at hbatches

end Minds

/-!
# A whole sync
-/

section

variable {host : Host σ} (hstands : ¬ host.Sends (.stop false)) {start : World σ}
include hstands

theorem Switching.keeps_minds :
    Switching.Keeps host (Minds host start) fun _ => Minds host start where
  halts h := h
  asks hquestions hasks h := h.next hstands (.asks hquestions hasks)
  step := by
    intro track _ _ _ _ _ hgoing _ _ hstepped h
    rcases hstepped.logs (.questions (List.forall_mem_singleton.mpr rfl)) with ⟨said, hsaid, _⟩
    exact h.next hstands (.of_going hsaid (List.pairwise_singleton _ track) hgoing)
  hinder := by
    intro track _ _ _ _ _ _ _ hgoing hasks hhinders h
    rcases hhinders.breaks hasks (.questions (List.forall_mem_singleton.mpr rfl)) with
      ⟨said, hsaid, _⟩
    exact h.next hstands (.of_going hsaid (List.pairwise_singleton _ track) hgoing)
  switched h := by
    rcases h with ⟨said, hsaid⟩
    exact ⟨_, hsaid.record rfl rfl⟩

theorem Forward.run_minds {world : World σ} (h : Minds host start world) :
    (Forward.run host).Yields world (fun _ => Minds host start) fun _ => Minds host start := by
  refine run_of_turn (fun _ _ h => h) ?_ ?_ h
  · intro world low next h
    rcases h with ⟨said, hsaid⟩
    exact ⟨said, { hsaid with }⟩
  · intro world h
    refine (turn_logs host world).mono ?_ ?_
    · intro _ after hended
      rcases hended with ⟨⟨said, hsaid, _⟩, hstill⟩
      refine h.next hstands ⟨said, .of_stretch hsaid (by decide) fun hwanted => ?_⟩
      have hcourse := hsaid.course
      rw [hstill hwanted] at hcourse
      rw [List.self_eq_append_left.mp hcourse]
      rfl
    · intro cause after hhalted
      rcases hhalted with ⟨⟨said, hsaid, _⟩, hgoing⟩
      exact h.next hstands (.of_going hsaid (by decide) hgoing)

theorem Following.keeps_minds :
    SyncKeeps host (Minds host start) fun _ => Minds host start where
  toKeeps := Switching.keeps_minds hstands
  entered := by
    intro phase world h
    rcases h with ⟨said, hsaid⟩
    have hentered : Mindful host start (.entered phase :: said) (world.record (.entered phase)) :=
      hsaid.record rfl rfl
    exact ⟨_, { hentered with }⟩
  drained h := by
    rcases h with ⟨said, hsaid⟩
    exact ⟨said, { hsaid with }⟩
  forward h := Forward.run_minds hstands h
  stopped _ h := h

end

end ChainIndex
