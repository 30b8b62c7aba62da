import ChainIndex.World.Act

/-!
# What an act yields

An act started in a given world either ends with a value or halts, and leaves a
world behind in both cases.  This module states facts about both outcomes at
once: one condition for the value and the world it is left with, and one for the
cause and the world of a halt.

Such a fact is found by following the act.  There is one lemma for each way in
which acts are put together, and one for loops, which counts the turns that are
still allowed.  Where the same holds before an act and after it, however the act
comes out, the act preserves it, and so does every act that is made of such acts.
-/

namespace ChainIndex

def Turn.Is (again : β → Prop) (done : α → Prop) : Turn β α → Prop
  | .again state => again state
  | .done result => done result

namespace Act

/-- In this world the act ends as in `ended`, or halts as in `halted`. -/
def Yields (act : Act σ α) (world : World σ) (ended : α → World σ → Prop)
    (halted : Halt → World σ → Prop) : Prop :=
  match act.perform world with
  | (.ok a, after) => ended a after
  | (.error cause, after) => halted cause after

section

variable {world : World σ} {halted : Halt → World σ → Prop}

theorem Yields.mono {act : Act σ α} {ended ended' : α → World σ → Prop}
    {halted' : Halt → World σ → Prop} (h : act.Yields world ended halted)
    (hended : ∀ a after, ended a after → ended' a after)
    (hhalted : ∀ cause after, halted cause after → halted' cause after) :
    act.Yields world ended' halted' := by
  unfold Yields at h ⊢
  generalize act.perform world = outcome at h ⊢
  rcases outcome with ⟨result, after⟩
  cases result with
  | ok a => exact hended a after h
  | error cause => exact hhalted cause after h

theorem Yields.imp {act : Act σ α} {ended ended' : α → World σ → Prop}
    (h : act.Yields world ended halted)
    (hended : ∀ a after, ended a after → ended' a after) :
    act.Yields world ended' halted :=
  h.mono hended fun _ _ hcause => hcause

theorem Yields.and {act : Act σ α} {ended ended' : α → World σ → Prop}
    {halted' : Halt → World σ → Prop} (h : act.Yields world ended halted)
    (h' : act.Yields world ended' halted') :
    act.Yields world (fun a after => ended a after ∧ ended' a after)
      fun cause after => halted cause after ∧ halted' cause after := by
  unfold Yields at h h' ⊢
  generalize act.perform world = outcome at h h' ⊢
  rcases outcome with ⟨result, after⟩
  cases result <;> exact ⟨h, h'⟩

theorem Yields.exists_ok {act : Act σ α} {ended : α → World σ → Prop}
    (h : act.Yields world ended fun _ _ => False) :
    ∃ a after, act.perform world = (.ok a, after) ∧ ended a after := by
  unfold Yields at h
  cases hrun : act.perform world with
  | mk result after =>
      rw [hrun] at h
      cases result with
      | ok a => exact ⟨a, after, rfl, h⟩
      | error cause => exact h.elim

theorem Yields.exists_error {act : Act σ α} (h : act.Yields world (fun _ _ => False) halted) :
    ∃ cause after, act.perform world = (.error cause, after) ∧ halted cause after := by
  unfold Yields at h
  cases hrun : act.perform world with
  | mk result after =>
      rw [hrun] at h
      cases result with
      | ok a => exact h.elim
      | error cause => exact ⟨cause, after, rfl, h⟩

theorem Yields.left {act : Act σ α} {kept : World σ → Prop}
    (h : act.Yields world (fun _ after => kept after) fun _ after => kept after) :
    kept (act.perform world).2 := by
  unfold Yields at h
  generalize act.perform world = outcome at h ⊢
  rcases outcome with ⟨result, after⟩
  cases result with
  | ok a => exact h
  | error cause => exact h

/-!
# Following an act
-/

theorem yields_bind (act : Act σ α) (next : α → Act σ β) (ended : β → World σ → Prop) :
    (act >>= next).Yields world ended halted ↔
      act.Yields world (fun a after => (next a).Yields after ended halted) halted := by
  unfold Yields
  rw [perform_bind]
  rcases act.perform world with ⟨result, after⟩
  cases result <;> exact Iff.rfl

theorem Yields.bind_halted {act : Act σ α} (h : act.Yields world (fun _ _ => False) halted)
    {next : α → Act σ β} {ended : β → World σ → Prop} :
    (act >>= next).Yields world ended halted := by
  rw [yields_bind]
  exact h.imp fun _ _ hnever => hnever.elim

theorem yields_see (f : World σ → α) (ended : α → World σ → Prop) :
    (see f).Yields world ended halted ↔ ended (f world) world :=
  Iff.rfl

theorem yields_change (f : World σ → World σ) (ended : Unit → World σ → Prop) :
    (change f).Yields world ended halted ↔ ended () (f world) :=
  Iff.rfl

theorem yields_fail (cause : Fault) (ended : α → World σ → Prop) :
    (fail cause : Act σ α).Yields world ended halted ↔ halted (.fault cause) world :=
  Iff.rfl

theorem yields_ofExcept (result : Except Halt α) (ended : α → World σ → Prop) :
    (ofExcept result).Yields world ended halted ↔
      match result with
      | .ok a => ended a world
      | .error cause => halted cause world := by
  cases result <;> exact Iff.rfl

theorem yields_attempt (act : Act σ α) (ended : Except Fault α → World σ → Prop) :
    (attempt act).Yields world ended halted ↔
      act.Yields world (fun a after => ended (.ok a) after) fun cause after =>
        match cause with
        | .fault fault => ended (.error fault) after
        | other => halted other after := by
  unfold Yields
  rw [perform_attempt]
  rcases act.perform world with ⟨result, after⟩
  cases result with
  | ok a => exact Iff.rfl
  | error cause => cases cause <;> exact Iff.rfl

/-!
# Loops

The invariant of a loop may speak of how many turns are still allowed.  It has to
make up for the turns running out.
-/

theorem yields_turns {turn : β → Act σ (Turn β α)} (kept : Nat → β → World σ → Prop)
    {ended : α → World σ → Prop}
    (hturn : ∀ left state world, kept (left + 1) state world →
      (turn state).Yields world
        (fun result after => result.Is (kept left · after) (ended · after)) halted)
    (hout : ∀ state world, kept 0 state world → halted .abandoned world)
    {allowed : Nat} {state : β} {world : World σ} (h : kept allowed state world) :
    (turns turn allowed state).Yields world ended halted := by
  induction allowed generalizing state world with
  | zero => exact hout state world h
  | succ left ih =>
      rw [turns, yields_bind]
      refine (hturn left state world h).imp ?_
      intro result after hresult
      cases result with
      | again next => exact ih hresult
      | done a => exact hresult

end

/-!
# What acts preserve
-/

def Preserves (act : Act σ α) (kept : World σ → Prop) : Prop :=
  ∀ world, kept world → act.Yields world (fun _ => kept) fun _ => kept

variable {kept : World σ → Prop}

theorem preserves_pure (a : α) : (pure a : Act σ α).Preserves kept :=
  fun _ h => h

theorem preserves_change {f : World σ → World σ} (h : ∀ world, kept world → kept (f world)) :
    (change f).Preserves kept :=
  h

theorem Preserves.bind {act : Act σ α} {next : α → Act σ β} (h : act.Preserves kept)
    (hnext : ∀ a, (next a).Preserves kept) : (act >>= next).Preserves kept := by
  intro world hworld
  rw [yields_bind]
  exact (h world hworld).imp fun a after hafter => hnext a after hafter

/-!
# The table

What the acts on the table perform, in terms of the host's reply.
-/

theorem perform_view (host : Host σ) (world : World σ) :
    (view host).perform world =
      match (host.outages world.outside).answer with
      | .ok outages => (.ok ⟨world.table, outages⟩,
          world.take (host.outages world.outside) .viewed)
      | .error cause => (.error cause, world.take (host.outages world.outside) .viewed) :=
  rfl

theorem perform_write (host : Host σ) (edits : List Edit) (world : World σ) :
    (write host edits).perform world =
      match (host.accept edits world.outside).answer with
      | .ok () => (.ok (),
          { world.take (host.accept edits world.outside) (.batch edits) with
            table := world.table.commit edits })
      | .error cause => (.error cause,
          world.take (host.accept edits world.outside) (.batch edits)) :=
  rfl

theorem perform_turns_of_le {turn : β → Act σ (Turn β α)} {allowed more : Nat} {state : β}
    {world after : World σ} {result : α} (hle : allowed ≤ more)
    (h : (turns turn allowed state).perform world = (.ok result, after)) :
    (turns turn more state).perform world = (.ok result, after) := by
  induction allowed generalizing more state world with
  | zero => cases h
  | succ allowed ih =>
      cases more with
      | zero => exact absurd hle (Nat.not_succ_le_zero allowed)
      | succ more =>
          rw [perform_turns_succ] at h ⊢
          rcases hturn : (turn state).perform world with ⟨outcome, next⟩
          rw [hturn] at h
          cases outcome with
          | error cause => exact h
          | ok taken =>
              cases taken with
              | again later => exact ih (Nat.le_of_succ_le_succ hle) h
              | done last => exact h

end Act

end ChainIndex
