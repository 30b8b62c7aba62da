import ChainIndex.Forward
import ChainIndex.Proofs.Lulls

/-!
# The stages of forward sync

What a stage of forward sync asks, and what it does to the intake and to the tracks, whoever
the host is.  Each stage takes one of a few forms, or is cut short for one of a few reasons;
nothing else is said here of what the host answers.

A turn is a matter of its stages, and a run is a matter of its turns.
-/

namespace ChainIndex

inductive Linked : BlockHash → List Block → BlockHash → Prop where
  | stay (low : BlockHash) : Linked low [] low
  | up {low high : BlockHash} {block : Block} {rest : List Block} :
      block.parent = some low → Linked block.hash rest high → Linked low (block :: rest) high

theorem Linked.snoc {low high : BlockHash} {blocks : List Block} {block : Block}
    (h : Linked low blocks high) (hparent : block.parent = some high) :
    Linked low (blocks ++ [block]) block.hash := by
  induction h with
  | stay _ => exact .up hparent (.stay _)
  | up hfirst _ ih => exact .up hfirst (ih hparent)

theorem Linked.eq_of_nil {low high : BlockHash} (h : Linked low [] high) : low = high := by
  cases h
  rfl

namespace Forward

/-!
# Fetching
-/

/-- The best hash that is known, and what was asked for it. -/
inductive Knows (host : Host σ) (intake : Intake) : BlockHash → List Entry → Prop where
  | named {best : BlockHash} : host.Names (.ok best) →
      Knows host intake best [.askedBest (.ok best)]
  | kept : intake.bestHash ≠ "" → Knows host intake intake.bestHash []

/-- What has been announced and does not come next is kept for later or given up. -/
inductive Spares (intake : Intake) : Option Block → Prop where
  | later : (∀ hint ∈ intake.announced, intake.nextHeight < hint.height) →
      Spares intake intake.announced
  | past : (∀ hint ∈ intake.announced, hint.height < intake.nextHeight) → Spares intake none

/-- The block comes next: it has been announced, or it is what the host has at that height. -/
inductive Offers (host : Host σ) (intake : Intake) (block : Block) :
    Option Block → List Entry → Prop where
  | announced : intake.announced = some block → block.height = intake.nextHeight →
      Offers host intake block none []
  | found {left : Option Block} : host.Finds (.byHeight intake.nextHeight) (.ok block) →
      Spares intake left →
      Offers host intake block left [.askedBlock (.byHeight intake.nextHeight) (.ok block)]

/-- What the fetching stage makes of the intake, and what it asks. -/
inductive FetchStep (host : Host σ) (intake : Intake) : List Entry → Intake → Prop where
  | stalled : isStalled intake = true → FetchStep host intake [] intake
  | taken {block : Block} {best : BlockHash} {left : Option Block} {next : UInt64}
      {asked more : List Entry} :
      isStalled intake = false → Knows host intake best asked → intake.lastHash ≠ best →
      Offers host intake block left more → block.parent = some intake.lastHash →
      heightAbove? intake.nextHeight = some next →
      FetchStep host intake (more ++ asked)
        { intake with
          announced := left
          inFlight := intake.inFlight ++ [block]
          nextHeight := next
          lastHash := block.hash
          bestHash := best }
  | caughtUp : isStalled intake = false → host.Names (.ok intake.lastHash) →
      FetchStep host intake [.askedBest (.ok intake.lastHash)]
        { intake with bestHash := intake.lastHash, exhausted := true }
  | missing {best : BlockHash} {left : Option Block} {what : String} {asked : List Entry} :
      isStalled intake = false → Knows host intake best asked → intake.lastHash ≠ best →
      Spares intake left →
      host.Finds (.byHeight intake.nextHeight) (.error (.fault (.notFound what))) →
      FetchStep host intake
        (.askedBlock (.byHeight intake.nextHeight) (.error (.fault (.notFound what))) :: asked)
        { intake with
          announced := left
          bestHash := best
          exhausted := true
          forkAt := some intake.nextHeight }
  | apart {block : Block} {best : BlockHash} {left : Option Block} {asked more : List Entry} :
      isStalled intake = false → Knows host intake best asked → intake.lastHash ≠ best →
      Offers host intake block left more → block.parent ≠ some intake.lastHash →
      FetchStep host intake (more ++ asked)
        { intake with
          announced := left
          bestHash := best
          exhausted := true
          forkAt := some block.height }

inductive FetchHalt (host : Host σ) (intake : Intake) : Halt → List Entry → Intake → Prop where
  | unnamed {cause : Halt} : host.Names (.error cause) →
      FetchHalt host intake cause [.askedBest (.error cause)] intake
  | lost {cause : Halt} {best : BlockHash} {left : Option Block} {asked : List Entry} :
      Knows host intake best asked → intake.lastHash ≠ best → Spares intake left →
      host.Finds (.byHeight intake.nextHeight) (.error cause) → ¬ cause.IsMissing →
      FetchHalt host intake cause
        (.askedBlock (.byHeight intake.nextHeight) (.error cause) :: asked)
        { intake with announced := left, bestHash := best }
  | overflow {block : Block} {best : BlockHash} {left : Option Block} {asked more : List Entry} :
      Knows host intake best asked → intake.lastHash ≠ best → Offers host intake block left more →
      block.parent = some intake.lastHash → heightAbove? intake.nextHeight = none →
      FetchHalt host intake .overflow (more ++ asked)
        { intake with announced := left, bestHash := best }

section

variable {host : Host σ} {intake kept : Intake} {asked : List Entry} {block : Block}
variable {left : Option Block} {cause : Halt}

theorem exhausted_of_not_stalled (h : isStalled intake = false) : intake.exhausted = false :=
  (Bool.or_eq_false_iff.mp h).1

theorem Spares.eq (h : Spares intake left) : left = none ∨ left = intake.announced := by
  cases h with
  | later _ => exact Or.inr rfl
  | past _ => exact Or.inl rfl

theorem Offers.left_eq (h : Offers host intake block left asked) :
    left = none ∨ left = intake.announced := by
  cases h with
  | announced _ _ => exact Or.inl rfl
  | found _ hspares => exact hspares.eq

theorem Spares.forgetBest {best : BlockHash} (h : Spares { intake with bestHash := best } left) :
    Spares intake left := by
  cases h with
  | later hlater => exact .later hlater
  | past hpast => exact .past hpast

theorem Offers.forgetBest {best : BlockHash}
    (h : Offers host { intake with bestHash := best } block left asked) :
    Offers host intake block left asked := by
  cases h with
  | announced hhint hheight => exact .announced hhint hheight
  | found hfinds hspares => exact .found hfinds hspares.forgetBest

theorem Knows.questions {best : BlockHash} (h : Knows host intake best asked) :
    ∀ entry ∈ asked, entry.isQuestion = true := by
  cases h with
  | named _ => exact List.forall_mem_singleton.mpr rfl
  | kept _ => exact List.forall_mem_nil _

theorem Offers.questions (h : Offers host intake block left asked) :
    ∀ entry ∈ asked, entry.isQuestion = true := by
  cases h with
  | announced _ _ => exact List.forall_mem_nil _
  | found _ _ => exact List.forall_mem_singleton.mpr rfl

theorem FetchStep.questions (h : FetchStep host intake asked kept) :
    ∀ entry ∈ asked, entry.isQuestion = true := by
  cases h with
  | stalled _ => exact List.forall_mem_nil _
  | taken _ hknows _ hoffers _ _ =>
      exact List.forall_mem_append.mpr ⟨hoffers.questions, hknows.questions⟩
  | caughtUp _ _ => exact List.forall_mem_singleton.mpr rfl
  | missing _ hknows _ _ _ => exact List.forall_mem_cons.mpr ⟨rfl, hknows.questions⟩
  | apart _ hknows _ hoffers _ =>
      exact List.forall_mem_append.mpr ⟨hoffers.questions, hknows.questions⟩

theorem FetchHalt.questions (h : FetchHalt host intake cause asked kept) :
    ∀ entry ∈ asked, entry.isQuestion = true := by
  cases h with
  | unnamed _ => exact List.forall_mem_singleton.mpr rfl
  | lost hknows _ _ _ _ => exact List.forall_mem_cons.mpr ⟨rfl, hknows.questions⟩
  | overflow hknows _ hoffers _ _ =>
      exact List.forall_mem_append.mpr ⟨hoffers.questions, hknows.questions⟩

theorem FetchStep.sizes (h : FetchStep host intake asked kept) :
    kept.groupSize = intake.groupSize ∧ kept.highWater = intake.highWater := by
  cases h <;> exact ⟨rfl, rfl⟩

theorem FetchStep.inFlight (h : FetchStep host intake asked kept)
    (hopen : isStalled intake = false) :
    (kept.exhausted = true ∧ kept.inFlight = intake.inFlight) ∨
      ∃ block, kept.inFlight = intake.inFlight ++ [block] := by
  cases h with
  | stalled hstalled => cases hopen.symm.trans hstalled
  | taken _ _ _ _ _ _ => exact Or.inr ⟨_, rfl⟩
  | _ => exact Or.inl ⟨rfl, rfl⟩

theorem FetchStep.announced (h : FetchStep host intake asked kept) :
    kept.announced = none ∨ kept.announced = intake.announced := by
  cases h with
  | stalled _ => exact Or.inr rfl
  | taken _ _ _ hoffers _ _ => exact hoffers.left_eq
  | caughtUp _ _ => exact Or.inr rfl
  | missing _ _ _ hspares _ => exact hspares.eq
  | apart _ _ _ hoffers _ => exact hoffers.left_eq

theorem FetchHalt.announced (h : FetchHalt host intake cause asked kept) :
    kept.announced = none ∨ kept.announced = intake.announced := by
  cases h with
  | unnamed _ => exact Or.inr rfl
  | lost _ _ hspares _ _ => exact hspares.eq
  | overflow _ _ hoffers _ _ => exact hoffers.left_eq

theorem FetchHalt.sizes (h : FetchHalt host intake cause asked kept) :
    kept.groupSize = intake.groupSize ∧ kept.highWater = intake.highWater := by
  cases h <;> exact ⟨rfl, rfl⟩

end

theorem takeAnnounced_cases (intake : Intake) :
    (∃ hint, intake.announced = some hint ∧ hint.height = intake.nextHeight ∧
      takeAnnounced intake = (some hint, { intake with announced := none })) ∨
    ∃ left, Spares intake left ∧
      takeAnnounced intake = (none, { intake with announced := left }) := by
  unfold takeAnnounced
  cases hannounced : intake.announced with
  | none =>
      refine Or.inr ⟨intake.announced, .later (by simp [hannounced]), rfl⟩
  | some hint =>
      dsimp only
      by_cases hsame : hint.height = intake.nextHeight
      · rw [if_pos hsame]
        exact Or.inl ⟨hint, rfl, hsame, rfl⟩
      · rw [if_neg hsame]
        by_cases hpast : hint.height < intake.nextHeight
        · rw [if_pos hpast]
          refine Or.inr ⟨none, .past ?_, rfl⟩
          intro other hother
          rw [hannounced] at hother
          cases hother
          exact hpast
        · rw [if_neg hpast]
          refine Or.inr ⟨intake.announced, .later ?_, rfl⟩
          intro other hother
          rw [hannounced] at hother
          cases hother
          exact UInt64.lt_of_le_of_ne (UInt64.not_lt.mp hpast) (Ne.symm hsame)

def lookUp (host : Host σ) (height : UInt64) : Act σ (Option Block) := do
  match ← Act.attempt (Act.blockAt host (.byHeight height)) with
  | .ok block => pure (some block)
  | .error (.notFound _) => do
      noteFork height
      pure none
  | .error cause => Act.fail cause

section

variable {host : Host σ} {start world : World σ} {asked : List Entry}

theorem moreToFetch_yields (h : Asks host asked start world) :
    (moreToFetch host).Yields world
      (fun more after => ∃ best said, Knows host start.intake best said ∧
        Asks host (said ++ asked) { start with intake := { start.intake with bestHash := best } }
          after ∧
        (more = false → said = [.askedBest (.ok best)] ∧ host.Names (.ok best)) ∧
        (more = true ↔ start.intake.lastHash ≠ best))
      (fun cause after => Asks host (.askedBest (.error cause) :: asked) start after ∧
        host.Names (.error cause)) := by
  rw [moreToFetch, Act.yields_bind, Act.intake, Act.yields_see, h.intake]
  by_cases hask : (start.intake.lastHash = start.intake.bestHash ||
      start.intake.bestHash = "") = true
  · rw [if_pos hask, Act.yields_bind]
    refine h.bestHash.imp ?_
    intro best asked hended
    rcases hended with ⟨hasked, hnames⟩
    rw [Act.yields_bind]
    refine (hasked.changeIntake _).imp ?_
    intro _ after hafter
    exact ⟨best, _, .named hnames, hafter, fun _ => ⟨rfl, hnames⟩, decide_eq_true_iff⟩
  · rw [if_neg hask]
    simp only [Bool.or_eq_true, decide_eq_true_eq, not_or] at hask
    refine ⟨start.intake.bestHash, [], .kept hask.2, h, ?_, fun _ => hask.1, fun _ => rfl⟩
    intro hmore
    cases hmore

theorem lookUp_yields (h : Asks host asked start world) (height : UInt64) :
    (lookUp host height).Yields world
      (fun found after =>
        match found with
        | some block => Asks host (.askedBlock (.byHeight height) (.ok block) :: asked) start
              after ∧ host.Finds (.byHeight height) (.ok block)
        | none => ∃ what,
            Asks host
              (.askedBlock (.byHeight height) (.error (.fault (.notFound what))) :: asked)
              { start with intake := { start.intake with forkAt := some height } } after ∧
            host.Finds (.byHeight height) (.error (.fault (.notFound what))))
      (fun cause after => ¬ cause.IsMissing ∧
        Asks host (.askedBlock (.byHeight height) (.error cause) :: asked) start after ∧
        host.Finds (.byHeight height) (.error cause)) := by
  rw [lookUp, Act.yields_bind, Act.yields_attempt]
  refine (h.blockAt (.byHeight height)).mono ?_ ?_
  · intro block after hended
    exact hended
  · intro cause after hhalted
    cases cause with
    | fault fault =>
        cases fault with
        | notFound what =>
            show (noteFork height >>= fun _ => pure none : Act σ (Option Block)).Yields after _ _
            rw [Act.yields_bind, noteFork]
            refine (hhalted.1.changeIntake _).imp ?_
            intro _ noted hnoted
            exact ⟨what, hnoted, hhalted.2⟩
        | _ => exact ⟨by simp [Halt.IsMissing], hhalted⟩
    | _ => exact ⟨by simp [Halt.IsMissing], hhalted⟩

def Candidate (host : Host σ) (asked : List Entry) (start : World σ) (found : Option Block)
    (after : World σ) : Prop :=
  match found with
  | some block => ∃ left said, Offers host start.intake block left said ∧
      Asks host (said ++ asked) { start with intake := { start.intake with announced := left } }
        after
  | none => ∃ left what, Spares start.intake left ∧
      Asks host
        (.askedBlock (.byHeight start.intake.nextHeight) (.error (.fault (.notFound what))) ::
          asked)
        { start with
          intake := { start.intake with
            announced := left
            forkAt := some start.intake.nextHeight } } after ∧
      host.Finds (.byHeight start.intake.nextHeight) (.error (.fault (.notFound what)))

theorem candidate_yields (h : Asks host asked start world) :
    (candidate host).Yields world (Candidate host asked start)
      (fun cause after => ∃ left, Spares start.intake left ∧ ¬ cause.IsMissing ∧
        Asks host (.askedBlock (.byHeight start.intake.nextHeight) (.error cause) :: asked)
          { start with intake := { start.intake with announced := left } } after ∧
        host.Finds (.byHeight start.intake.nextHeight) (.error cause)) := by
  rw [candidate, Act.yields_bind, Act.intake, Act.yields_see, h.intake]
  rcases takeAnnounced_cases start.intake with
    ⟨hint, hhint, hheight, htake⟩ | ⟨left, hspares, htake⟩
  · rw [htake, Act.yields_bind]
    refine (h.changeIntake fun _ => { start.intake with announced := none }).imp ?_
    intro _ after hafter
    exact ⟨none, [], .announced hhint hheight, hafter⟩
  · -- Nothing that was announced comes next, so the host is asked.
    rw [htake, Act.yields_bind]
    refine (h.changeIntake fun _ => { start.intake with announced := left }).imp ?_
    intro _ kept hkept
    show (lookUp host start.intake.nextHeight).Yields kept _ _
    refine (lookUp_yields hkept start.intake.nextHeight).mono ?_ ?_
    · intro found after hended
      cases found with
      | some block => exact ⟨left, _, .found hended.2 hspares, hended.1⟩
      | none =>
          rcases hended with ⟨what, hafter, hfinds⟩
          exact ⟨left, what, hspares, hafter, hfinds⟩
    · intro cause after hhalted
      exact ⟨left, hspares, hhalted⟩

inductive Fetched (host : Host σ) (intake : Intake) :
    Option Block → List Entry → Intake → Prop where
  | block {block : Block} {best : BlockHash} {left : Option Block} {asked more : List Entry} :
      Knows host intake best asked → intake.lastHash ≠ best → Offers host intake block left more →
      block.parent = some intake.lastHash →
      Fetched host intake (some block) (more ++ asked)
        { intake with announced := left, bestHash := best }
  | caughtUp : host.Names (.ok intake.lastHash) →
      Fetched host intake none [.askedBest (.ok intake.lastHash)]
        { intake with bestHash := intake.lastHash }
  | missing {best : BlockHash} {left : Option Block} {what : String} {asked : List Entry} :
      Knows host intake best asked → intake.lastHash ≠ best → Spares intake left →
      host.Finds (.byHeight intake.nextHeight) (.error (.fault (.notFound what))) →
      Fetched host intake none
        (.askedBlock (.byHeight intake.nextHeight) (.error (.fault (.notFound what))) :: asked)
        { intake with announced := left, bestHash := best, forkAt := some intake.nextHeight }
  | apart {block : Block} {best : BlockHash} {left : Option Block} {asked more : List Entry} :
      Knows host intake best asked → intake.lastHash ≠ best → Offers host intake block left more →
      block.parent ≠ some intake.lastHash →
      Fetched host intake none (more ++ asked)
        { intake with announced := left, bestHash := best, forkAt := some block.height }

theorem fetch_yields (h : Asks host [] start world) :
    (fetch host).Yields world
      (fun found after => ∃ asked kept, Fetched host start.intake found asked kept ∧
        Asks host asked { start with intake := kept } after)
      (fun cause after => ∃ asked kept, FetchHalt host start.intake cause asked kept ∧
        Asks host asked { start with intake := kept } after) := by
  rw [fetch, Act.yields_bind]
  refine (moreToFetch_yields h).mono ?_ ?_
  · intro more knowing hended
    rcases hended with ⟨best, asked, hknows, hknowing, hnames, hmore⟩
    rw [List.append_nil] at hknowing
    cases more with
    | false =>
        have hbest : best = start.intake.lastHash := by
          by_cases heq : start.intake.lastHash = best
          · exact heq.symm
          · cases hmore.mpr heq
        rcases hnames rfl with ⟨rfl, hnamed⟩
        subst hbest
        exact ⟨_, _, .caughtUp hnamed, hknowing⟩
    | true =>
        have hne := hmore.mp rfl
        rw [if_pos rfl, Act.yields_bind]
        refine (candidate_yields hknowing).mono ?_ ?_
        · intro found offered hfound
          cases found with
          | none =>
              rcases hfound with ⟨left, what, hspares, hoffered, hfinds⟩
              exact ⟨_, _, .missing hknows hne hspares.forgetBest hfinds, hoffered⟩
          | some block =>
              rcases hfound with ⟨left, more, hoffers, hoffered⟩
              dsimp only
              rw [Act.yields_bind, Act.intake, Act.yields_see, hoffered.intake]
              by_cases hparent : block.parent = some start.intake.lastHash
              · rw [if_pos hparent]
                exact ⟨_, _, .block hknows hne hoffers.forgetBest hparent, hoffered⟩
              · rw [if_neg hparent, Act.yields_bind, noteFork]
                refine (hoffered.changeIntake _).imp ?_
                intro _ noted hnoted
                exact ⟨_, _, .apart hknows hne hoffers.forgetBest hparent, hnoted⟩
        · intro cause after hhalted
          rcases hhalted with ⟨left, hspares, hother, hafter, hfinds⟩
          exact ⟨_, _, .lost hknows hne hspares.forgetBest hfinds hother, hafter⟩
  · intro cause after hhalted
    exact ⟨_, _, .unnamed hhalted.2, hhalted.1⟩

theorem fetchStage_yields (host : Host σ) (world : World σ) :
    (fetchStage host).Yields world
      (fun _ after => ∃ asked kept, FetchStep host world.intake asked kept ∧
        Asks host asked { world with intake := kept } after)
      (fun cause after => isStalled world.intake = false ∧
        ∃ asked kept, FetchHalt host world.intake cause asked kept ∧
          Asks host asked { world with intake := kept } after) := by
  have hstart := Asks.refl host world
  rw [fetchStage, Act.yields_bind, Act.intake, Act.yields_see]
  cases hstalled : isStalled world.intake with
  | true =>
      rw [if_pos (show (world.intake.exhausted || isFull world.intake) = true from hstalled)]
      exact ⟨_, _, .stalled hstalled, hstart⟩
  | false =>
      rw [show (world.intake.exhausted || isFull world.intake) = false from hstalled,
        if_neg Bool.false_ne_true, Act.yields_bind]
      refine (fetch_yields hstart).mono ?_ fun _ _ hhalted => ⟨rfl, hhalted⟩
      intro found fetched hended
      rcases hended with ⟨asked, kept, hfetched, hasks⟩
      cases hfetched with
      | @block block best left _ _ hknows hne hoffers hparent =>
          show (takeIn block).Yields fetched _ _
          rw [takeIn, Act.yields_bind, Act.intake, Act.yields_see, hasks.intake, Act.yields_bind,
            Act.yields_ofExcept]
          cases hnext : heightAbove? world.intake.nextHeight with
          | none => exact ⟨rfl, _, _, .overflow hknows hne hoffers hparent hnext, hasks⟩
          | some next =>
              refine (hasks.changeIntake _).imp ?_
              intro _ after hafter
              exact ⟨_, _, .taken hstalled hknows hne hoffers hparent hnext, hafter⟩
      | caughtUp hnames =>
          refine (hasks.changeIntake _).imp ?_
          intro _ after hafter
          exact ⟨_, _, .caughtUp hstalled hnames, hafter⟩
      | missing hknows hne hspares hfinds =>
          refine (hasks.changeIntake _).imp ?_
          intro _ after hafter
          exact ⟨_, _, .missing hstalled hknows hne hspares hfinds, hafter⟩
      | apart hknows hne hoffers hparent =>
          refine (hasks.changeIntake _).imp ?_
          intro _ after hafter
          exact ⟨_, _, .apart hstalled hknows hne hoffers hparent, hafter⟩

end

/-!
# Committing
-/

/-- The indexes of a track have edits for the blocks, all under the same table. -/
inductive Gathers (host : Host σ) (table : Table) (track : Track) :
    List Block → List Edit → Prop where
  | none : Gathers host table track [] []
  | more {block : Block} {rest : List Block} {outages : Outages} {own edits : List Edit} :
      host.Reads (.ok outages) →
      host.catalogue.edits track block .apply ⟨table, outages⟩ = .ok own →
      Gathers host table track rest edits → Gathers host table track (block :: rest) (own ++ edits)

def IsLook (host : Host σ) (table : Table) (track : Track) (blocks : List Block) : Entry → Prop
  | .viewed _ => True
  | .consulted track' block direction view => track' = track ∧ block ∈ blocks ∧
      direction = .apply ∧ view.table = table ∧
      ∃ own, host.catalogue.edits track block .apply view = .ok own
  | _ => False

theorem isLook_consultation {host : Host σ} {table : Table} {track : Track} {block : Block}
    {outages : Outages} {own : List Edit} {blocks : List Block}
    (hown : host.catalogue.edits track block .apply ⟨table, outages⟩ = .ok own)
    (hblock : block ∈ blocks) :
    ∀ entry ∈ consultation track block .apply table outages,
      IsLook host table track blocks entry := by
  intro entry hentry
  rcases List.mem_cons.mp hentry with rfl | hentry
  · exact ⟨rfl, hblock, rfl, rfl, own, hown⟩
  · rw [List.mem_singleton.mp hentry]
    exact trivial

theorem IsLook.of_cons {host : Host σ} {table : Table} {track : Track} {block : Block}
    {rest : List Block} {entry : Entry} (h : IsLook host table track rest entry) :
    IsLook host table track (block :: rest) entry := by
  cases entry with
  | viewed _ => exact trivial
  | consulted track' other direction view =>
      exact ⟨h.1, List.mem_cons_of_mem _ h.2.1, h.2.2⟩
  | _ => exact h

theorem consultAll_yields {host : Host σ} {start world : World σ} {asked : List Entry}
    (h : Asks host asked start world) (track : Track) (blocks : List Block) :
    (consultAll host track blocks).Yields world
      (fun edits after => Gathers host start.table track blocks edits ∧ ∃ looked,
        (∀ entry ∈ looked, IsLook host start.table track blocks entry) ∧
        Asks host (looked ++ asked) start after)
      (fun cause after => ∃ block ∈ blocks, ∃ more looked,
        host.Declines track block .apply start cause more after ∧
        (∀ entry ∈ looked, IsLook host start.table track blocks entry) ∧
        Asks host (more ++ looked ++ asked) start after) := by
  induction blocks generalizing world asked with
  | nil => exact ⟨.none, [], by simp, h⟩
  | cons block rest ih =>
      rw [consultAll, Act.yields_bind]
      refine (h.consult track block .apply).mono ?_ ?_
      · intro own consulted hended
        rcases hended with ⟨outages, hconsulted, hreads, hown⟩
        have hlook := isLook_consultation hown (List.mem_cons_self (l := rest))
        have hlooks {looked : List Entry}
            (hlooked : ∀ entry ∈ looked, IsLook host start.table track rest entry) :
            ∀ entry ∈ looked ++ consultation track block .apply start.table outages,
              IsLook host start.table track (block :: rest) entry :=
          List.forall_mem_append.mpr ⟨fun entry hentry => (hlooked entry hentry).of_cons, hlook⟩
        rw [Act.yields_bind]
        refine (ih hconsulted).mono ?_ ?_
        · intro more after hended
          rcases hended with ⟨hgathers, looked, hlooked, hafter⟩
          rw [← List.append_assoc] at hafter
          exact ⟨.more hreads hown hgathers, _, hlooks hlooked, hafter⟩
        · intro cause after hhalted
          rcases hhalted with ⟨other, hother, more, looked, hdeclines, hlooked, hafter⟩
          refine ⟨other, List.mem_cons_of_mem _ hother, more, _, hdeclines, hlooks hlooked, ?_⟩
          simpa [List.append_assoc] using hafter
      · intro cause after hhalted
        rcases hhalted with ⟨more, hafter, hdeclines⟩
        exact ⟨block, List.mem_cons_self, more, [], hdeclines, by simp,
          by simpa using hafter⟩

inductive GroupStep (host : Host σ) (world : World σ) : World σ → Prop where
  | idle : groupReady world.intake = false ∨ nextGroup world.intake = [] →
      GroupStep host world world
  | grouped {last : Block} {edits : List Edit} {looked : List Entry} {heard : World σ} :
      groupReady world.intake = true → (nextGroup world.intake).getLast? = some last →
      Gathers host world.table .concurrent (nextGroup world.intake) edits →
      (∀ entry ∈ looked,
        IsLook host world.table .concurrent (nextGroup world.intake) entry) →
      Asks host looked world heard →
      GroupStep host world
        { heard.landed .concurrent edits last.pointer with
          intake := { world.intake with
            grouped := world.intake.grouped + (nextGroup world.intake).length } }

inductive GroupHalt (host : Host σ) (world : World σ) (cause : Halt) : World σ → Prop where
  | declined {block : Block} {looked more : List Entry} {after : World σ} :
      block ∈ nextGroup world.intake →
      host.Declines .concurrent block .apply world cause more after →
      (∀ entry ∈ looked,
        IsLook host world.table .concurrent (nextGroup world.intake) entry) →
      Asks host (more ++ looked) world after → GroupHalt host world cause after
  | refused {edits : List Edit} {pointer : Pointer} {looked : List Entry} {after : World σ} :
      host.Takes (edits ++ [Frontier.edit .concurrent pointer]) (.error cause) →
      (∀ entry ∈ looked,
        IsLook host world.table .concurrent (nextGroup world.intake) entry) →
      Asks host (.batch (edits ++ [Frontier.edit .concurrent pointer]) (.error cause) :: looked)
        world after →
      GroupHalt host world cause after

theorem groupStage_yields (host : Host σ) (world : World σ) :
    (groupStage host).Yields world (fun _ after => GroupStep host world after)
      (GroupHalt host world) := by
  rw [groupStage, Act.yields_bind, Act.intake, Act.yields_see]
  cases hready : groupReady world.intake with
  | false => exact GroupStep.idle (Or.inl hready)
  | true =>
      rw [if_pos rfl]
      unfold commitGroup
      cases hlast : (nextGroup world.intake).getLast? with
      | none => exact GroupStep.idle (Or.inr (List.getLast?_eq_none_iff.mp hlast))
      | some last =>
          dsimp only
          rw [Act.yields_bind]
          refine (consultAll_yields (.refl host world) .concurrent _).mono ?_ ?_
          · intro edits consulted hended
            rcases hended with ⟨hgathers, looked, hlooked, hconsulted⟩
            rw [List.append_nil] at hconsulted
            rw [Act.yields_bind]
            refine (hconsulted.commit .concurrent edits last.pointer).mono ?_ ?_
            · intro _ moved hmoved
              rcases hmoved with ⟨_, heard, hheard, rfl⟩
              rw [Act.changeIntake, Act.yields_change]
              have hstep := GroupStep.grouped hready hlast hgathers hlooked hheard
              rw [← hheard.intake] at hstep ⊢
              exact hstep
            · intro cause after hhalted
              exact .refused ⟨consulted.outside, hhalted.1⟩ hlooked hhalted.2
          · intro cause after hhalted
            rcases hhalted with ⟨block, hblock, more, looked, hdeclines, hlooked, hafter⟩
            rw [List.append_nil] at hafter
            exact .declined hblock hdeclines hlooked hafter

inductive SerialStep (host : Host σ) (world : World σ) : World σ → Prop where
  | idle : nextSerial? world.intake world.frontier.concurrent = none → SerialStep host world world
  | committed {block : Block} {moved : World σ} :
      nextSerial? world.intake world.frontier.concurrent = some block →
      Stepped host [] .serial block .apply world moved →
      SerialStep host world
        (({ moved with
            intake := { moved.intake with
              inFlight := moved.intake.inFlight.tail
              grouped := moved.intake.grouped - 1 } } : World σ).record
          (.emitted (.indexed block.height)))

inductive SerialHalt (host : Host σ) (world : World σ) (cause : Halt) : World σ → Prop where
  | hindered {block : Block} {more : List Entry} {after : World σ} :
      nextSerial? world.intake world.frontier.concurrent = some block →
      host.Hinders .serial block .apply world cause more after → Asks host more world after →
      SerialHalt host world cause after

theorem serialStage_yields (host : Host σ) (world : World σ) :
    (serialStage host).Yields world (fun _ after => SerialStep host world after)
      (SerialHalt host world) := by
  rw [serialStage, Act.yields_bind, Act.intake, Act.yields_see, Act.yields_bind, Act.tip,
    Act.yields_see]
  cases hnext : nextSerial? world.intake (world.frontier.tip .concurrent) with
  | none => exact SerialStep.idle hnext
  | some block =>
      dsimp only
      rw [commitSerial, Act.yields_bind]
      refine ((Asks.refl host world).stepBlock .serial block .apply).mono ?_ ?_
      · intro _ moved hmoved
        rw [Act.yields_bind, Act.changeIntake, Act.yields_change]
        exact SerialStep.committed hnext hmoved
      · intro cause after hhalted
        rcases hhalted with ⟨more, hafter, hhinders⟩
        rw [List.append_nil] at hafter
        exact .hindered hnext hhinders hafter

theorem nextSerial?_eq_some {intake : Intake} {concurrent : Pointer} {block : Block}
    (h : nextSerial? intake concurrent = some block) :
    0 < intake.grouped ∧ ∃ rest, intake.inFlight = block :: rest := by
  unfold nextSerial? at h
  split at h
  · rename_i hgrouped
    refine ⟨hgrouped, ?_⟩
    have hhead := (Option.filter_eq_some_iff.mp h).1
    exact List.head?_eq_some_iff.mp hhead
  · cases h

/-!
# Blocks in flight
-/

def Links (world : World σ) : Prop :=
  Linked world.frontier.serial.hash world.intake.inFlight world.intake.lastHash

namespace Links

variable {host : Host σ} {world after : World σ}

theorem parent_eq (h : Links world) {block : Block} {rest : List Block}
    (hrest : world.intake.inFlight = block :: rest) :
    block.parent = some world.frontier.serial.hash := by
  unfold Links at h
  rw [hrest] at h
  cases h with
  | up hparent _ => exact hparent

theorem fetched (h : Links world) {intake : Intake} {asked : List Entry}
    (hstep : FetchStep host world.intake asked intake)
    (hasks : Asks host asked { world with intake := intake } after) : Links after := by
  unfold Links
  rw [hasks.frontier, hasks.intake]
  cases hstep with
  | taken _ _ _ _ hparent _ => exact Linked.snoc h hparent
  | _ => exact h

theorem grouped (h : Links world) (hstep : GroupStep host world after) : Links after := by
  cases hstep with
  | idle _ => exact h
  | @grouped _ _ _ heard _ _ _ _ hasks =>
      show Linked heard.frontier.serial.hash world.intake.inFlight world.intake.lastHash
      rw [hasks.frontier]
      exact h

theorem committed (h : Links world) (hstep : SerialStep host world after) : Links after := by
  cases hstep with
  | idle _ => exact h
  | @committed block moved hnext hstepped =>
      rcases nextSerial?_eq_some hnext with ⟨_, rest, hrest⟩
      unfold Links at h
      rw [hrest] at h
      cases hstepped with
      | @step heard outages own pointer hasks _ _ hpointer =>
          show Linked pointer.hash heard.intake.inFlight.tail heard.intake.lastHash
          rw [hasks.intake, hrest, ← Except.ok.inj hpointer]
          cases h with
          | up _ hrestLinked => exact hrestLinked

end Links

/-!
# Turns and runs
-/

/-- What is told at the end of a run. -/
inductive Finishes (world : World σ) : Outcome → World σ → Prop where
  | forked {height : UInt64} : world.intake.forkAt = some height →
      Finishes world (.forked height) world
  | synced : world.intake.forkAt = none →
      Finishes world (.synced world.frontier.serial)
        (world.record (.emitted (.synced world.frontier.serial.height)))

section

variable {host : Host σ} {world : World σ} {halted : Halt → World σ → Prop}

theorem finish_yields (world : World σ) :
    (finish : Act σ Outcome).Yields world (Finishes world) halted := by
  rw [finish, Act.yields_bind, Act.intake, Act.yields_see, Act.yields_bind, Act.tip,
    Act.yields_see]
  cases hfork : world.intake.forkAt with
  | some height => exact Finishes.forked hfork
  | none => exact Finishes.synced hfork

theorem turn_of_stages {ended : Turn Unit Outcome → World σ → Prop}
    (hstopped : world.inbox.stopWanted = true →
      ended (.done (.stopped world.frontier.serial)) world)
    (hstages : world.inbox.stopWanted = false →
      (fetchStage host).Yields world (fun _ fetched =>
        (groupStage host).Yields fetched (fun _ grouped =>
          (serialStage host).Yields grouped (fun _ left =>
            (isOver left.intake = false → ended (.again ()) left) ∧
            (isOver left.intake = true → ∀ outcome after, Finishes left outcome after →
              ended (.done outcome) after))
            halted) halted) halted) :
    (turn host ()).Yields world ended halted := by
  rw [turn, Act.yields_bind, Act.stopWanted, Act.yields_see]
  cases hwanted : world.inbox.stopWanted with
  | true => exact hstopped hwanted
  | false =>
      rw [if_neg Bool.false_ne_true, Act.yields_bind]
      refine (hstages hwanted).imp fun _ fetched hfetched => ?_
      rw [Act.yields_bind]
      refine hfetched.imp fun _ grouped hgrouped => ?_
      rw [Act.yields_bind]
      refine hgrouped.imp fun _ left hleft => ?_
      rw [Act.yields_bind, Act.intake, Act.yields_see]
      cases hover : isOver left.intake with
      | true =>
          rw [if_pos rfl, Act.yields_bind]
          exact (finish_yields left).imp (hleft.2 hover)
      | false => exact hleft.1 hover

theorem run_of_turns {ended : Outcome → World σ → Prop}
    (hapart : world.frontier.concurrent ≠ world.frontier.serial →
      halted (.fault (.misaligned world.frontier.concurrent world.frontier.serial)) world)
    (hsummit : world.frontier.concurrent = world.frontier.serial →
      heightAbove? world.frontier.serial.height = none → halted .overflow world)
    (hturns : ∀ next, world.frontier.concurrent = world.frontier.serial →
      heightAbove? world.frontier.serial.height = some next →
      (Act.turns (turn host) host.patience ()).Yields
        { world with intake := reset world.intake world.frontier.serial next } ended halted) :
    (run host).Yields world ended halted := by
  rw [run, Act.yields_bind, Act.tip, Act.yields_see, Act.yields_bind, Act.tip, Act.yields_see]
  by_cases hlevel : world.frontier.concurrent = world.frontier.serial
  · rw [if_pos (show world.frontier.tip .concurrent = world.frontier.tip .serial from hlevel),
      Act.yields_bind, Act.yields_ofExcept]
    cases habove : heightAbove? world.frontier.serial.height with
    | none =>
        rw [show heightAbove? (world.frontier.tip .serial).height = none from habove]
        exact hsummit hlevel habove
    | some next =>
        rw [show heightAbove? (world.frontier.tip .serial).height = some next from habove]
        show (Act.changeIntake _ >>= _).Yields world _ _
        rw [Act.yields_bind, Act.changeIntake, Act.yields_change]
        exact hturns next hlevel habove
  · rw [if_neg (show world.frontier.tip .concurrent ≠ world.frontier.tip .serial from hlevel)]
    exact hapart hlevel

theorem run_of_turn {kept : World σ → Prop}
    (hhalts : ∀ cause world, kept world → halted cause world)
    (hreset : ∀ world low next, kept world →
      kept { world with intake := reset world.intake low next })
    (hturn : ∀ world, kept world → (turn host ()).Yields world (fun _ => kept) halted)
    (h : kept world) : (run host).Yields world (fun _ => kept) halted := by
  refine run_of_turns (fun _ => hhalts _ _ h) (fun _ _ => hhalts _ _ h) fun next _ _ => ?_
  refine Act.yields_turns (fun _ _ => kept) ?_ (fun _ _ => hhalts _ _) (hreset _ _ next h)
  intro _ _ now hnow
  refine (hturn now hnow).imp ?_
  intro result after hafter
  cases result <;> exact hafter

end

/-!
# What the stages keep
-/

structure StagesKeep (host : Host σ) (kept : World σ → Prop) (halted : Halt → World σ → Prop) :
    Prop where
  fetched {intake : Intake} {asked : List Entry} {world after : World σ} :
    FetchStep host world.intake asked intake →
      Asks host asked { world with intake := intake } after → kept world → kept after
  grouped {world after : World σ} : GroupStep host world after → kept world → kept after
  committed {world after : World σ} : SerialStep host world after → kept world → kept after
  fetchHalt {cause : Halt} {intake : Intake} {asked : List Entry} {world after : World σ} :
    isStalled world.intake = false → FetchHalt host world.intake cause asked intake →
      Asks host asked { world with intake := intake } after → kept world → halted cause after
  groupHalt {cause : Halt} {world after : World σ} :
    GroupHalt host world cause after → kept world → halted cause after
  serialHalt {cause : Halt} {world after : World σ} :
    SerialHalt host world cause after → kept world → halted cause after

/-- How a turn may end whose stages keep this. -/
inductive TurnEnds (kept : World σ → Prop) (world : World σ) :
    Turn Unit Outcome → World σ → Prop where
  | stopped : world.inbox.stopWanted = true →
      TurnEnds kept world (.done (.stopped world.frontier.serial)) world
  | again {left : World σ} : isOver left.intake = false → kept left →
      TurnEnds kept world (.again ()) left
  | finished {left after : World σ} {outcome : Outcome} : isOver left.intake = true → kept left →
      Finishes left outcome after → TurnEnds kept world (.done outcome) after

namespace StagesKeep

variable {host : Host σ} {kept : World σ → Prop} {halted : Halt → World σ → Prop}
variable (hkeeps : StagesKeep host kept halted) {world : World σ}
include hkeeps

theorem turn (h : kept world) :
    (Forward.turn host ()).Yields world (TurnEnds kept world) halted := by
  refine turn_of_stages .stopped fun _ => ?_
  refine (fetchStage_yields host world).mono ?_ ?_
  · intro _ fetched hended
    rcases hended with ⟨asked, intake, hfetch, hasks⟩
    have hfetched := hkeeps.fetched hfetch hasks h
    refine (groupStage_yields host fetched).mono ?_ fun _ _ hhalt => hkeeps.groupHalt hhalt hfetched
    intro _ grouped hgroup
    have hgrouped := hkeeps.grouped hgroup hfetched
    refine (serialStage_yields host grouped).mono ?_
      fun _ _ hhalt => hkeeps.serialHalt hhalt hgrouped
    intro _ left hserial
    have hleft := hkeeps.committed hserial hgrouped
    exact ⟨fun hgoing => .again hgoing hleft,
      fun hover _ _ hfinishes => .finished hover hleft hfinishes⟩
  · intro cause after hhalted
    rcases hhalted with ⟨hopen, asked, intake, hhalt, hasks⟩
    exact hkeeps.fetchHalt hopen hhalt hasks h

theorem turns {ended : Outcome → World σ → Prop} (h : kept world)
    (hended : ∀ now outcome after, kept now → TurnEnds kept now (.done outcome) after →
      ended outcome after)
    (hout : ∀ now, kept now → halted .abandoned now) (allowed : Nat) :
    (Act.turns (Forward.turn host) allowed ()).Yields world ended halted := by
  refine Act.yields_turns (fun _ _ => kept) ?_ (fun _ => hout) h
  intro _ _ now hnow
  refine (hkeeps.turn hnow).imp ?_
  intro result after hends
  cases result with
  | again _ =>
      cases hends with
      | again _ hleft => exact hleft
  | done outcome => exact hended now outcome after hnow hends

end StagesKeep

end Forward

end ChainIndex
