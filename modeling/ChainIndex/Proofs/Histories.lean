import ChainIndex.Proofs.Rounds

/-!
# Histories

A history begins when an indexer is first opened on an empty table, and goes on by
any sequence of requests.  Each request may meet another host: all that the hosts of
one history have in common are the indexes they use and the tree that their answers
agree with.  A request that is cut short leaves the world as it was cut, and the
next one finds it so; opening again on the same table is a restart.
-/

namespace ChainIndex

/-!
# Opening
-/

theorem Settings.sizes_of_validate {settings : Settings} (h : settings.validate = .ok ()) :
    0 < settings.groupSize ∧ 0 < settings.highWater := by
  have hnone : settings.sizes.find? (fun size => size.2 = 0) = none := by
    unfold Settings.validate at h
    split at h
    · cases h
    · assumption
  have hsize := List.find?_eq_none.mp hnone
  constructor
  · have hgroup := hsize ("concurrent_group_size", settings.groupSize) (by simp [Settings.sizes])
    simpa [Nat.pos_iff_ne_zero] using hgroup
  · have hwater := hsize ("high_water_mark", settings.highWater) (by simp [Settings.sizes])
    simpa [Nat.pos_iff_ne_zero] using hwater

namespace Following

/-- What a follower is started with, and what has been asked for it. -/
structure Starts (host : Host σ) (settings : Settings) (world after : World σ) : Prop where
  valid : settings.validate = .ok ()
  opens : ∃ genesis outages frontier, ∃ viewed : World σ,
    Asks host [.viewed (.ok outages), .askedBlock (.byHeight 0) (.ok genesis)] world viewed ∧
    host.Finds (.byHeight 0) (.ok genesis) ∧
    Frontier.load ⟨world.table, outages⟩ genesis.pointer = .ok frontier ∧
    after = { viewed with toFollower := .fresh settings frontier }

theorem start_yields (host : Host σ) (settings : Settings) (world : World σ) :
    (start host settings).Yields world (fun _ after => Starts host settings world after)
      (fun _ after => ∃ asked, (∀ entry ∈ asked, entry.IsQuiet) ∧ Asks host asked world after) := by
  have hstart := Asks.refl host world
  rw [start, Act.yields_bind, Act.yields_ofExcept]
  cases hvalid : settings.validate with
  | error fault => exact ⟨[], List.forall_mem_nil _, hstart⟩
  | ok _ =>
      show (Act.blockAt host (.byHeight 0) >>= _).Yields world _ _
      rw [Act.yields_bind]
      refine (hstart.blockAt _).mono ?_ fun cause after hhalted =>
        ⟨_, by simp [Entry.IsQuiet], hhalted.1⟩
      intro genesis asked hended
      rcases hended with ⟨hasked, hgenesis⟩
      rw [Act.yields_bind]
      refine hasked.view.mono ?_ fun cause after hhalted =>
        ⟨_, by simp [Entry.IsQuiet], hhalted.1⟩
      intro seen viewed hended
      rcases hended with ⟨outages, hviewed, _, rfl⟩
      have hcut : ∃ asked, (∀ entry ∈ asked, entry.IsQuiet) ∧ Asks host asked world viewed :=
        ⟨_, by simp [Entry.IsQuiet], hviewed⟩
      rw [Act.yields_bind, Act.yields_ofExcept]
      cases hload : Frontier.load ⟨world.table, outages⟩ genesis.pointer with
      | error fault => exact hcut
      | ok frontier =>
          show (Act.ofExcept (Feed.allot settings.eventCapacity) >>= _).Yields viewed _ _
          rw [Act.yields_bind, Act.yields_ofExcept]
          cases Feed.allot settings.eventCapacity with
          | error cause => exact hcut
          | ok _ =>
              dsimp only
              rw [Act.yields_bind, Act.yields_ofExcept]
              cases Inbox.allot settings.noticeCapacity with
              | error cause => exact hcut
              | ok _ =>
                  exact ⟨hvalid, genesis, outages, frontier, viewed, hviewed, hgenesis, hload, rfl⟩

end Following

section

variable {terms : Terms} {standing : Standing} {world after : World σ} {host : Host σ}
variable {settings : Settings}

theorem Settled.starts (h : Settled terms standing world) (hhost : host.Honours terms)
    (hspares : terms.catalogue.SparesTips) (hstarts : Following.Starts host settings world after) :
    Stands terms standing (.idle settings.groupSize settings.highWater) after ∧
      after.inbox = .ofCapacity settings.noticeCapacity := by
  rcases hstarts with ⟨hvalid, genesis, outages, frontier, viewed, hasks, hgenesis, hload, rfl⟩
  have hsizes := Settings.sizes_of_validate hvalid
  rcases hhost.finds_height hgenesis with ⟨hmem, hheight, _⟩
  rw [BlockTree.eq_genesis_of_height hmem hheight] at hload
  have hviewed := h.asks hasks (Standing.permits_quiet (by simp [Entry.IsQuiet]))
  have htable : (⟨world.table, outages⟩ : View).table = standing.table := h.table
  refine ⟨{ hviewed with
    frontier := h.chronicle.frontier_eq hspares htable hload
    memory := rfl
    groupSize := hsizes.1
    highWater := hsizes.2
    announced := ?_
    queued := ?_
    going := fun _ => rfl }, rfl⟩
  · intro block hblock
    cases hblock
  · intro block hblock
    cases hblock

end

/-!
# Requests
-/

def Signal.Fits (tree : BlockTree) : Signal → Prop
  | .notify block => block ∈ tree
  | _ => True

inductive Request where
  | start (settings : Settings)
  | announce (block : Block)
  | send (signal : Signal)
  | shutdown
  | sync
  | run
  | resume
  | round (forkSeen : Bool)
  | takeNotices
  | enter (phase : Phase)

namespace Request

def act (host : Host σ) : Request → Act σ Unit
  | .start settings => Following.start host settings
  | .announce block => Act.changeIntake (·.announce block)
  | .send signal => Act.change (·.receive signal)
  | .shutdown => Act.change fun world =>
      { world with inbox := { world.inbox with stopWanted := true } }
  | .sync => do
      let _ ← Following.sync host
      pure ()
  | .run => do
      let _ ← Following.run host
      pure ()
  | .resume => do
      let _ ← Following.resume host
      pure ()
  | .round forkSeen => do
      let _ ← Following.syncTurn host forkSeen
      pure ()
  | .takeNotices => Following.takeNotices
  | .enter phase => Act.enter phase

def Fits (tree : BlockTree) : Request → Prop
  | .announce block => block ∈ tree
  | .send signal => signal.Fits tree
  | _ => True

end Request

/-!
# Hosts that agree with a tree
-/

def Reply.Agrees (reply : Reply σ α) (tree : BlockTree) (given : α → Prop) : Prop :=
  (∀ a, reply.answer = .ok a → given a) ∧ ∀ signal ∈ reply.signals, signal.Fits tree

/-- Whatever the host answers agrees with the tree.  It may fail at any call, and it may
name any hash the best. -/
structure Host.Agrees (host : Host σ) (tree : BlockTree) : Prop where
  byHash (hash : BlockHash) (outside : σ) :
    (host.blockAt (.byHash hash) outside).Agrees tree fun block => tree.find? hash = some block
  byHeight (height : UInt64) (outside : σ) :
    (host.blockAt (.byHeight height) outside).Agrees tree fun block =>
      block ∈ tree ∧ block.height = height
  header (hash : BlockHash) (outside : σ) :
    (host.headerOf hash outside).Agrees tree fun header =>
      ∃ block, tree.find? hash = some block ∧ block.header = header
  bestHash (outside : σ) : (host.bestHash outside).Agrees tree fun _ => True
  accept (edits : List Edit) (outside : σ) : (host.accept edits outside).Agrees tree fun _ => True
  outages (outside : σ) : (host.outages outside).Agrees tree fun _ => True

namespace Host.Agrees

variable {tree : BlockTree} {catalogue : Catalogue} {host : Host σ}

theorem fits {reply : Reply σ α} {given given' : α → Prop} {refused : Halt → Prop}
    (h : reply.Agrees tree given) (hgiven : ∀ a, given a → given' a)
    (hrefused : ∀ cause, refused cause) : reply.Fits (.loose tree catalogue) given' refused := by
  constructor
  · cases hanswer : reply.answer with
    | ok a => exact hgiven a (h.1 a hanswer)
    | error cause => exact hrefused cause
  · intro signal hsignal
    have hfits := h.2 signal hsignal
    cases signal with
    | notify block => exact hfits
    | stop wanted => exact False.elim
    | release => trivial

theorem honours (h : host.Agrees tree) (hcatalogue : host.catalogue = catalogue) :
    host.Honours (.loose tree catalogue) := by
  constructor
  · intro hash outside
    exact fits (h.byHash hash outside) (fun _ hblock => hblock) fun _ => False.elim
  · intro height outside
    exact fits (h.byHeight height outside) (fun _ hblock => ⟨hblock.1, hblock.2, False.elim⟩)
      fun _ => False.elim
  · intro hash outside
    exact fits (h.header hash outside) (fun _ hheader => hheader) fun _ => False.elim
  · intro outside
    exact fits (h.bestHash outside) (fun _ _ => False.elim) fun _ => not_false
  · intro edits outside
    exact fits (h.accept edits outside) (fun _ _ => trivial) fun _ => not_false
  · intro outside
    exact fits (h.outages outside) (fun _ _ => False.elim) fun _ => not_false
  · exact hcatalogue
  · exact False.elim

theorem finds (h : host.Agrees tree) {hash : BlockHash} {block : Block}
    (hfinds : host.Finds (.byHash hash) (.ok block)) : block ∈ tree ∧ block.hash = hash := by
  rcases hfinds with ⟨outside, hanswer⟩
  have hblock := (h.byHash hash outside).1 block hanswer
  exact ⟨BlockTree.mem_of_find? hblock, tree.hash_of_find? hblock⟩

theorem finds_height (h : host.Agrees tree) {height : UInt64} {block : Block}
    (hfinds : host.Finds (.byHeight height) (.ok block)) :
    block ∈ tree ∧ block.height = height := by
  rcases hfinds with ⟨outside, hanswer⟩
  exact (h.byHeight height outside).1 block hanswer

end Host.Agrees

namespace Forward.Offers

variable {tree : BlockTree} {host : Host σ} {intake : Intake} {block : Block}
variable {left : Option Block} {asked : List Entry}

theorem mem (h : Offers host intake block left asked) (hagrees : host.Agrees tree)
    (hannounced : ∀ hint ∈ intake.announced, hint ∈ tree) : block ∈ tree := by
  cases h with
  | announced hhint _ => exact hannounced block hhint
  | found hfinds _ => exact (hagrees.finds_height hfinds).1

theorem height (h : Offers host intake block left asked) (hagrees : host.Agrees tree) :
    block.height = intake.nextHeight := by
  cases h with
  | announced _ hheight => exact hheight
  | found hfinds _ => exact (hagrees.finds_height hfinds).2

end Forward.Offers

/-!
# What a history leads to
-/

/-- The worlds that a history may lead to. -/
inductive Reached (tree : BlockTree) (catalogue : Catalogue) : World σ → Prop where
  | opened {host : Host σ} {settings : Settings} {world after : World σ} :
      host.Agrees tree → host.catalogue = catalogue → world.table = .empty →
      (∀ entry ∈ world.course, entry.IsQuiet) →
      (Following.start host settings).perform world = (.ok (), after) →
      Reached tree catalogue after
  | asked {host : Host σ} {request : Request} {world : World σ} :
      Reached tree catalogue world → host.Agrees tree → host.catalogue = catalogue →
      request.Fits tree → Reached tree catalogue ((request.act host).perform world).2

theorem Chronicle.of_quiet {tree : BlockTree} {catalogue : Catalogue} {course : List Entry}
    (h : ∀ entry ∈ course, entry.IsQuiet) : Chronicle tree catalogue course (.blank tree) := by
  induction course with
  | nil => exact .blank
  | cons entry past ih =>
      refine .next (ih fun e he => h e (List.mem_cons_of_mem _ he)) ?_
      exact .quiet (h entry List.mem_cons_self) rfl

theorem Sound.request {tree : BlockTree} {catalogue : Catalogue} {world : World σ}
    {host : Host σ} (h : Sound (.loose tree catalogue) world) (hhost : host.Agrees tree)
    (hcatalogue : host.catalogue = catalogue) (hspares : catalogue.SparesTips)
    {request : Request} (hfits : request.Fits tree) :
    Sound (.loose tree catalogue) ((request.act host).perform world).2 := by
  have hhonours := hhost.honours hcatalogue
  have hloose : ¬ (Terms.loose tree catalogue).firm := not_false
  -- Calls whose value does not matter here.
  have hcall {α : Type} {act : Act σ α}
      (hact : act.Yields world (fun _ after => Sound (.loose tree catalogue) after)
        (Cut (.loose tree catalogue))) :
      (act >>= fun _ => pure ()).Yields world
        (fun _ after => Sound (.loose tree catalogue) after)
        fun _ after => Sound (.loose tree catalogue) after := by
    rw [Act.yields_bind]
    exact hact.mono (fun _ _ hsound => hsound) fun _ _ hcut => hcut.2
  rcases h with ⟨standing, intake, hstands⟩
  apply Act.Yields.left
  cases request with
  | start settings =>
      refine (Following.start_yields host settings world).mono ?_ ?_
      · intro _ after hstarts
        exact ⟨standing, _, (hstands.toSettled.starts hhonours hspares hstarts).1⟩
      · intro _ after hhalted
        rcases hhalted with ⟨asked, hquiet, hasks⟩
        exact ⟨standing, intake, hstands.quietly hhonours hasks hquiet⟩
  | announce block =>
      have hmemory := hstands.memory
      subst hmemory
      refine ⟨standing, _, hstands.remember (world.intake.announce block) rfl rfl ?_⟩
      intro other hother
      cases hother
      exact hfits
  | send signal =>
      have hsignal : (Terms.loose tree catalogue).Admits signal := by
        cases signal with
        | notify block => exact hfits
        | stop wanted => exact False.elim
        | release => trivial
      exact ⟨standing, intake, hstands.receive hsignal⟩
  | shutdown => exact ⟨standing, intake, { hstands with going := False.elim }⟩
  | sync => exact hcall (Sound.sync ⟨standing, intake, hstands⟩ hhonours hloose)
  | run => exact hcall (Sound.run ⟨standing, intake, hstands⟩ hhonours hloose)
  | resume => exact hcall (Sound.resume ⟨standing, intake, hstands⟩ hhonours hloose)
  | round forkSeen =>
      exact hcall (Sound.syncTurn ⟨standing, intake, hstands⟩ hhonours hloose forkSeen)
  | takeNotices => exact ⟨standing, _, hstands.drained⟩
  | enter phase => exact ⟨standing, intake, hstands.enter phase⟩

theorem Reached.sound {tree : BlockTree} {catalogue : Catalogue} {world : World σ}
    (hspares : catalogue.SparesTips) (h : Reached tree catalogue world) :
    Sound (.loose tree catalogue) world := by
  induction h with
  | @opened host settings world after hhost hcatalogue htable hquiet hstart =>
      have hsettled : Settled (.loose tree catalogue) (.blank tree) world :=
        ⟨.of_quiet hquiet, rfl, htable⟩
      have hstarts := Following.start_yields host settings world
      unfold Act.Yields at hstarts
      rw [hstart] at hstarts
      exact ⟨_, _, (hsettled.starts (hhost.honours hcatalogue) hspares hstarts).1⟩
  | asked _ hhost hcatalogue hfits ih => exact ih.request hhost hcatalogue hspares hfits

end ChainIndex
