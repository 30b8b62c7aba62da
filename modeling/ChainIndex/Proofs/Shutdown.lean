import ChainIndex.Proofs.Caution
import ChainIndex.Proofs.Headway
import ChainIndex.Proofs.Serving

/-!
# Shutdown

A wish to stop may be uttered during any call to the host.  A sync that hears of it offers at
most one more batch for each track, and then ends where it is: at its last commit, without a
fault, and at the tips that are recorded in the table.

A sync goes in rounds, and a round ends on its own even if the best chain moves all the time.
So the wish is heard by the end of the round in which it is uttered.
-/

namespace ChainIndex

/-- The sync ends at this tip: it has been stopped, or it has just been told of as synced. -/
def Following.EndsAt (tip : Pointer) (world : World σ) : Prop :=
  tip = world.frontier.serial ∧
    (world.phase = .stopping ∨
      (world.phase = .synced ∧
        ∃ past, world.course = .entered .synced :: .emitted (.synced tip.height) :: past))

/-!
# Rounds
-/

theorem Following.syncTurn_ends {host : Host σ} {world : World σ}
    (hwanted : world.inbox.stopWanted = true) (forkSeen : Bool) {halted : Halt → World σ → Prop} :
    (syncTurn host forkSeen).Yields world
      (fun result after => result.Is (fun _ => False) (EndsAt · after)) halted := by
  refine syncTurn_of_cycle (fun _ => ⟨rfl, Or.inl rfl⟩) fun hgoing => ?_
  cases hgoing.symm.trans hwanted

section

variable {terms : Terms} {standing : Standing} {intake : Intake} {world : World σ}
variable {host : Host σ}
variable (hhost : host.Supports terms)
include hhost

theorem Stands.cycle_proceeds (h : Stands terms standing intake world) (forkSeen : Bool) :
    (Following.cycle host forkSeen).Proceeds terms.tree host world Forward.Outcome.TellsOf := by
  refine Following.cycle_of_parts
    (((h.enter _).align_proceeds hhost).next (List.suffix_cons _ _) |>.imp ?_)
  rintro _ aligned ⟨hpast, level, haligned, hlevel⟩
  refine ((haligned.switchIfNeeded_proceeds hhost hlevel forkSeen).next hpast).imp ?_
  rintro _ switched ⟨hpast, last, hlast, hlastLevel⟩
  exact ((hlast.enter .syncing).forward_proceeds hhost hlastLevel).next
    (hpast.trans (List.suffix_cons _ _))

theorem Sound.syncTurn_ends (h : Sound terms world) (forkSeen : Bool) :
    (Following.syncTurn host forkSeen).Yields world
      (fun result after => result.Is (fun _ => world.course <:+ after.course)
        (Following.EndsAt · after))
      (Hindered terms.tree host world) := by
  rcases h with ⟨standing, intake, hstands⟩
  refine Following.syncTurn_of_cycle (fun _ => ⟨rfl, Or.inl rfl⟩) fun _ => ?_
  refine Act.Yields.mono (hstands.drained.cycle_proceeds hhost forkSeen) ?_ ?_
  · rintro outcome after ⟨hpast, htells⟩
    cases outcome with
    | forked height => exact hpast
    | synced tip =>
        rcases htells with ⟨htip, past, hcourse⟩
        exact ⟨htip, Or.inr ⟨rfl, past, congrArg (Entry.entered .synced :: ·) hcourse⟩⟩
    | stopped tip => exact ⟨htells, Or.inl rfl⟩
  · intro cause after hinterrupted
    refine ⟨fun _ => ⟨rfl, Or.inl rfl⟩, fun hgoing => ?_⟩
    cases hinterrupted with
    | stopped hwanted => exact absurd ⟨hwanted, _, rfl⟩ hgoing
    | hindered hhindered => exact hhindered.since (List.suffix_refl _)

/-- A sync ends by the end of the round in which the wish to stop is uttered, or in the next. -/
theorem Sound.sync_ends (h : Sound terms world) (forkSeen : Bool) {rounds allowed : Nat}
    (hwanted : ((Act.turns (Following.syncTurn host) rounds forkSeen).perform
      world).2.inbox.stopWanted = true) (hallowed : rounds < allowed) :
    (Act.turns (Following.syncTurn host) allowed forkSeen).Yields world Following.EndsAt
      (Hindered terms.tree host world) := by
  induction rounds generalizing world forkSeen allowed with
  | zero =>
      rcases Nat.exists_eq_add_of_lt hallowed with ⟨left, rfl⟩
      rw [Act.turns, Act.yields_bind]
      have hwanted : world.inbox.stopWanted = true := hwanted
      refine (Following.syncTurn_ends hwanted forkSeen).imp ?_
      intro result after hresult
      cases result with
      | again _ => exact hresult.elim
      | done tip => exact hresult
  | succ rounds ih =>
      rcases Nat.exists_eq_add_of_lt hallowed with ⟨left, rfl⟩
      have hturn := (h.syncTurn hhost.honours hhost.loose forkSeen).and
        (h.syncTurn_ends hhost forkSeen)
      rw [Act.perform_turns_succ] at hwanted
      unfold Act.Yields at hturn ⊢
      rw [Act.perform_turns_succ]
      generalize (Following.syncTurn host forkSeen).perform world = outcome at hwanted hturn ⊢
      rcases outcome with ⟨result, after⟩
      cases result with
      | error cause => exact hturn.2
      | ok turn =>
          cases turn with
          | done tip => exact hturn.2
          | again next =>
              have hrest := ih hturn.1 next hwanted
                (show rounds < rounds + 1 + left from by omega)
              exact hrest.mono (fun _ _ hend => hend) fun _ _ hcause => hcause.since hturn.2

end

/-!
# The whole sync
-/

theorem Hindered.overflow {tree : BlockTree} {host : Host σ} {start world : World σ} {cause : Halt}
    (h : Hindered tree host start cause world) {said : List Entry}
    (hcourse : world.course = said ++ start.course)
    (hfit : ∀ entry ∈ said, entry.isFit host.catalogue = true) :
    cause = .overflow ∧ world.AtSummit tree := by
  cases h with
  | summit hsummit => exact ⟨rfl, hsummit⟩
  | @unfit track block direction view past _ _ hlast hpast hedits =>
      rcases hpast with ⟨more, rfl⟩
      have hsaid : said = .consulted track block direction view :: more :=
        List.append_cancel_right (hcourse.symm.trans hlast)
      have hasked := hfit _ (by rw [hsaid]; exact List.mem_cons_self)
      rw [Entry.isFit, hedits] at hasked
      cases hasked

theorem Sound.load_clear {terms : Terms} {world : World σ} (h : Sound terms world)
    (hspares : terms.catalogue.SparesTips) :
    Frontier.load (.clear world.table) terms.tree.genesis.pointer = .ok world.frontier := by
  rcases h with ⟨standing, intake, hstands⟩
  rw [hstands.table, hstands.frontier]
  exact hstands.chronicle.load_clear hspares

/-- A sync from any state that a history of requests leads to, in which a stop is wanted by the
end of some round that the host waits for.  From the moment at which the wish is uttered, any
batch then on its way included, at most one batch for each track is offered; and the tips in
memory are those that the table records.  If the indexes have edits for all blocks they are asked
for, the sync ends without a fault, at its serial tip, and says that it stops, unless it has just
told that it is synced.  It is kept from that only where it has come up to the highest of all
heights itself. -/
theorem shutdown_stops_at_a_commit {tree : BlockTree} {catalogue : Catalogue} {host : Host σ}
    {world : World σ} {rounds : Nat} (hreached : Reached tree catalogue world)
    (hspares : catalogue.SparesTips) (hhost : host.Provides tree)
    (hcatalogue : host.catalogue = catalogue) (hrounds : rounds < host.patience)
    (hwanted : ((Act.turns (Following.syncTurn host) rounds false).perform
      world).2.inbox.stopWanted = true) :
    ∃ result after said, (Following.sync host).perform world = (result, after) ∧
      after.course = said ++ world.course ∧
      (∀ newer older, said = newer ++ older → (world.inbox.heard older).stopWanted = true →
        (batches newer).Nodup) ∧
      Frontier.load (.clear after.table) tree.genesis.pointer = .ok after.frontier ∧
      ((∀ entry ∈ said, entry.isFit catalogue = true) →
        (∃ tip, result = .ok tip ∧ Following.EndsAt tip after) ∨
          (result = .error .overflow ∧ after.AtSummit tree)) := by
  subst hcatalogue
  have hsound := hreached.sound hspares
  have hsupports : host.Supports (.loose tree host.catalogue) :=
    ⟨hhost.agrees.honours rfl, hhost, id⟩
  have hends := ((hsound.sync hsupports.honours hsupports.loose).and
    ((Following.keeps_minds hhost.stands).sync ⟨[], .refl host world⟩)).and
    (hsound.sync_ends hsupports false hwanted hrounds)
  unfold Act.Yields at hends
  cases hperform : (Following.sync host).perform world with
  | mk result after =>
      rw [hperform] at hends
      cases result with
      | ok tip =>
          rcases hends with ⟨⟨hafter, said, hsaid⟩, hend⟩
          exact ⟨.ok tip, after, said, rfl, hsaid.course, hsaid.once, hafter.load_clear hspares,
            fun _ => Or.inl ⟨tip, rfl, hend⟩⟩
      | error cause =>
          rcases hends with ⟨⟨hcut, said, hsaid⟩, hhindered⟩
          refine ⟨.error cause, after, said, rfl, hsaid.course, hsaid.once,
            hcut.2.load_clear hspares, fun hfit => Or.inr ?_⟩
          rcases hhindered.overflow hsaid.course hfit with ⟨rfl, hsummit⟩
          exact ⟨rfl, hsummit⟩

namespace Sample

/-- Somebody asks to stop while the first batch is on its way. -/
def stopping : Host Unit := { host with accept := fun _ _ => ⟨.ok (), (), [.stop true]⟩ }

def stopped : World Unit := ((Following.sync stopping).perform opened).2

theorem provides : stopping.Provides tree where
  agrees := { within.agrees catalogue with
    accept := fun _ _ => ⟨fun _ _ => trivial, fun signal hsignal => by
      rw [List.mem_singleton.mp hsignal]
      trivial⟩ }
  serves h := { serves h with }
  byHeight height outside cause h := by
    have h : ofFault (chain.blockAt (.byHeight height)) = .error cause := h
    unfold Chain.blockAt at h
    dsimp only at h
    cases hfind : chain.best[height.toNat]?.bind chain.find? with
    | some block =>
        rw [hfind] at h
        cases h
    | none =>
        rw [hfind] at h
        cases h
        exact ⟨_, rfl⟩
  bestHash _ := ⟨second, by decide, rfl⟩
  accept _ _ := rfl
  outages _ := rfl
  stands h := by
    cases h with
    | batch hsignal => cases List.mem_singleton.mp hsignal
    | block hsignal => cases hsignal
    | header hsignal => cases hsignal
    | best hsignal => cases hsignal
    | read hsignal => cases hsignal
  patience := Nat.le_refl _

theorem roomAbove {block : Block} (h : block ∈ tree) : heightAbove? block.height ≠ none := by
  have hall : ∀ block ∈ chain.blocks, heightAbove? block.height ≠ none := by decide
  have hfind : chain.blocks.find? (fun known => known.hash = block.hash) = some block := h
  exact hall block (List.mem_of_find?_eq_some hfind)

theorem fit_stopped : stopped.course.all (Entry.isFit catalogue) = true := by
  decide +kernel

end Sample

/-- The serial track follows the concurrent one, whose batch was on its way, and nothing more. -/
theorem shutdown_stops_at_a_commit_of_sample :
    Reached Sample.tree Sample.catalogue Sample.opened ∧ Sample.catalogue.SparesTips ∧
    Sample.stopping.Provides Sample.tree ∧ 1 < Sample.stopping.patience ∧
    ((Act.turns (Following.syncTurn Sample.stopping) 1 false).perform
      Sample.opened).2.inbox.stopWanted = true ∧
    ∃ tip after, (Following.sync Sample.stopping).perform Sample.opened = (.ok tip, after) ∧
      Following.EndsAt tip after ∧
      Frontier.load (.clear after.table) Sample.genesis.pointer = .ok after.frontier := by
  have hspares := Sample.standard.sparesTips
  have hpatience : 1 < Sample.stopping.patience := by decide
  have hwanted : ((Act.turns (Following.syncTurn Sample.stopping) 1 false).perform
      Sample.opened).2.inbox.stopWanted = true := by
    decide +kernel
  refine ⟨Sample.reached_opened, hspares, Sample.provides, hpatience, hwanted, ?_⟩
  rcases shutdown_stops_at_a_commit Sample.reached_opened hspares Sample.provides rfl hpatience
    hwanted with ⟨result, after, said, hperform, hcourse, _, hload, hends⟩
  have hafter : after = Sample.stopped := (congrArg Prod.snd hperform).symm
  have hfit : ∀ entry ∈ said, entry.isFit Sample.catalogue = true := by
    intro entry hentry
    refine List.all_eq_true.mp Sample.fit_stopped entry ?_
    rw [← hafter, hcourse]
    exact List.mem_append_left _ hentry
  rcases hends hfit with ⟨tip, hresult, hend⟩ | ⟨_, block, hblock, htop, _⟩
  · exact ⟨tip, after, hperform.trans (congrArg (Prod.mk · after) hresult), hend, hload⟩
  · exact absurd htop (Sample.roomAbove hblock)

end ChainIndex
