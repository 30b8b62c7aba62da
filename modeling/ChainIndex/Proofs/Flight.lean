import ChainIndex.Proofs.Branches
import ChainIndex.Proofs.Heading
import ChainIndex.Proofs.Stages

/-!
# Forward sync on terms

The blocks in flight climb from the serial tip to the newest one, and those that
the concurrent track has passed are the lower part of that climb.  Each stage of a
turn keeps this, and each of them either does nothing or does part of a work that
is limited: what is still to be fetched, to be grouped and to be committed.
-/

namespace ChainIndex

structure Flight (terms : Terms) (start goal : Block) (standing : Standing) (intake : Intake)
    (top : Block) : Prop where
  climb : terms.tree.Climb standing.serial intake.inFlight top
  passed : terms.tree.Climb standing.serial (intake.inFlight.take intake.grouped)
    standing.concurrent
  counted : intake.grouped ≤ intake.inFlight.length
  last : intake.lastHash = top.hash
  next : intake.nextHeight.toNat = top.height.toNat + 1
  bestHash : terms.firm → intake.bestHash = "" ∨ intake.bestHash = terms.best.hash
  heading : terms.firm → intake.exhausted = false →
    intake.forkAt = none ∧ Heading terms start goal top intake.announced
  arrived : terms.firm → intake.exhausted = true → Arrived terms start goal top intake.forkAt

namespace Flight

variable {terms : Terms} {start goal top : Block} {standing : Standing} {intake : Intake}

theorem below_goal (h : Flight terms start goal standing intake top) (hfirm : terms.firm) :
    terms.tree.Below top goal := by
  cases hexhausted : intake.exhausted with
  | false => exact (h.heading hfirm hexhausted).2.ahead
  | true =>
      have harrived := h.arrived hfirm hexhausted
      cases hfork : intake.forkAt with
      | none =>
          rw [hfork] at harrived
          rw [harrived.1, harrived.2]
          exact BlockTree.Below.refl _
      | some height =>
          rw [hfork] at harrived
          rcases harrived.2.2 with heq | ⟨heq, hbelow⟩
          · exact heq ▸ BlockTree.Below.refl _
          · exact heq ▸ hbelow

end Flight

/-- What is left to do: every block that is still to be fetched will be fetched,
grouped and committed. -/
def Forward.work (goal top : Block) (intake : Intake) : Nat :=
  3 * (goal.height.toNat - top.height.toNat) + intake.inFlight.length + Forward.pending intake +
    (if intake.exhausted then 0 else 1)

section

variable {terms : Terms} {start goal top : Block} {standing : Standing} {intake kept : Intake}
variable {world after : World σ} {host : Host σ} {asked : List Entry}

/-!
# Fetching
-/

theorem Heading.spares {left : Option Block} (h : Heading terms start goal top intake.announced)
    (hnext : intake.nextHeight.toNat = top.height.toNat + 1)
    (hspares : Forward.Spares intake left) :
    Heading terms start goal top left ∧
      ∀ hint ∈ left, top.height.toNat + 1 < hint.height.toNat := by
  cases hspares with
  | later hlater =>
      refine ⟨h, fun hint hhint => ?_⟩
      have hlt := UInt64.lt_iff_toNat_lt.mp (hlater hint hhint)
      omega
  | past hpast =>
      refine ⟨h.drop fun hint hhint => ?_, by simp⟩
      have hlt := UInt64.lt_iff_toNat_lt.mp (hpast hint hhint)
      omega

theorem Stands.announced_left {left : Option Block} (h : Stands terms standing intake world)
    (hleft : left = none ∨ left = intake.announced) : ∀ block ∈ left, block ∈ terms.tree := by
  rcases hleft with rfl | rfl
  · simp
  · exact h.announced

theorem Flight.best_eq (hflight : Flight terms start goal standing intake top)
    (hhost : host.Honours terms) {best : BlockHash}
    (hknows : Forward.Knows host intake best asked) (hfirm : terms.firm) :
    best = terms.best.hash := by
  cases hknows with
  | named hnames => exact hhost.names hnames hfirm
  | kept hknown => exact (hflight.bestHash hfirm).resolve_left hknown

theorem Flight.top_ne_best (hflight : Flight terms start goal standing intake top)
    (hhost : host.Honours terms) {best : BlockHash}
    (hknows : Forward.Knows host intake best asked) (hne : intake.lastHash ≠ best)
    (hfirm : terms.firm) : top ≠ terms.best := by
  intro heq
  apply hne
  rw [hflight.last, heq, hflight.best_eq hhost hknows hfirm]

theorem Flight.offers (hflight : Flight terms start goal standing intake top)
    (hstands : Stands terms standing intake world) (hhost : host.Honours terms) {block : Block}
    {left : Option Block} (hoffers : Forward.Offers host intake block left asked)
    (hopen : intake.exhausted = false) (hmore : terms.firm → top ≠ terms.best) :
    block ∈ terms.tree ∧
      (terms.firm → terms.tree.Child top block → Heading terms start goal block left) ∧
      (terms.firm → ¬ terms.tree.Child top block →
        ∀ height, Arrived terms start goal top (some height)) := by
  have hheading (hfirm : terms.firm) := (hflight.heading hfirm hopen).2
  have hnext := hflight.next
  cases hoffers with
  | announced hhint hheight =>
      have hheightNat : block.height.toNat = top.height.toNat + 1 := by rw [hheight, hnext]
      refine ⟨hstands.announced block hhint, ?_, ?_⟩
      · intro hfirm hchild
        exact (hheading hfirm).take hhint hchild (hmore hfirm)
      · intro hfirm hchild height
        exact (hheading hfirm).stop (hmore hfirm) hhint hheightNat hchild height
  | found hfinds hspares =>
      rcases hhost.finds_height hfinds with ⟨hblock, hheight, hbest⟩
      have hblockNext : block.height.toNat = top.height.toNat + 1 := by rw [hheight, hnext]
      refine ⟨hblock, ?_, ?_⟩
      · intro hfirm hchild
        rcases (hheading hfirm).spares hnext hspares with ⟨hleft, hlater⟩
        refine hleft.follow hchild (hbest hfirm) fun hint hhint => ?_
        rw [hblockNext]
        exact hlater hint hhint
      · intro hfirm hchild height
        rcases (hheading hfirm).spares hnext hspares with ⟨hleft, hlater⟩
        refine hleft.fork (hmore hfirm) ?_ hlater height
        intro other hother hchildOther
        have hsame : other = block := by
          have hheightOther := hchildOther.height
          exact hother.eq_of_height (hbest hfirm) (by omega)
        rw [hsame] at hchildOther
        exact hchild hchildOther

theorem Flight.missing (hflight : Flight terms start goal standing intake top)
    (hhost : host.Honours terms) {left : Option Block} {cause : Halt}
    (hfinds : host.Finds (.byHeight intake.nextHeight) (.error cause))
    (hspares : Forward.Spares intake left) (hopen : intake.exhausted = false)
    (hfirm : terms.firm) (hmore : top ≠ terms.best) (height : UInt64) :
    Arrived terms start goal top (some height) := by
  have hnext := hflight.next
  rcases (hflight.heading hfirm hopen).2.spares hnext hspares with ⟨hleft, hlater⟩
  refine hleft.fork hmore ?_ hlater _
  intro block hbest hchild
  have hheight := hchild.height
  have hle := hbest.height_le
  have hlt := UInt64.lt_iff_toNat_lt.mp (hhost.above_best hfinds hfirm).1
  omega

theorem Flight.takenIn {best : BlockHash} {left : Option Block} {block : Block} {next : UInt64}
    (hflight : Flight terms start goal standing intake top) (hopen : intake.exhausted = false)
    (hbest : terms.firm → best = terms.best.hash) (hchild : terms.tree.Child top block)
    (hheading : terms.firm → Heading terms start goal block left)
    (habove : heightAbove? intake.nextHeight = some next) :
    Flight terms start goal standing
      { intake with
        announced := left
        inFlight := intake.inFlight ++ [block]
        nextHeight := next
        lastHash := block.hash
        bestHash := best } block where
  climb := hflight.climb.snoc hchild
  passed := by
    show terms.tree.Climb standing.serial ((intake.inFlight ++ [block]).take intake.grouped)
      standing.concurrent
    rw [List.take_append_of_le_length hflight.counted]
    exact hflight.passed
  counted := by
    show intake.grouped ≤ (intake.inFlight ++ [block]).length
    rw [List.length_append]
    exact Nat.le_add_right_of_le hflight.counted
  last := rfl
  next := by
    show next.toNat = block.height.toNat + 1
    rw [toNat_heightAbove? habove, hflight.next, hchild.height]
  bestHash hfirm := Or.inr (hbest hfirm)
  heading hfirm _ := ⟨(hflight.heading hfirm hopen).1, hheading hfirm⟩
  arrived _ hexhausted := absurd (hexhausted.symm.trans hopen) (by decide)

theorem Flight.ended {best : BlockHash} {left : Option Block} {fork : Option UInt64}
    (hflight : Flight terms start goal standing intake top)
    (hbest : terms.firm → best = terms.best.hash)
    (harrived : terms.firm → Arrived terms start goal top fork) :
    Flight terms start goal standing
      { intake with announced := left, bestHash := best, exhausted := true, forkAt := fork } top :=
  { hflight with
    bestHash := fun hfirm => Or.inr (hbest hfirm)
    heading := fun _ hexhausted => by cases hexhausted
    arrived := fun hfirm _ => harrived hfirm }

theorem Forward.work_ended {best : BlockHash} {left : Option Block} {fork : Option UInt64}
    (hopen : intake.exhausted = false) :
    work goal top
      { intake with announced := left, bestHash := best, exhausted := true, forkAt := fork } <
      work goal top intake := by
  unfold work pending
  rw [hopen]
  simp

theorem Flight.fetched (hflight : Flight terms start goal standing intake top)
    (hstands : Stands terms standing intake world) (hhost : host.Honours terms)
    (hstep : Forward.FetchStep host intake asked kept) :
    ∃ high, Flight terms start goal standing kept high ∧
      ((kept = intake ∧ high = top ∧ Forward.isStalled intake = true) ∨
        (terms.firm → Forward.work goal high kept < Forward.work goal top intake)) := by
  have htop : top ∈ terms.tree := hflight.climb.high_mem hstands.chronicle.serial_mem
  cases hstep with
  | stalled hstalled => exact ⟨top, hflight, Or.inl ⟨rfl, rfl, hstalled⟩⟩
  | @taken block best left next _ _ hstalled hknows hne hoffers hparent habove =>
      have hopen := Forward.exhausted_of_not_stalled hstalled
      rcases hflight.offers hstands hhost hoffers hopen (hflight.top_ne_best hhost hknows hne) with
        ⟨hblock, hheading, _⟩
      rw [hflight.last] at hparent
      have hchild := (BlockTree.child_iff htop hblock).mpr hparent
      refine ⟨block, hflight.takenIn hopen (hflight.best_eq hhost hknows) hchild
        (fun hfirm => hheading hfirm hchild) habove, Or.inr fun hfirm => ?_⟩
      have hgoal := (hheading hfirm hchild).ahead.height_le
      have hcounted := hflight.counted
      have hheight := hchild.height
      unfold Forward.work Forward.pending
      simp only [List.length_append, List.length_singleton]
      rw [hheight]
      omega
  | caughtUp hstalled hnames =>
      have hopen := Forward.exhausted_of_not_stalled hstalled
      refine ⟨top, hflight.ended (hhost.names hnames) fun hfirm => ?_,
        Or.inr fun _ => Forward.work_ended hopen⟩
      rcases hflight.heading hfirm hopen with ⟨hfork, hheading⟩
      have hsame := hhost.names hnames hfirm
      rw [hflight.last] at hsame
      have heq := BlockTree.eq_of_hash_eq htop (terms.best_mem hfirm) hsame
      subst heq
      rw [hfork]
      exact ⟨rfl, hheading.arrived_best⟩
  | missing hstalled hknows hne hspares hfinds =>
      have hopen := Forward.exhausted_of_not_stalled hstalled
      exact ⟨top, hflight.ended (hflight.best_eq hhost hknows) fun hfirm =>
        hflight.missing hhost hfinds hspares hopen hfirm
          (hflight.top_ne_best hhost hknows hne hfirm) _,
        Or.inr fun _ => Forward.work_ended hopen⟩
  | apart hstalled hknows hne hoffers hparent =>
      have hopen := Forward.exhausted_of_not_stalled hstalled
      rcases hflight.offers hstands hhost hoffers hopen (hflight.top_ne_best hhost hknows hne) with
        ⟨hblock, _, hstop⟩
      rw [hflight.last] at hparent
      exact ⟨top, hflight.ended (hflight.best_eq hhost hknows) fun hfirm =>
        hstop hfirm (fun hchild => hparent hchild.2.2) _,
        Or.inr fun _ => Forward.work_ended hopen⟩

theorem Flight.fetch_halt (hflight : Flight terms start goal standing intake top)
    (hstands : Stands terms standing intake world) (hhost : host.Honours terms)
    (hopen : intake.exhausted = false) {cause : Halt}
    (hhalt : Forward.FetchHalt host intake cause asked kept) : ¬ terms.firm := by
  intro hfirm
  cases hhalt with
  | unnamed hnames => exact hhost.loose_of_names hnames hfirm
  | lost _ _ _ hfinds hother => exact hother (hhost.above_best hfinds hfirm).2
  | overflow hknows hne hoffers hparent habove =>
      rcases hflight.offers hstands hhost hoffers hopen (hflight.top_ne_best hhost hknows hne) with
        ⟨hblock, hheading, _⟩
      have htop : top ∈ terms.tree := hflight.climb.high_mem hstands.chronicle.serial_mem
      rw [hflight.last] at hparent
      have hchild := (BlockTree.child_iff htop hblock).mpr hparent
      have hgoal := (hheading hfirm hchild).ahead.height_le
      have hend := (hheading hfirm hchild).height_le
      have hroom := terms.room hfirm
      have hnext := hflight.next
      have hheight := hchild.height
      exact heightAbove?_ne_none (by omega) habove

theorem Stands.fetchStage (h : Stands terms standing intake world) (hhost : host.Honours terms)
    (hflight : Flight terms start goal standing intake top) :
    (Forward.fetchStage host).Yields world
      (fun _ after => ∃ kept high, Stands terms standing kept after ∧
        Flight terms start goal standing kept high ∧
          ((kept = intake ∧ high = top ∧ Forward.isStalled intake = true) ∨
            (terms.firm → Forward.work goal high kept < Forward.work goal top intake)))
      (Cut terms) := by
  have hquiet {asked : List Entry} (hasked : ∀ entry ∈ asked, entry.isQuestion = true) :
      ∀ entry ∈ asked, entry.IsQuiet := fun entry hentry =>
    Entry.isQuiet_of_isQuestion (hasked entry hentry)
  refine (Forward.fetchStage_yields host world).mono ?_ ?_
  · intro _ after hended
    rcases hended with ⟨asked, kept, hstep, hasks⟩
    rw [h.memory] at hstep
    rcases hflight.fetched h hhost hstep with ⟨high, hkept, hless⟩
    have hsizes := hstep.sizes
    have hremembered := h.remember kept hsizes.1 hsizes.2 (h.announced_left hstep.announced)
    exact ⟨kept, high, hremembered.quietly hhost hasks (hquiet hstep.questions), hkept, hless⟩
  · intro cause after hhalted
    rcases hhalted with ⟨hstalled, asked, kept, hhalt, hasks⟩
    rw [h.memory] at hhalt hstalled
    have hsizes := hhalt.sizes
    have hremembered := h.remember kept hsizes.1 hsizes.2 (h.announced_left hhalt.announced)
    exact ⟨hflight.fetch_halt h hhost (Bool.or_eq_false_iff.mp hstalled).1 hhalt, standing, kept,
      hremembered.quietly hhost hasks (hquiet hhalt.questions)⟩

/-!
# Committing
-/

theorem Forward.Gathers.gathered {table : Table} {track : Track} {blocks : List Block}
    {edits : List Edit} (h : Gathers host table track blocks edits) :
    Gathered host.catalogue table track .apply blocks edits := by
  induction h with
  | none => exact .none
  | more _ hown _ ih => exact .more hown ih

theorem Standing.permits_look {tree : BlockTree} {table : Table} {looked : List Entry}
    {group : List Block} (htable : table = standing.table)
    (hgroup : ∀ block ∈ group, block ∈ tree)
    (hlooked : ∀ entry ∈ looked, Forward.IsLook host table .concurrent group entry) :
    ∀ entry ∈ looked, standing.Permits tree entry := by
  intro entry hentry
  have hlook := hlooked entry hentry
  cases entry with
  | viewed answer => exact .quiet trivial
  | consulted track block direction view =>
      rcases hlook with ⟨rfl, hblock, rfl, hview, _⟩
      exact .consulted (hview.trans htable) (hgroup block hblock)
  | _ => exact hlook.elim

namespace Flight

theorem pending_eq (intake : Intake) :
    Forward.pending intake = (intake.inFlight.drop intake.grouped).length := by
  rw [Forward.pending, List.length_drop]

theorem climb_group (h : Flight terms start goal standing intake top) :
    ∃ high, terms.tree.Climb standing.concurrent (Forward.nextGroup intake) high := by
  have hclimb := h.climb
  rw [← List.take_append_drop intake.grouped intake.inFlight] at hclimb
  rcases hclimb.split with ⟨middle, hlow, hhigh⟩
  rw [h.passed.high_unique hlow]
  rw [← List.take_append_drop (min (Forward.pending intake) intake.groupSize)
    (intake.inFlight.drop intake.grouped)] at hhigh
  rcases hhigh.split with ⟨high, hgroup, _⟩
  exact ⟨high, hgroup⟩

theorem length_nextGroup (intake : Intake) :
    (Forward.nextGroup intake).length = min (Forward.pending intake) intake.groupSize := by
  rw [Forward.nextGroup, List.length_take, ← pending_eq]
  omega

theorem take_nextGroup (intake : Intake) :
    intake.inFlight.take (intake.grouped + (Forward.nextGroup intake).length) =
      intake.inFlight.take intake.grouped ++ Forward.nextGroup intake := by
  rw [length_nextGroup, List.take_add]
  rfl

theorem nextGroup_ne_nil (hgroup : 0 < intake.groupSize)
    (hready : Forward.groupReady intake = true) : Forward.nextGroup intake ≠ [] := by
  intro hempty
  have hlength := length_nextGroup intake
  rw [hempty] at hlength
  simp only [Forward.groupReady, Bool.or_eq_true, decide_eq_true_eq, Bool.and_eq_true] at hready
  simp only [List.length_nil] at hlength
  omega

end Flight

theorem Flight.grouped {high : Block} {group : List Block} {edits : List Edit}
    (hflight : Flight terms start goal standing intake top)
    (hgroup : Forward.nextGroup intake = group)
    (hclimb : terms.tree.Climb standing.concurrent group high) :
    Flight terms start goal (standing.after (.grow group high) edits)
      { intake with grouped := intake.grouped + group.length } top :=
  { hflight with
    passed := by
      subst hgroup
      show terms.tree.Climb standing.serial
        (intake.inFlight.take (intake.grouped + (Forward.nextGroup intake).length)) high
      rw [Flight.take_nextGroup intake]
      exact hflight.passed.append hclimb
    counted := by
      subst hgroup
      have hcounted := hflight.counted
      have hlength := Flight.length_nextGroup intake
      unfold Forward.pending at hlength
      show intake.grouped + (Forward.nextGroup intake).length ≤ intake.inFlight.length
      omega }

theorem Stands.groupStage (h : Stands terms standing intake world) (hhost : host.Honours terms)
    (hflight : Flight terms start goal standing intake top) :
    (Forward.groupStage host).Yields world
      (fun _ after => ∃ next kept, Stands terms next kept after ∧
        Flight terms start goal next kept top ∧
          ((kept = intake ∧ next = standing ∧ Forward.groupReady intake = false) ∨
            Forward.work goal top kept < Forward.work goal top intake))
      (Cut terms) := by
  rcases hflight.climb_group with ⟨high, hclimb⟩
  have hblocks (block : Block) (hblock : block ∈ Forward.nextGroup intake) : block ∈ terms.tree :=
    hclimb.mem hblock
  have hmemory := h.memory
  refine (Forward.groupStage_yields host world).mono ?_ ?_
  · intro _ after hstep
    cases hstep with
    | idle hidle =>
        rw [hmemory] at hidle
        refine ⟨standing, intake, h, hflight, Or.inl ⟨rfl, rfl, ?_⟩⟩
        rcases hidle with hready | hempty
        · exact hready
        · rw [← Bool.not_eq_true]
          intro hready
          exact Flight.nextGroup_ne_nil h.groupSize hready hempty
    | @grouped last edits looked heard hready hlast hgathers hlooked hasks =>
        rw [hmemory] at hready hlast hgathers hlooked
        have hnonempty := Flight.nextGroup_ne_nil h.groupSize hready
        have hlength := Flight.length_nextGroup intake
        have hheard := h.asks hhost hasks (Standing.permits_look h.table hblocks hlooked)
        have hlawful : (Move.grow (Forward.nextGroup intake) high).IsLawful terms.tree standing :=
          hclimb
        rw [h.table] at hgathers
        have hedits := hgathers.gathered
        rw [hhost.catalogue] at hedits
        have hmoved : Stands terms (standing.after (.grow (Forward.nextGroup intake) high) edits)
            intake (heard.landed .concurrent edits high.pointer) := hheard.landed hlawful hedits
        rw [hclimb.getLast?_eq hnonempty] at hlast
        cases hlast
        rw [hmemory]
        refine ⟨_, _, hmoved.remember _ rfl rfl h.announced, hflight.grouped rfl hclimb, Or.inr ?_⟩
        have hcounted := hflight.counted
        have hpositive : 0 < (Forward.nextGroup intake).length := List.length_pos_iff.mpr hnonempty
        unfold Forward.pending at hlength
        unfold Forward.work Forward.pending
        dsimp only
        omega
  · intro cause after hhalt
    cases hhalt with
    | declined hblock hdeclines hlooked hasks =>
        rw [hmemory] at hblock hlooked
        have hconcerns : standing.Concerns terms.tree _ .concurrent .apply := hblocks _ hblock
        rcases h.declined hhost hconcerns (by simp) hdeclines with ⟨hloose, hpermits⟩
        exact ⟨hloose, standing, intake, h.asks hhost hasks (List.forall_mem_append.mpr
          ⟨hpermits, Standing.permits_look h.table hblocks hlooked⟩)⟩
    | refused htakes hlooked hasks =>
        rw [hmemory] at hlooked
        exact ⟨hhost.loose_of_takes htakes, standing, intake,
          h.asks hhost hasks (List.forall_mem_cons.mpr
            ⟨.quiet trivial, Standing.permits_look h.table hblocks hlooked⟩)⟩

theorem Flight.next_serial (hflight : Flight terms start goal standing intake top) {block : Block}
    (hserial : Forward.nextSerial? intake standing.concurrent.pointer = some block) :
    ∃ rest others, intake.inFlight = block :: rest ∧ intake.grouped = others + 1 ∧
      terms.tree.Child standing.serial block ∧ terms.tree.Climb block rest top ∧
      terms.tree.Climb block (rest.take others) standing.concurrent := by
  rcases Forward.nextSerial?_eq_some hserial with ⟨hgrouped, rest, hrest⟩
  rcases Nat.exists_eq_add_of_lt hgrouped with ⟨others, hothers⟩
  rw [Nat.zero_add] at hothers
  have hclimb := hflight.climb
  have hpassed := hflight.passed
  rw [hrest] at hclimb
  rw [hrest, hothers, List.take_succ_cons] at hpassed
  cases hclimb with
  | up hchild hhigh =>
      cases hpassed with
      | up _ hpassed => exact ⟨rest, others, hrest, hothers, hchild, hhigh, hpassed⟩

theorem Stands.serialStage (h : Stands terms standing intake world) (hhost : host.Honours terms)
    (hflight : Flight terms start goal standing intake top)
    (heligible : terms.firm → ∀ block, terms.tree.Below block goal → terms.eligible block) :
    (Forward.serialStage host).Yields world
      (fun _ after => ∃ next kept, Stands terms next kept after ∧
        Flight terms start goal next kept top ∧
          ((kept = intake ∧ next = standing ∧
            Forward.nextSerial? intake standing.concurrent.pointer = none) ∨
            Forward.work goal top kept < Forward.work goal top intake))
      (Cut terms) := by
  have htip : world.frontier.concurrent = standing.concurrent.pointer := by rw [h.frontier]
  have hmemory := h.memory
  refine (Forward.serialStage_yields host world).mono ?_ ?_
  · intro _ after hstep
    cases hstep with
    | idle hnone =>
        rw [hmemory, htip] at hnone
        exact ⟨standing, intake, h, hflight, Or.inl ⟨rfl, rfl, hnone⟩⟩
    | @committed block moved hnext hstepped =>
        rw [hmemory, htip] at hnext
        rcases hflight.next_serial hnext with
          ⟨rest, others, hrest, hothers, hchild, hhigh, hpassed⟩
        have htips : terms.tree.Child (standing.tip .serial) block := hchild
        rcases h.placedOn hhost htips (fun _ => hpassed.isBelow) (List.forall_mem_nil _) hstepped
          with ⟨edits, hmoved⟩
        have hquiet : (Entry.emitted (.indexed block.height)).IsQuiet := trivial
        have hkept := hmoved.remember
          { intake with inFlight := intake.inFlight.tail, grouped := intake.grouped - 1 }
          rfl rfl h.announced
        rw [hmoved.memory]
        refine ⟨_, _, hkept.record _ hquiet, ?_, Or.inr ?_⟩
        · exact { hflight with
            climb := by
              show terms.tree.Climb block intake.inFlight.tail top
              rw [hrest]
              exact hhigh
            passed := by
              show terms.tree.Climb block (intake.inFlight.tail.take (intake.grouped - 1))
                standing.concurrent
              rw [hrest, hothers]
              exact hpassed
            counted := by
              show intake.grouped - 1 ≤ intake.inFlight.tail.length
              rw [List.length_tail]
              exact Nat.sub_le_sub_right hflight.counted 1 }
        · have hcounted := hflight.counted
          unfold Forward.work Forward.pending
          dsimp only
          rw [List.length_tail]
          omega
  · intro cause after hhalt
    cases hhalt with
    | @hindered block _ _ hnext hhinders hasks =>
        rw [hmemory, htip] at hnext
        rcases hflight.next_serial hnext with ⟨_, _, _, _, hchild, hhigh, hpassed⟩
        have hconcerns : standing.Concerns terms.tree block .serial .apply :=
          ⟨hchild, hpassed.isBelow⟩
        rcases h.hindered hhost hconcerns
          (fun hfirm _ _ => heligible hfirm _ (hhigh.isBelow.trans (hflight.below_goal hfirm)))
          rfl hhinders with ⟨hloose, hpermits⟩
        exact ⟨hloose, standing, intake, h.asks hhost hasks hpermits⟩

/-!
# A turn of the run
-/

theorem Forward.grouped_eq_length (hcounted : intake.grouped ≤ intake.inFlight.length)
    (hstalled : isStalled intake = true) (hgroup : groupReady intake = false) :
    intake.grouped = intake.inFlight.length := by
  simp only [groupReady, hstalled, Bool.or_eq_false_iff, decide_eq_false_iff_not,
    Bool.and_true] at hgroup
  unfold pending at hgroup
  omega

theorem Forward.isOver_of_stalled (hwater : 0 < intake.highWater)
    (hstalled : isStalled intake = true) (hnone : intake.inFlight = []) :
    isOver intake = true := by
  cases hopen : intake.exhausted with
  | true =>
      rw [isOver, hopen, hnone]
      rfl
  | false =>
      rw [isStalled, hopen, Bool.false_or, isFull, hnone] at hstalled
      simp only [List.length_nil, decide_eq_true_eq] at hstalled
      omega

theorem Flight.idle (hflight : Flight terms start goal standing intake top)
    (hwater : 0 < intake.highWater) (hstalled : Forward.isStalled intake = true)
    (hgroup : Forward.groupReady intake = false)
    (hserial : Forward.nextSerial? intake standing.concurrent.pointer = none) :
    Forward.isOver intake = true := by
  refine Forward.isOver_of_stalled hwater hstalled ?_
  have hall := Forward.grouped_eq_length hflight.counted hstalled hgroup
  cases hblocks : intake.inFlight with
  | nil => rfl
  | cons block rest =>
      have hlength : intake.inFlight.length = rest.length + 1 := by rw [hblocks]; rfl
      have hpassed := hflight.passed
      rw [hall, List.take_length, hblocks] at hpassed
      have hheight : block.height ≤ standing.concurrent.height := by
        rw [UInt64.le_iff_toNat_le]
        exact ((hpassed.bounds List.mem_cons_self).2).height_le
      rw [Forward.nextSerial?, if_pos (by omega), hblocks] at hserial
      simp [Block.pointer, hheight] at hserial

def Landed (terms : Terms) (start goal : Block) (outcome : Forward.Outcome) (world : World σ) :
    Prop :=
  ∃ standing intake, Stands terms standing intake world ∧
    match outcome with
    | .synced tip => standing.concurrent = standing.serial ∧ tip = standing.serial.pointer ∧
        (terms.firm → standing.serial = terms.best ∧ goal = terms.best)
    | .forked _ => standing.concurrent = standing.serial ∧
        (terms.firm → terms.tree.Below start standing.serial ∧ standing.serial ≠ terms.best ∧
          (standing.serial = goal ∨
            (goal = terms.best ∧ terms.tree.Below standing.serial terms.best)))
    | .stopped tip => tip = standing.serial.pointer ∧ ¬ terms.firm

theorem Stands.finished (h : Stands terms standing intake world)
    (hflight : Flight terms start goal standing intake top)
    (hover : Forward.isOver intake = true) {outcome : Forward.Outcome}
    (hfinishes : Forward.Finishes world outcome after) : Landed terms start goal outcome after := by
  rw [Forward.isOver, Bool.and_eq_true, List.isEmpty_iff] at hover
  have htop : standing.serial = top := by
    have hclimb := hflight.climb
    rw [hover.2] at hclimb
    exact hclimb.eq_nil
  have hlevel : standing.concurrent = standing.serial := by
    have hpassed := hflight.passed
    rw [hover.2, List.take_nil] at hpassed
    exact hpassed.eq_nil.symm
  have harrived (hfirm : terms.firm) := hflight.arrived hfirm hover.1
  rw [← htop] at harrived
  cases hfinishes with
  | forked hfork =>
      rw [h.memory] at hfork
      rw [hfork] at harrived
      exact ⟨standing, intake, h, hlevel, harrived⟩
  | synced hfork =>
      rw [h.memory] at hfork
      rw [hfork] at harrived
      exact ⟨standing, intake, h.emit trivial, hlevel, h.tip .serial, harrived⟩

theorem Forward.work_reset_lt (goal top : Block) (intake : Intake) (tip : Pointer)
    (next : UInt64) : work goal top (reset intake tip next) < Host.enough := by
  have hheight := UInt64.toNat_lt goal.height
  unfold work pending reset Host.enough
  simp only [List.length_nil, Bool.false_eq_true, if_false]
  omega

theorem Flight.begin (hlevel : standing.concurrent = standing.serial) {next : UInt64}
    (hnext : heightAbove? standing.serial.height = some next)
    (hheading : terms.firm → Heading terms start goal standing.serial intake.announced) :
    Flight terms start goal standing (Forward.reset intake standing.serial.pointer next)
      standing.serial where
  climb := .stay standing.serial
  passed := by
    rw [hlevel]
    exact .stay standing.serial
  counted := Nat.le_refl 0
  last := rfl
  next := toNat_heightAbove? hnext
  bestHash _ := Or.inl rfl
  heading hfirm _ := ⟨rfl, hheading hfirm⟩
  arrived _ hexhausted := by cases hexhausted

/-- How much is left to do once the three stages of a turn are over. -/
theorem Flight.work_lt {intake₁ intake₂ intake₃ : Intake} {standing₂ standing₃ : Standing}
    {high : Block} (hflight : Flight terms start goal standing intake top)
    (hwater : 0 < intake.highWater) (hover : Forward.isOver intake = false)
    (hfetch : (intake₁ = intake ∧ high = top ∧ Forward.isStalled intake = true) ∨
      Forward.work goal high intake₁ < Forward.work goal top intake)
    (hgroup : (intake₂ = intake₁ ∧ standing₂ = standing ∧ Forward.groupReady intake₁ = false) ∨
      Forward.work goal high intake₂ < Forward.work goal high intake₁)
    (hserial : (intake₃ = intake₂ ∧ standing₃ = standing₂ ∧
        Forward.nextSerial? intake₂ standing₂.concurrent.pointer = none) ∨
      Forward.work goal high intake₃ < Forward.work goal high intake₂) :
    Forward.work goal high intake₃ < Forward.work goal top intake := by
  rcases hfetch with ⟨rfl, rfl, hstalled⟩ | hfetch
  · rcases hgroup with ⟨rfl, rfl, hready⟩ | hgroup
    · rcases hserial with ⟨rfl, rfl, hnone⟩ | hserial
      · -- A turn in which no stage has done anything would have been over.
        have hidle := hflight.idle hwater hstalled hready hnone
        exact absurd (hidle.symm.trans hover) (by decide)
      · exact hserial
    · rcases hserial with ⟨rfl, rfl, _⟩ | hserial <;> omega
  · rcases hgroup with ⟨rfl, rfl, _⟩ | hgroup <;>
      rcases hserial with ⟨rfl, rfl, _⟩ | hserial <;> omega

theorem Stands.forwardTurn {left : Nat} (h : Stands terms standing intake world)
    (hhost : host.Honours terms) (hflight : Flight terms start goal standing intake top)
    (heligible : terms.firm → ∀ block, terms.tree.Below block goal → terms.eligible block)
    (hover : Forward.isOver intake = false)
    (hleft : terms.firm → Forward.work goal top intake < left + 1) :
    (Forward.turn host ()).Yields world
      (fun result after => result.Is
        (fun _ => ∃ next kept high, Stands terms next kept after ∧
          Flight terms start goal next kept high ∧ Forward.isOver kept = false ∧
            (terms.firm → Forward.work goal high kept < left))
        (Landed terms start goal · after))
      (Cut terms) := by
  refine Forward.turn_of_stages ?_ fun _ => ?_
  · intro hwanted
    refine ⟨standing, intake, h, h.tip .serial, fun hfirm => ?_⟩
    rw [h.going hfirm] at hwanted
    cases hwanted
  · refine (h.fetchStage hhost hflight).imp ?_
    intro _ world₁ hended
    rcases hended with ⟨intake₁, high, hstands₁, hflight₁, hfetch⟩
    refine (hstands₁.groupStage hhost hflight₁).imp ?_
    intro _ world₂ hended
    rcases hended with ⟨standing₂, intake₂, hstands₂, hflight₂, hgroup⟩
    refine (hstands₂.serialStage hhost hflight₂ heligible).imp ?_
    intro _ world₃ hended
    rcases hended with ⟨standing₃, intake₃, hstands₃, hflight₃, hserial⟩
    rw [hstands₃.memory]
    refine ⟨fun hdone => ?_, fun hdone _ _ hfinishes => hstands₃.finished hflight₃ hdone hfinishes⟩
    refine ⟨standing₃, intake₃, high, hstands₃, hflight₃, hdone, fun hfirm => ?_⟩
    have hless := hflight.work_lt h.highWater hover (hfetch.imp_right (· hfirm)) hgroup hserial
    have hbefore := hleft hfirm
    omega

theorem Stands.forward (h : Stands terms standing intake world) (hhost : host.Honours terms)
    (hlevel : standing.concurrent = standing.serial)
    (hheading : terms.firm → Heading terms start goal standing.serial intake.announced)
    (heligible : terms.firm → ∀ block, terms.tree.Below block goal → terms.eligible block) :
    (Forward.run host).Yields world (Landed terms start goal) (Cut terms) := by
  refine Forward.run_of_turns ?_ ?_ ?_
  · intro hapart
    rw [h.frontier] at hapart
    exact absurd (h.pointers_eq_iff.mpr hlevel) hapart
  · intro _ habove
    rw [h.frontier] at habove
    refine ⟨fun hfirm => ?_, standing, intake, h⟩
    have hstart := (hheading hfirm).ahead.height_le
    have hend := (hheading hfirm).height_le
    have hroom := terms.room hfirm
    exact heightAbove?_ne_none (show standing.serial.height.toNat + 1 < _ by omega) habove
  · intro next _ habove
    have hserial : world.frontier.serial = standing.serial.pointer := h.tip .serial
    rw [hserial] at habove
    rw [hserial, h.memory]
    have hready : Stands terms standing (Forward.reset intake standing.serial.pointer next)
        { world with intake := Forward.reset intake standing.serial.pointer next } :=
      h.remember _ rfl rfl h.announced
    refine Act.yields_turns
      (fun left _ world => ∃ standing intake top, Stands terms standing intake world ∧
        Flight terms start goal standing intake top ∧ Forward.isOver intake = false ∧
          (terms.firm → Forward.work goal top intake < left))
      ?_ ?_ ⟨standing, _, standing.serial, hready, .begin hlevel habove hheading, rfl, ?_⟩
    · intro left _ world hkept
      rcases hkept with ⟨standing, intake, top, hstands, hflight, hover, hleft⟩
      exact hstands.forwardTurn hhost hflight heligible hover hleft
    · intro _ world hkept
      rcases hkept with ⟨standing, intake, top, hstands, _, _, hleft⟩
      exact ⟨fun hfirm => absurd (hleft hfirm) (Nat.not_lt_zero _), standing, intake, hstands⟩
    · intro hfirm
      exact Nat.lt_of_lt_of_le (Forward.work_reset_lt _ _ _ _ _) (hhost.patience hfirm)

end

end ChainIndex
