import ChainIndex.Proofs.Lulls
import ChainIndex.Proofs.RecordedTips

/-!
# Terms

An indexer and its host are on terms with one another: the host tells of nothing
but the blocks of one tree, and the indexer keeps the table in step with two
blocks of that tree, one for each track.

On loose terms this is all.  Any call may fail, and the best chain may be another
one at every call.  On firm terms no call fails, the best block stays the same,
and certain blocks are to be had by their hash.  What holds of the indexer on
firm terms is stated beside what holds on any terms, since both are shown by the
same walk through its acts.
-/

namespace ChainIndex

structure Terms where
  tree : BlockTree
  catalogue : Catalogue
  firm : Prop
  /-- The blocks whose headers are to be had by their hash. -/
  charted : Block → Prop
  /-- The blocks that are to be had by their hash themselves. -/
  served : Block → Prop
  best : Block
  /-- The blocks that the serial track may come to. -/
  eligible : Block → Prop
  charted_down {parent block : Block} :
    firm → tree.Child parent block → charted block → charted parent
  served_down {parent block : Block} : firm → tree.Child parent block → served block → served parent
  served_charted {block : Block} : firm → served block → charted block
  best_mem : firm → best ∈ tree
  best_served : firm → served best
  eligible_below {block : Block} : firm → tree.Below block best → eligible block
  /-- There is a height above the best one. -/
  room : firm → best.height.toNat + 1 < UInt64.size
  /-- The indexes have edits for every block that they may be asked for. -/
  fluent {course : List Entry} {standing : Standing} {block : Block} {track : Track}
      {direction : Direction} : firm →
    Chronicle tree catalogue course standing → standing.Concerns tree block track direction →
      (track = .serial → direction = .apply → eligible block) →
        ∃ edits, catalogue.edits track block direction (.clear standing.table) = .ok edits

/-- A number of turns that is enough for every loop on firm terms. -/
def Host.enough : Nat := 2 ^ 68

namespace Terms

/-- Nothing is asked of the host beyond the tree. -/
def loose (tree : BlockTree) (catalogue : Catalogue) : Terms where
  tree := tree
  catalogue := catalogue
  firm := False
  charted _ := False
  served _ := False
  best := tree.genesis
  eligible _ := False
  charted_down := False.elim
  served_down := False.elim
  served_charted := False.elim
  best_mem := False.elim
  best_served := False.elim
  eligible_below := False.elim
  room := False.elim
  fluent := False.elim

theorem served_below {terms : Terms} (hfirm : terms.firm) {low high : Block}
    (hbelow : terms.tree.Below low high) (hserved : terms.served high) : terms.served low := by
  induction hbelow with
  | refl => exact hserved
  | tail _ hchild ih => exact ih (terms.served_down hfirm hchild hserved)

theorem charted_below {terms : Terms} (hfirm : terms.firm) {low high : Block}
    (hbelow : terms.tree.Below low high) (hcharted : terms.charted high) : terms.charted low := by
  induction hbelow with
  | refl => exact hcharted
  | tail _ hchild ih => exact ih (terms.charted_down hfirm hchild hcharted)

def Admits (terms : Terms) : Signal → Prop
  | .notify block => block ∈ terms.tree
  | .stop wanted => terms.firm → wanted = false
  | .release => True

end Terms

/-- The answer is of one kind if it is a value and of another if it is none, and the
signals that came before it are admitted. -/
structure Reply.Fits (reply : Reply σ α) (terms : Terms) (given : α → Prop)
    (refused : Halt → Prop) : Prop where
  answer : match reply.answer with
    | .ok a => given a
    | .error cause => refused cause
  signals : ∀ signal ∈ reply.signals, terms.Admits signal

structure Host.Honours (host : Host σ) (terms : Terms) : Prop where
  byHash (hash : BlockHash) (outside : σ) :
    (host.blockAt (.byHash hash) outside).Fits terms
      (fun block => terms.tree.find? hash = some block)
      (fun _ => terms.firm → ∀ block, block.hash = hash → ¬ terms.served block)
  byHeight (height : UInt64) (outside : σ) :
    (host.blockAt (.byHeight height) outside).Fits terms
      (fun block => block ∈ terms.tree ∧ block.height = height ∧
        (terms.firm → terms.tree.Below block terms.best))
      (fun cause => terms.firm → terms.best.height < height ∧
        ∃ what, cause = .fault (.notFound what))
  header (hash : BlockHash) (outside : σ) :
    (host.headerOf hash outside).Fits terms
      (fun header => ∃ block, terms.tree.find? hash = some block ∧ block.header = header)
      (fun _ => terms.firm → ∀ block, block.hash = hash → ¬ terms.charted block)
  bestHash (outside : σ) :
    (host.bestHash outside).Fits terms
      (fun hash => terms.firm → hash = terms.best.hash) (fun _ => ¬ terms.firm)
  accept (edits : List Edit) (outside : σ) :
    (host.accept edits outside).Fits terms (fun _ => True) (fun _ => ¬ terms.firm)
  outages (outside : σ) :
    (host.outages outside).Fits terms
      (fun outages => terms.firm → outages = .none) (fun _ => ¬ terms.firm)
  catalogue : host.catalogue = terms.catalogue
  patience : terms.firm → Host.enough ≤ host.patience

namespace Reply.Fits

variable {terms : Terms} {reply : Reply σ α} {given : α → Prop} {refused : Halt → Prop}

theorem of_ok (h : reply.Fits terms given refused) {a : α} (ha : reply.answer = .ok a) :
    given a := by
  have hanswer := h.answer
  rwa [ha] at hanswer

theorem of_error (h : reply.Fits terms given refused) {cause : Halt}
    (hcause : reply.answer = .error cause) : refused cause := by
  have hanswer := h.answer
  rwa [hcause] at hanswer

end Reply.Fits

namespace Host.Honours

variable {terms : Terms} {host : Host σ} {hash : BlockHash} {height : UInt64} {block : Block}
variable {cause : Halt}

theorem admits (h : host.Honours terms) {signal : Signal} (hsends : host.Sends signal) :
    terms.Admits signal := by
  cases hsends with
  | @block place outside hsignal =>
      cases place with
      | byHash hash => exact (h.byHash hash outside).signals signal hsignal
      | byHeight height => exact (h.byHeight height outside).signals signal hsignal
  | header hsignal => exact (h.header _ _).signals signal hsignal
  | best hsignal => exact (h.bestHash _).signals signal hsignal
  | batch hsignal => exact (h.accept _ _).signals signal hsignal
  | read hsignal => exact (h.outages _).signals signal hsignal

theorem finds_hash (h : host.Honours terms) (hfinds : host.Finds (.byHash hash) (.ok block)) :
    terms.tree.find? hash = some block := by
  rcases hfinds with ⟨outside, hanswer⟩
  exact (h.byHash hash outside).of_ok hanswer

theorem unserved (h : host.Honours terms)
    (hfinds : host.Finds (.byHash block.hash) (.error cause)) (hfirm : terms.firm) :
    ¬ terms.served block := by
  rcases hfinds with ⟨outside, hanswer⟩
  exact (h.byHash block.hash outside).of_error hanswer hfirm block rfl

theorem finds_height (h : host.Honours terms)
    (hfinds : host.Finds (.byHeight height) (.ok block)) :
    block ∈ terms.tree ∧ block.height = height ∧
      (terms.firm → terms.tree.Below block terms.best) := by
  rcases hfinds with ⟨outside, hanswer⟩
  exact (h.byHeight height outside).of_ok hanswer

theorem above_best (h : host.Honours terms)
    (hfinds : host.Finds (.byHeight height) (.error cause)) (hfirm : terms.firm) :
    terms.best.height < height ∧ cause.IsMissing := by
  rcases hfinds with ⟨outside, hanswer⟩
  exact (h.byHeight height outside).of_error hanswer hfirm

theorem tells (h : host.Honours terms) {header : Header} (htells : host.Tells hash (.ok header)) :
    ∃ block, terms.tree.find? hash = some block ∧ block.header = header := by
  rcases htells with ⟨outside, hanswer⟩
  exact (h.header hash outside).of_ok hanswer

theorem uncharted (h : host.Honours terms) (htells : host.Tells block.hash (.error cause))
    (hfirm : terms.firm) : ¬ terms.charted block := by
  rcases htells with ⟨outside, hanswer⟩
  exact (h.header block.hash outside).of_error hanswer hfirm block rfl

theorem names (h : host.Honours terms) (hnames : host.Names (.ok hash)) (hfirm : terms.firm) :
    hash = terms.best.hash := by
  rcases hnames with ⟨outside, hanswer⟩
  exact (h.bestHash outside).of_ok hanswer hfirm

theorem loose_of_names (h : host.Honours terms) (hnames : host.Names (.error cause)) :
    ¬ terms.firm := by
  rcases hnames with ⟨outside, hanswer⟩
  exact (h.bestHash outside).of_error hanswer

theorem loose_of_takes (h : host.Honours terms) {edits : List Edit}
    (htakes : host.Takes edits (.error cause)) : ¬ terms.firm := by
  rcases htakes with ⟨outside, hanswer⟩
  exact (h.accept edits outside).of_error hanswer

theorem reads (h : host.Honours terms) {outages : Outages} (hreads : host.Reads (.ok outages))
    (hfirm : terms.firm) : outages = .none := by
  rcases hreads with ⟨outside, hanswer⟩
  exact (h.outages outside).of_ok hanswer hfirm

theorem loose_of_reads (h : host.Honours terms) (hreads : host.Reads (.error cause)) :
    ¬ terms.firm := by
  rcases hreads with ⟨outside, hanswer⟩
  exact (h.outages outside).of_error hanswer

end Host.Honours

/-!
# Worlds on these terms
-/

structure Settled (terms : Terms) (standing : Standing) (world : World σ) : Prop where
  chronicle : Chronicle terms.tree terms.catalogue world.course standing
  told : standing.owed = none
  table : world.table = standing.table

/-- The indexer's memory agrees with the table, and nothing has been heard of that is
not in the tree. -/
structure Stands (terms : Terms) (standing : Standing) (intake : Intake) (world : World σ) : Prop
    extends Settled terms standing world where
  frontier : world.frontier = ⟨standing.concurrent.pointer, standing.serial.pointer⟩
  memory : world.intake = intake
  groupSize : 0 < intake.groupSize
  highWater : 0 < intake.highWater
  announced : ∀ block ∈ intake.announced, block ∈ terms.tree
  queued : ∀ block ∈ world.inbox.queue, block ∈ terms.tree
  going : terms.firm → world.inbox.stopWanted = false

def Sound (terms : Terms) (world : World σ) : Prop :=
  ∃ standing intake, Stands terms standing intake world

/-- How an act is cut short that has not moved a track: not at all on firm terms. -/
def Stuck (terms : Terms) (standing : Standing) (intake : Intake) (_ : Halt) (world : World σ) :
    Prop :=
  ¬ terms.firm ∧ Stands terms standing intake world

/-- How an act is cut short that may have moved the tracks. -/
def Cut (terms : Terms) (_ : Halt) (world : World σ) : Prop :=
  ¬ terms.firm ∧ Sound terms world

theorem Stuck.cut {terms : Terms} {standing : Standing} {intake : Intake} {cause : Halt}
    {world : World σ} (h : Stuck terms standing intake cause world) : Cut terms cause world :=
  ⟨h.1, standing, intake, h.2⟩

/-!
# Questions on these terms
-/

/-- What may be said in a standing while nothing is done. -/
inductive Standing.Permits (tree : BlockTree) (standing : Standing) : Entry → Prop where
  | quiet {entry : Entry} : entry.IsQuiet → Permits tree standing entry
  | consulted {track : Track} {block : Block} {direction : Direction} {view : View} :
      view.table = standing.table → standing.Concerns tree block track direction →
      Permits tree standing (.consulted track block direction view)

theorem Chronicle.permitted {tree : BlockTree} {catalogue : Catalogue} {course said : List Entry}
    {standing : Standing} (h : Chronicle tree catalogue course standing)
    (htold : standing.owed = none) (hsaid : ∀ entry ∈ said, standing.Permits tree entry) :
    Chronicle tree catalogue (said ++ course) standing := by
  induction said with
  | nil => exact h
  | cons entry rest ih =>
      refine .next (ih fun other hother => hsaid other (List.mem_cons_of_mem _ hother)) ?_
      cases hsaid entry List.mem_cons_self with
      | quiet hquiet => exact .quiet hquiet htold
      | consulted htable hconcerns => exact .consulted htable hconcerns htold

theorem Entry.isQuiet_of_isQuestion {entry : Entry} (h : entry.isQuestion = true) :
    entry.IsQuiet := by
  cases entry <;> trivial

section

variable {terms : Terms} {standing : Standing} {intake : Intake} {world after : World σ}
variable {host : Host σ} {asked : List Entry}

theorem Standing.permits_said {said : List Entry}
    (hasked : ∀ entry ∈ answers said, standing.Permits terms.tree entry) :
    ∀ entry ∈ said, standing.Permits terms.tree entry := by
  intro entry hentry
  rcases mem_answers hentry with hanswer | ⟨signal, rfl⟩
  · exact hasked entry hanswer
  · exact .quiet trivial

theorem Settled.asks (h : Settled terms standing world) (hasks : Asks host asked world after)
    (hasked : ∀ entry ∈ asked, standing.Permits terms.tree entry) :
    Settled terms standing after := by
  rcases hasks.course with ⟨said, hcourse, _, rfl, _⟩
  exact {
    chronicle := hcourse ▸ h.chronicle.permitted h.told (Standing.permits_said hasked)
    told := h.told
    table := hasks.table.trans h.table }

theorem Stands.asks (h : Stands terms standing intake world) (hhost : host.Honours terms)
    (hasks : Asks host asked world after)
    (hasked : ∀ entry ∈ asked, standing.Permits terms.tree entry) :
    Stands terms standing intake after := by
  refine { h.toSettled.asks hasks hasked with
    frontier := hasks.frontier.trans h.frontier
    memory := hasks.intake.trans h.memory
    groupSize := h.groupSize
    highWater := h.highWater
    announced := h.announced
    queued := ?_
    going := ?_ }
  · intro block hblock
    rcases hasks.lull.queued block hblock with hblock | hsends
    · exact h.queued block hblock
    · exact hhost.admits hsends
  · intro hfirm
    rw [← Bool.not_eq_true]
    intro hstop
    rcases hasks.lull.stop hstop with hstop | hsends
    · exact Bool.false_ne_true ((h.going hfirm).symm.trans hstop)
    · exact Bool.false_ne_true (hhost.admits hsends hfirm).symm

end

namespace Stands

variable {terms : Terms} {standing : Standing} {intake : Intake} {world : World σ}

theorem tip (h : Stands terms standing intake world) (track : Track) :
    world.frontier.tip track = (standing.tip track).pointer := by
  rw [h.frontier]
  cases track <;> rfl

theorem tip_mem (h : Stands terms standing intake world) (track : Track) :
    standing.tip track ∈ terms.tree := by
  cases track with
  | concurrent => exact h.chronicle.order.1
  | serial => exact h.chronicle.serial_mem

theorem record (h : Stands terms standing intake world) (entry : Entry) (hquiet : entry.IsQuiet) :
    Stands terms standing intake (world.record entry) :=
  { h with chronicle := .next h.chronicle (.quiet hquiet h.told) }

theorem queued_receive {inbox : Inbox} (h : ∀ block ∈ inbox.queue, block ∈ terms.tree)
    {signal : Signal} (hsignal : terms.Admits signal) :
    ∀ block ∈ (inbox.receive signal).queue, block ∈ terms.tree := by
  intro block hblock
  rcases Inbox.mem_receive hblock with hblock | rfl
  · exact h block hblock
  · exact hsignal

theorem receive (h : Stands terms standing intake world) {signal : Signal}
    (hsignal : terms.Admits signal) : Stands terms standing intake (world.receive signal) := by
  refine { h with
    chronicle := .next h.chronicle (.quiet trivial h.told)
    queued := queued_receive h.queued hsignal
    going := ?_ }
  intro hfirm
  rw [← Bool.not_eq_true]
  intro hstop
  rcases Inbox.stopWanted_receive hstop with hstop | rfl
  · exact Bool.false_ne_true ((h.going hfirm).symm.trans hstop)
  · exact Bool.false_ne_true (hsignal hfirm).symm

end Stands

end ChainIndex
