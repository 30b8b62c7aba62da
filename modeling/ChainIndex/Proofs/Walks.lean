import ChainIndex.Proofs.Serving
import ChainIndex.Proofs.SwitchSteps
import Mathlib.Data.List.Perm.Subperm

/-!
# Walks

The walk of a hash is the hash itself, its parent, the parent of that, and so on, down to a
hash whose header is unknown or states no parent.  Of two walks that have a hash in common,
each consists of a branch of its own and of the same trunk, which begins at the first hash
that lies on both.

The search for a common ancestor takes two walks in step, and after any number of turns what
it has seen is an initial part of each.  One of the walks may be far down the trunk by the time
the other one comes to it; still the two meet where the trunk begins, and nothing but the
branch of the new walk is left above it.
-/

namespace ChainIndex

inductive Walk (parent? : BlockHash → Option BlockHash) : BlockHash → List BlockHash → Prop where
  | last {hash : BlockHash} : parent? hash = none → Walk parent? hash [hash]
  | step {hash parent : BlockHash} {rest : List BlockHash} :
      parent? hash = some parent → Walk parent? parent rest → Walk parent? hash (hash :: rest)

namespace Walk

variable {parent? : BlockHash → Option BlockHash} {hash old new : BlockHash}
variable {walk other olds news : List BlockHash}

theorem exists_eq_cons (h : Walk parent? hash walk) : ∃ rest, walk = hash :: rest := by
  cases h with
  | last _ => exact ⟨[], rfl⟩
  | step _ _ => exact ⟨_, rfl⟩

theorem unique (h : Walk parent? hash walk) (h' : Walk parent? hash other) : walk = other := by
  induction h generalizing other with
  | last hnone =>
      cases h' with
      | last _ => rfl
      | step hsome _ => cases hnone.symm.trans hsome
  | step hsome _ ih =>
      cases h' with
      | last hnone => cases hnone.symm.trans hsome
      | step hsome' hrest =>
          cases hsome.symm.trans hsome'
          rw [ih hrest]

theorem rest (h : Walk parent? hash walk) {front back : List BlockHash} {place : BlockHash}
    (hwalk : walk = front ++ place :: back) : Walk parent? place (place :: back) := by
  induction front generalizing hash walk with
  | nil =>
      subst hwalk
      rcases h.exists_eq_cons with ⟨tail, htail⟩
      cases htail
      exact h
  | cons first front ih =>
      subst hwalk
      generalize hwalk : first :: front ++ place :: back = walk at h
      cases h with
      | last _ => simp at hwalk
      | step _ hrest =>
          cases hwalk
          exact ih hrest rfl

theorem nodup (h : Walk parent? hash walk) : walk.Nodup := by
  induction h with
  | last _ => exact List.pairwise_singleton _ _
  | @step hash parent rest hparent hrest ih =>
      refine List.nodup_cons.mpr ⟨fun hmem => ?_, ih⟩
      rcases List.append_of_mem hmem with ⟨front, back, hsplit⟩
      have hsame := (hrest.rest hsplit).unique (step hparent hrest)
      have hlength := congrArg List.length hsame
      rw [hsplit] at hlength
      simp only [List.length_cons, List.length_append] at hlength
      omega

theorem getElem?_succ (h : Walk parent? hash walk) (n : Nat) :
    walk[n + 1]? = walk[n]?.bind parent? := by
  induction h generalizing n with
  | last hnone =>
      cases n with
      | zero => exact hnone.symm
      | succ n => rfl
  | step hparent hrest ih =>
      cases n with
      | zero =>
          rcases hrest.exists_eq_cons with ⟨tail, rfl⟩
          exact hparent.symm
      | succ n => exact ih n

end Walk

/-!
# Two walks
-/

/-- Two walks that have a hash in common: two branches and the trunk below them. -/
structure Fork (olds news left right trunk : List BlockHash) (ancestor : BlockHash) : Prop where
  old : olds = left ++ ancestor :: trunk
  new : news = right ++ ancestor :: trunk
  left : ∀ hash ∈ left, hash ∉ news
  right : ∀ hash ∈ right, hash ∉ olds
  trunk : ancestor ∉ trunk

theorem Walk.exists_fork {parent? : BlockHash → Option BlockHash} {old new hash : BlockHash}
    {olds news : List BlockHash} (hold : Walk parent? old olds) (hnew : Walk parent? new news)
    (holds : hash ∈ olds) (hnews : hash ∈ news) :
    ∃ left right trunk ancestor, Fork olds news left right trunk ancestor := by
  -- The ancestor is the first hash of the new walk that lies on the old one.
  cases hfound : news.find? (· ∈ olds) with
  | none => exact absurd holds (by simpa using List.find?_eq_none.mp hfound hash hnews)
  | some ancestor =>
      rcases List.find?_eq_some_iff_append.mp hfound with ⟨hmem, right, trunk, hright, hfirst⟩
      have hmem : ancestor ∈ olds := by simpa using hmem
      have hfirst : ∀ hash ∈ right, hash ∉ olds := fun hash hhash => by
        simpa using hfirst hash hhash
      rcases List.append_of_mem hmem with ⟨left, back, hleft⟩
      have htrunk := (hold.rest hleft).unique (hnew.rest hright)
      cases htrunk
      have hnodup := hold.nodup
      rw [hleft] at hnodup
      have hapart := List.nodup_append.mp hnodup
      refine ⟨left, right, trunk, ancestor, hleft, hright, ?_, hfirst, ?_⟩
      · intro hash hhash hon
        rw [hright] at hon
        rcases List.mem_append.mp hon with hon | hon
        · exact hfirst hash hon (hleft ▸ List.mem_append_left _ hhash)
        · exact hapart.2.2 hash hhash hash hon rfl
      · exact (List.nodup_cons.mp hapart.2.1).1

namespace Fork

variable {olds news left right trunk : List BlockHash} {ancestor : BlockHash}

theorem find?_branch {branch other : List BlockHash} (hbranch : ∀ hash ∈ branch, hash ∉ other)
    (hancestor : ancestor ∈ other) :
    (branch ++ ancestor :: trunk).find? (· ∈ other) = some ancestor := by
  have hnone : branch.find? (· ∈ other) = none :=
    List.find?_eq_none.mpr fun hash hhash => by simpa using hbranch hash hhash
  rw [List.find?_append, hnone, Option.none_or]
  exact List.find?_cons_of_pos (by simpa using hancestor)

theorem find?_news (h : Fork olds news left right trunk ancestor) :
    news.find? (· ∈ olds) = some ancestor := by
  rw [h.new]
  exact find?_branch h.right (by rw [h.old]; simp)

theorem find?_olds (h : Fork olds news left right trunk ancestor) :
    olds.find? (· ∈ news) = some ancestor := by
  rw [h.old]
  exact find?_branch h.left (by rw [h.new]; simp)

theorem takeWhile_news (h : Fork olds news left right trunk ancestor) :
    news.takeWhile (· ≠ ancestor) = right := by
  have hright : ∀ hash ∈ right, hash ≠ ancestor := by
    intro hash hhash heq
    subst heq
    exact h.right hash hhash (by rw [h.old]; simp)
  rw [h.new, List.takeWhile_append_of_pos fun hash hhash => by simpa using hright hash hhash]
  simp

theorem right_eq_nil_iff (h : Fork olds news left right trunk ancestor)
    {parent? : BlockHash → Option BlockHash} {new : BlockHash} (hnew : Walk parent? new news) :
    right = [] ↔ ancestor = new := by
  rcases hnew.exists_eq_cons with ⟨rest, hrest⟩
  have hfirst := hrest.symm.trans h.new
  constructor
  · intro hempty
    rw [hempty] at hfirst
    exact (List.cons.inj hfirst).1.symm
  · intro hsame
    cases right with
    | nil => rfl
    | cons first branch =>
        have hnotOld := h.right first List.mem_cons_self
        rw [← (List.cons.inj hfirst).1, ← hsame, h.old] at hnotOld
        exact absurd (by simp) hnotOld

end Fork

/-!
# The search
-/

namespace Ancestry

def after (olds news : List BlockHash) (turns : Nat) : Walks :=
  ⟨olds[turns]?, news[turns]?, (olds.take (turns + 1)).reverse, (news.take (turns + 1)).reverse⟩

section

variable {olds news left right trunk : List BlockHash} {ancestor : BlockHash} {turns : Nat}

theorem mem_take_of_getElem? {walk : List BlockHash} {hash : BlockHash}
    (h : walk[turns]? = some hash) : hash ∈ walk.take (turns + 1) := by
  rw [List.take_add_one, h]
  simp

theorem meeting?_after_eq_none
    (hapart : ∀ hash ∈ olds.take (turns + 1), hash ∉ news.take (turns + 1)) :
    meeting? (after olds news turns) = none := by
  cases hmeeting : meeting? (after olds news turns) with
  | none => rfl
  | some hash =>
      rcases meeting?_eq_some hmeeting with ⟨hplace, hseen⟩ | ⟨hplace, hseen⟩
      · exact absurd (mem_take_of_getElem? hplace) (hapart hash (List.mem_reverse.mp hseen))
      · exact absurd (List.mem_reverse.mp hseen) (hapart hash (mem_take_of_getElem? hplace))

theorem apart_of_lt (h : Fork olds news left right trunk ancestor)
    (hturns : turns < max left.length right.length) :
    ∀ hash ∈ olds.take (turns + 1), hash ∉ news.take (turns + 1) := by
  intro hash hold hnew
  have hbranch : turns < left.length ∨ turns < right.length := by omega
  rcases hbranch with hleft | hright
  · rw [h.old, List.take_append_of_le_length hleft] at hold
    exact h.left hash (List.mem_of_mem_take hold) (List.mem_of_mem_take hnew)
  · rw [h.new, List.take_append_of_le_length hright] at hnew
    exact h.right hash (List.mem_of_mem_take hnew) (List.mem_of_mem_take hold)

theorem mem_take_append {front : List BlockHash} (h : front.length ≤ turns) :
    ancestor ∈ (front ++ ancestor :: trunk).take (turns + 1) := by
  rw [List.take_append, List.mem_append]
  right
  obtain ⟨n, hn⟩ : ∃ n, turns + 1 - front.length = n + 1 := ⟨turns - front.length, by omega⟩
  rw [hn, List.take_succ_cons]
  exact List.mem_cons_self

theorem getElem?_append_at {front : List BlockHash} (h : turns = front.length) :
    (front ++ ancestor :: trunk)[turns]? = some ancestor := by
  rw [List.getElem?_append_right (Nat.le_of_eq h.symm), h, Nat.sub_self]
  rfl

theorem filter_ahead (h : Fork olds news left right trunk ancestor)
    (hlater : right.length < left.length) (hturns : turns = left.length) :
    news[turns]?.filter ((olds.take (turns + 1)).reverse.contains ·) = none := by
  rw [Option.filter_eq_none_iff]
  intro hash hhash hseen
  rw [h.new, List.getElem?_append_right (by omega)] at hhash
  obtain ⟨n, hn⟩ : ∃ n, turns - right.length = n + 1 := ⟨turns - right.length - 1, by omega⟩
  rw [hn, List.getElem?_cons_succ] at hhash
  have htrunk := List.mem_of_getElem? hhash
  have hseen : hash ∈ olds.take (turns + 1) := by simpa using hseen
  rw [h.old, List.take_append, List.mem_append] at hseen
  rcases hseen with hseen | hseen
  · exact h.left hash (List.mem_of_mem_take hseen) (by rw [h.new]; simp [htrunk])
  · rw [show turns + 1 - left.length = 1 by omega, List.take_succ_cons, List.take_zero,
      List.mem_singleton] at hseen
    exact h.trunk (hseen ▸ htrunk)

theorem meeting?_after_eq_some (h : Fork olds news left right trunk ancestor)
    (hturns : turns = max left.length right.length) :
    meeting? (after olds news turns) = some ancestor := by
  unfold meeting? after
  by_cases hlater : left.length ≤ right.length
  · have holdSeen : ancestor ∈ olds.take (turns + 1) := by
      rw [h.old]
      exact mem_take_append (by omega)
    have hplace : news[turns]? = some ancestor := by
      rw [h.new]
      exact getElem?_append_at (by omega)
    rw [hplace, Option.filter_some, if_pos (by simpa using holdSeen)]
  · have hnewSeen : ancestor ∈ news.take (turns + 1) := by
      rw [h.new]
      exact mem_take_append (by omega)
    have hplace : olds[turns]? = some ancestor := by
      rw [h.old]
      exact getElem?_append_at (by omega)
    rw [filter_ahead h (by omega) (by omega), hplace, Option.filter_some,
      if_pos (by simpa using hnewSeen)]

theorem above_append {front branch : List BlockHash} (hfront : ancestor ∉ front) :
    above ancestor (front ++ ancestor :: branch) = some branch := by
  have hne : ∀ hash ∈ front, hash ≠ ancestor := by
    intro hash hhash heq
    exact hfront (heq ▸ hhash)
  unfold above
  rw [List.dropWhile_append_of_pos fun hash hhash => by simpa using hne hash hhash]
  simp

theorem above_after (h : Fork olds news left right trunk ancestor)
    (hturns : turns = max left.length right.length) :
    above ancestor (after olds news turns).newSeen = some right.reverse := by
  obtain ⟨n, hn⟩ : ∃ n, turns + 1 - right.length = n + 1 := ⟨turns - right.length, by omega⟩
  have hseen : (after olds news turns).newSeen =
      (trunk.take n).reverse ++ ancestor :: right.reverse := by
    show (news.take (turns + 1)).reverse = _
    rw [h.new, List.take_append, List.take_of_length_le (by omega), hn, List.take_succ_cons]
    simp
  rw [hseen]
  exact above_append fun hmem => h.trunk (List.mem_of_mem_take (List.mem_reverse.mp hmem))

end

end Ancestry

/-- Of this hash the host tells no parent but the one given, which need not exist. -/
def Host.States (host : Host σ) (parent? : BlockHash → Option BlockHash) (hash : BlockHash) :
    Prop :=
  ∀ outside, match (host.headerOf hash outside).answer with
    | .ok header => header.parent = parent? hash
    | .error cause => parent? hash = none ∧ ∃ what, cause = .fault (.notFound what)

section

variable {host : Host σ} {start world : World σ} {parent? : BlockHash → Option BlockHash}

theorem Lull.parentOf_stated (h : Lull host start world) {hash : BlockHash}
    (hstates : host.States parent? hash) :
    (Act.parentOf host hash).Yields world
      (fun found after => Lull host start after ∧ found = parent? hash) (fun _ _ => False) := by
  rcases h with ⟨asked, h⟩
  refine (h.parentOf hash).mono ?_ ?_
  · intro found after hended
    rcases hended with ⟨answer, hfound, hafter, outside, hanswer⟩
    have hparent := hstates outside
    rw [hanswer] at hparent
    refine ⟨hafter.lull, ?_⟩
    cases hfound with
    | given header => exact hparent
    | missing what => exact hparent.1.symm
  · intro cause after hhalted
    rcases hhalted with ⟨hother, _, outside, hanswer⟩
    have hparent := hstates outside
    rw [hanswer] at hparent
    exact hother hparent.2

theorem Lull.descend_stated (h : Lull host start world) {place : Option BlockHash}
    (hstates : ∀ hash ∈ place, host.States parent? hash) :
    (Ancestry.descend host place).Yields world
      (fun found after => Lull host start after ∧ found = place.bind parent?)
      (fun _ _ => False) := by
  cases place with
  | none => exact ⟨h, rfl⟩
  | some hash => exact h.parentOf_stated (hstates hash rfl)

namespace Ancestry

variable {old new : BlockHash} {olds news left right trunk : List BlockHash}
variable {ancestor : BlockHash} {turns : Nat}

theorem begin_eq_after (hold : Walk parent? old olds) (hnew : Walk parent? new news) :
    begin old new = after olds news 0 := by
  rcases hold.exists_eq_cons with ⟨_, rfl⟩
  rcases hnew.exists_eq_cons with ⟨_, rfl⟩
  rfl

theorem seen_succ (walk : List BlockHash) (turns : Nat) :
    walk[turns + 1]?.toList ++ (walk.take (turns + 1)).reverse =
      (walk.take (turns + 1 + 1)).reverse := by
  have hnext : walk.take (turns + 1 + 1) = walk.take (turns + 1) ++ walk[turns + 1]?.toList :=
    List.take_add_one
  rw [hnext, List.reverse_append]
  cases walk[turns + 1]? <;> rfl

theorem turn_after (hold : Walk parent? old olds) (hnew : Walk parent? new news)
    (hstates : ∀ hash, hash ∈ olds ∨ hash ∈ news → host.States parent? hash)
    (h : Lull host start world) (hnone : meeting? (after olds news turns) = none)
    (hturns : turns < max olds.length news.length) :
    (turn host old new (after olds news turns)).Yields world
      (fun result world => result.Is (fun walks => walks = after olds news (turns + 1) ∧
        Lull host start world) fun _ => False)
      (fun _ _ => False) := by
  refine turn_of_parts ?_ ?_ fun _ _ => ?_
  · intro ancestor hmeeting
    cases hnone.symm.trans hmeeting
  · intro _ holdEnds hnewEnds
    have holds := List.getElem?_eq_none_iff.mp holdEnds
    have hnews := List.getElem?_eq_none_iff.mp hnewEnds
    omega
  · refine (h.descend_stated fun hash hhash =>
      hstates hash (Or.inl (List.mem_of_getElem? hhash))).imp ?_
    intro oldAt middle hended
    rcases hended with ⟨hmiddle, rfl⟩
    refine (hmiddle.descend_stated fun hash hhash =>
      hstates hash (Or.inr (List.mem_of_getElem? hhash))).imp ?_
    intro newAt last hended
    rcases hended with ⟨hlast, rfl⟩
    refine ⟨?_, hlast⟩
    show Walks.mk (olds[turns]?.bind parent?) (news[turns]?.bind parent?)
      ((olds[turns]?.bind parent?).toList ++ (olds.take (turns + 1)).reverse)
      ((news[turns]?.bind parent?).toList ++ (news.take (turns + 1)).reverse) = _
    rw [← hold.getElem?_succ, ← hnew.getElem?_succ, seen_succ, seen_succ]
    rfl

/-- Two walks with a hash in common lead to the switch over the first one of them. -/
theorem find_of_fork (hold : Walk parent? old olds) (hnew : Walk parent? new news)
    (hstates : ∀ hash, hash ∈ olds ∨ hash ∈ news → host.States parent? hash)
    (hpatience : max olds.length news.length < host.patience)
    (hfork : Fork olds news left right trunk ancestor) (world : World σ) :
    (find host old new).Yields world
      (fun switch after => Lull host world after ∧ switch = ⟨ancestor, old, right.reverse⟩)
      (fun _ _ => False) := by
  have hshort : max left.length right.length < max olds.length news.length := by
    rw [hfork.old, hfork.new]
    simp only [List.length_append, List.length_cons]
    omega
  refine Act.yields_turns
    (fun allowed walks now => Lull host world now ∧ ∃ turns, walks = after olds news turns ∧
      turns ≤ max left.length right.length ∧ allowed + turns = host.patience)
    ?_ ?_ ⟨.refl host world, 0, begin_eq_after hold hnew, Nat.zero_le _, rfl⟩
  · intro allowed walks now hkept
    rcases hkept with ⟨hlull, turns, rfl, hturns, hallowed⟩
    by_cases hlast : turns = max left.length right.length
    · have hmeets := meeting?_after_eq_some hfork hlast
      refine turn_of_parts ?_ ?_ ?_
      · intro found hmeeting
        cases hmeets.symm.trans hmeeting
        rw [above_after hfork hlast]
        exact ⟨hlull, rfl⟩
      · intro hnone
        cases hmeets.symm.trans hnone
      · intro hnone
        cases hmeets.symm.trans hnone
    · have hless : turns < max left.length right.length := by omega
      refine (turn_after hold hnew hstates hlull
        (meeting?_after_eq_none (apart_of_lt hfork hless)) (by omega)).imp ?_
      intro result next hresult
      cases result with
      | done switch => exact hresult.elim
      | again walks =>
          rcases hresult with ⟨rfl, hnext⟩
          exact ⟨hnext, turns + 1, rfl, hless, by omega⟩
  · intro walks now hkept
    rcases hkept with ⟨_, turns, _, hturns, hallowed⟩
    omega

/-- Two walks with no hash in common lead nowhere. -/
theorem find_of_apart (hold : Walk parent? old olds) (hnew : Walk parent? new news)
    (hstates : ∀ hash, hash ∈ olds ∨ hash ∈ news → host.States parent? hash)
    (hpatience : max olds.length news.length < host.patience)
    (hapart : ∀ hash ∈ olds, hash ∉ news) (world : World σ) :
    (find host old new).Yields world (fun _ _ => False)
      (fun cause after => Lull host world after ∧
        cause = .fault (.noCommonAncestor old new)) := by
  have hnone (turns : Nat) : meeting? (after olds news turns) = none :=
    meeting?_after_eq_none fun hash hleft hright =>
      hapart hash (List.mem_of_mem_take hleft) (List.mem_of_mem_take hright)
  refine Act.yields_turns
    (fun allowed walks now => Lull host world now ∧ ∃ turns, walks = after olds news turns ∧
      turns ≤ max olds.length news.length ∧ allowed + turns = host.patience)
    ?_ ?_ ⟨.refl host world, 0, begin_eq_after hold hnew, Nat.zero_le _, rfl⟩
  · intro allowed walks now hkept
    rcases hkept with ⟨hlull, turns, rfl, hturns, hallowed⟩
    by_cases hlast : turns = max olds.length news.length
    · have holdEnds : olds[turns]? = none := List.getElem?_eq_none_iff.mpr (by omega)
      have hnewEnds : news[turns]? = none := List.getElem?_eq_none_iff.mpr (by omega)
      refine turn_of_parts ?_ (fun _ _ _ => ⟨hlull, rfl⟩) ?_
      · intro ancestor hmeeting
        cases (hnone turns).symm.trans hmeeting
      · intro _ hgoing
        exact absurd ⟨holdEnds, hnewEnds⟩ hgoing
    · refine (turn_after hold hnew hstates hlull (hnone turns) (by omega)).mono ?_
        fun _ _ hnever => hnever.elim
      intro result next hresult
      cases result with
      | done switch => exact hresult.elim
      | again walks =>
          rcases hresult with ⟨rfl, hnext⟩
          exact ⟨hnext, turns + 1, rfl, by omega, by omega⟩
  · intro walks now hkept
    rcases hkept with ⟨_, turns, _, hturns, hallowed⟩
    omega

end Ancestry

end

/-!
# Header maps

Finitely many headers are known.  A hash from which no cycle of parents can be reached has a
walk, which is no longer than the known headers and one more hash.
-/

structure HeaderMap where
  header? : BlockHash → Option Header
  /-- The hashes of the known headers. -/
  known : List BlockHash
  mem_known {hash : BlockHash} {header : Header} : header? hash = some header → hash ∈ known

namespace HeaderMap

def parent? (map : HeaderMap) (hash : BlockHash) : Option BlockHash :=
  (map.header? hash).bind Header.parent

def Parent (map : HeaderMap) (hash parent : BlockHash) : Prop :=
  map.parent? hash = some parent

def AcyclicFrom (map : HeaderMap) (hash : BlockHash) : Prop :=
  ∀ place, Relation.ReflTransGen map.Parent hash place →
    ¬ Relation.TransGen map.Parent place place

variable {map : HeaderMap}

theorem AcyclicFrom.down {hash parent : BlockHash} (h : map.AcyclicFrom hash)
    (hparent : map.Parent hash parent) : map.AcyclicFrom parent :=
  fun place hplace => h place (.head hparent hplace)

theorem AcyclicFrom.of_rank (rank : BlockHash → Nat)
    (hrank : ∀ hash parent, map.Parent hash parent → rank parent < rank hash)
    (hash : BlockHash) : map.AcyclicFrom hash := by
  have hfalls {high low : BlockHash} (h : Relation.TransGen map.Parent high low) :
      rank low < rank high := by
    induction h with
    | single hparent => exact hrank _ _ hparent
    | tail _ hparent ih => exact Nat.lt_trans (hrank _ _ hparent) ih
  exact fun place _ hcycle => Nat.lt_irrefl _ (hfalls hcycle)

theorem mem_known_of_parent {hash parent : BlockHash} (h : map.Parent hash parent) :
    hash ∈ map.known := by
  rcases Option.bind_eq_some_iff.mp h with ⟨header, hheader, _⟩
  exact map.mem_known hheader

/-- The hashes passed on the way to a hash are known and differ, which bounds their number. -/
theorem AcyclicFrom.exists_walk_after {hash : BlockHash} (h : map.AcyclicFrom hash)
    (passed : List BlockHash) (hdistinct : passed.Nodup)
    (hknown : ∀ place ∈ passed, place ∈ map.known)
    (hpassed : ∀ place ∈ passed, Relation.TransGen map.Parent place hash) :
    ∃ walk, Walk map.parent? hash walk ∧
      walk.length + passed.length ≤ map.known.length + 1 := by
  have hbound : passed.length ≤ map.known.length := (hdistinct.subperm hknown).length_le
  cases hparent : map.parent? hash with
  | none =>
      refine ⟨[hash], .last hparent, ?_⟩
      rw [List.length_singleton]
      omega
  | some parent =>
      have hnew : hash ∉ passed := fun hmem => h hash .refl (hpassed hash hmem)
      have hmore : (hash :: passed).Nodup := List.nodup_cons.mpr ⟨hnew, hdistinct⟩
      have hall : ∀ place ∈ hash :: passed, place ∈ map.known :=
        List.forall_mem_cons.mpr ⟨mem_known_of_parent hparent, hknown⟩
      have hless : (hash :: passed).length ≤ map.known.length := (hmore.subperm hall).length_le
      have hbefore : ∀ place ∈ hash :: passed, Relation.TransGen map.Parent place parent :=
        List.forall_mem_cons.mpr
          ⟨.single hparent, fun place hplace => (hpassed place hplace).tail hparent⟩
      rcases (h.down hparent).exists_walk_after (hash :: passed) hmore hall hbefore with
        ⟨walk, hwalk, hlength⟩
      refine ⟨hash :: walk, .step hparent hwalk, ?_⟩
      rw [List.length_cons] at hlength ⊢
      omega
termination_by map.known.length - passed.length
decreasing_by
  rw [List.length_cons] at hless ⊢
  omega

theorem AcyclicFrom.exists_walk {hash : BlockHash} (h : map.AcyclicFrom hash) :
    ∃ walk, Walk map.parent? hash walk ∧ walk.length ≤ map.known.length + 1 :=
  h.exists_walk_after [] List.nodup_nil (by simp) (by simp)

end HeaderMap

/-- The host tells of the headers in the map and of no others. -/
def Host.Shows (host : Host σ) (map : HeaderMap) : Prop :=
  ∀ hash outside, match map.header? hash with
    | some header => (host.headerOf hash outside).answer = .ok header
    | none => ∃ what, (host.headerOf hash outside).answer = .error (.fault (.notFound what))

theorem Host.Shows.states {host : Host σ} {map : HeaderMap} (h : host.Shows map)
    (hash : BlockHash) : host.States map.parent? hash := by
  intro outside
  have hanswer := h hash outside
  unfold HeaderMap.parent?
  cases hheader : map.header? hash with
  | some header =>
      rw [hheader] at hanswer
      dsimp only at hanswer
      rw [hanswer]
      rfl
  | none =>
      rw [hheader] at hanswer
      rcases hanswer with ⟨what, hanswer⟩
      rw [hanswer]
      exact ⟨rfl, what, rfl⟩

/-- The search for the common ancestor of two hashes comes to its end.  It finds a switch where
the walks of the two have a hash in common: over the first such hash, which is the same from
either side, and then up the part of the new walk above it.  Otherwise it fails and says so. -/
theorem ancestor_search_is_exact {map : HeaderMap} {host : Host σ} {old new : BlockHash}
    (hhost : host.Shows map) (hold : map.AcyclicFrom old) (hnew : map.AcyclicFrom new)
    (hpatience : map.known.length + 1 < host.patience) (world : World σ) :
    ∃ olds news, Walk map.parent? old olds ∧ Walk map.parent? new news ∧
      ((∃ switch, ((Ancestry.find host old new).perform world).1 = .ok switch) ↔
        ∃ hash ∈ olds, hash ∈ news) ∧
      (∀ switch, ((Ancestry.find host old new).perform world).1 = .ok switch →
        news.find? (· ∈ olds) = some switch.ancestor ∧
        olds.find? (· ∈ news) = some switch.ancestor ∧
        switch.leaving = old ∧
        switch.chain = (news.takeWhile (· ≠ switch.ancestor)).reverse ∧
        (switch.chain = [] ↔ switch.ancestor = new)) ∧
      ∀ cause, ((Ancestry.find host old new).perform world).1 = .error cause →
        cause = .fault (.noCommonAncestor old new) := by
  rcases hold.exists_walk with ⟨olds, holds, holdLength⟩
  rcases hnew.exists_walk with ⟨news, hnews, hnewLength⟩
  have hstates : ∀ hash, hash ∈ olds ∨ hash ∈ news → host.States map.parent? hash :=
    fun hash _ => hhost.states hash
  have henough : max olds.length news.length < host.patience := by omega
  refine ⟨olds, news, holds, hnews, ?_⟩
  by_cases hshared : ∃ hash ∈ olds, hash ∈ news
  · rcases hshared with ⟨hash, hleft, hright⟩
    rcases holds.exists_fork hnews hleft hright with ⟨left, right, trunk, ancestor, hfork⟩
    rcases (Ancestry.find_of_fork holds hnews hstates henough hfork world).exists_ok with
      ⟨switch, after, hfound, _, rfl⟩
    rw [hfound]
    refine ⟨⟨fun _ => ⟨hash, hleft, hright⟩, fun _ => ⟨_, rfl⟩⟩, ?_, ?_⟩
    · intro switch hswitch
      cases hswitch
      refine ⟨hfork.find?_news, hfork.find?_olds, rfl, ?_, ?_⟩
      · rw [hfork.takeWhile_news]
      · rw [List.reverse_eq_nil_iff]
        exact hfork.right_eq_nil_iff hnews
    · intro cause hcause
      cases hcause
  · have hapart : ∀ hash ∈ olds, hash ∉ news := fun hash hleft hright =>
      hshared ⟨hash, hleft, hright⟩
    rcases (Ancestry.find_of_apart holds hnews hstates henough hapart world).exists_error with
      ⟨cause, after, hfailed, _, rfl⟩
    rw [hfailed]
    refine ⟨⟨?_, fun h => absurd h hshared⟩, ?_, ?_⟩
    · rintro ⟨switch, hswitch⟩
      cases hswitch
    · intro switch hswitch
      cases hswitch
    · intro cause hcause
      cases hcause
      rfl

/-!
# The headers of a chain held in memory
-/

def Chain.headerMap (chain : Chain) : HeaderMap where
  header? hash := (chain.find? hash).map Block.header
  known := chain.blocks.map Block.hash
  mem_known := by
    intro hash header hheader
    rcases Option.map_eq_some_iff.mp hheader with ⟨block, hblock, _⟩
    have hmem := List.mem_of_find?_eq_some hblock
    exact List.mem_map.mpr ⟨block, hmem, Chain.hash_of_find? hblock⟩

theorem Chain.shows (chain : Chain) (catalogue : Catalogue) :
    (chain.host catalogue).Shows chain.headerMap := by
  intro hash outside
  show match (chain.find? hash).map Block.header with
    | some header => ofFault (chain.headerOf hash) = .ok header
    | none => ∃ what, ofFault (chain.headerOf hash) = .error (.fault (.notFound what))
  unfold Chain.headerOf
  cases chain.find? hash with
  | some block => rfl
  | none => exact ⟨_, rfl⟩

theorem Sample.acyclicFrom (hash : BlockHash) : Sample.chain.headerMap.AcyclicFrom hash := by
  refine .of_rank (fun hash => ((Sample.chain.find? hash).map (·.height.toNat)).getD 0) ?_ hash
  intro hash parent hparent
  rcases Option.bind_eq_some_iff.mp hparent with ⟨header, hheader, hnamed⟩
  rcases Option.map_eq_some_iff.mp hheader with ⟨block, hblock, rfl⟩
  have hfalls : ∀ block ∈ Sample.chain.blocks, ∀ parent ∈ block.parent,
      ((Sample.chain.find? parent).map (·.height.toNat)).getD 0 < block.height.toNat := by
    decide
  have hless := hfalls block (List.mem_of_find?_eq_some hblock) parent hnamed
  show _ < ((Sample.chain.find? hash).map (·.height.toNat)).getD 0
  rw [hblock]
  exact hless

/-- From the end of the best chain over the genesis to the block beside it.  The walk of that
block is the shorter one, and it has come to its end before the ancestor is found. -/
theorem ancestor_search_is_exact_of_sample :
    Sample.host.Shows Sample.chain.headerMap ∧
    Sample.chain.headerMap.AcyclicFrom "b" ∧ Sample.chain.headerMap.AcyclicFrom "x" ∧
    Sample.chain.headerMap.known.length + 1 < Sample.host.patience ∧
    ∃ switch, ((Ancestry.find Sample.host "b" "x").perform Sample.blank).1 = .ok switch ∧
      switch = ⟨"g", "b", ["x"]⟩ := by
  have hshows := Sample.chain.shows Sample.catalogue
  have hold := Sample.acyclicFrom "b"
  have hnew := Sample.acyclicFrom "x"
  have hpatience : Sample.chain.headerMap.known.length + 1 < Sample.host.patience := by decide
  refine ⟨hshows, hold, hnew, hpatience, ?_⟩
  have holds : Walk Sample.chain.headerMap.parent? "b" ["b", "a", "g"] :=
    .step rfl (.step rfl (.last rfl))
  have hnews : Walk Sample.chain.headerMap.parent? "x" ["x", "g"] := .step rfl (.last rfl)
  rcases ancestor_search_is_exact hshows hold hnew hpatience Sample.blank with
    ⟨olds, news, holds', hnews', hends, hfound, _⟩
  cases holds'.unique holds
  cases hnews'.unique hnews
  rcases hends.mpr ⟨"g", by decide, by decide⟩ with ⟨switch, hswitch⟩
  rcases hfound switch hswitch with ⟨hancestor, _, hleaving, hchain, _⟩
  refine ⟨switch, hswitch, ?_⟩
  rcases switch with ⟨ancestor, leaving, chain⟩
  have hplace : ancestor = "g" := by
    have hsame : some "g" = some ancestor := hancestor
    exact (Option.some.inj hsame).symm
  subst hplace
  rw [show leaving = "b" from hleaving, show chain = _ from hchain]
  rfl

end ChainIndex
