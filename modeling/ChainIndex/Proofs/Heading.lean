import ChainIndex.Proofs.Terms

/-!
# Where forward sync is heading

On firm terms forward sync climbs from a block of the best chain towards the best
block.  An announced block is taken in if it comes next, so it may lead off the
best chain before its end; then forward sync gets as far as that block and finds
that nothing builds on it.  Any other announced block is on the best chain, or is
passed over, or stops the climb at once.
-/

namespace ChainIndex

/-- The announced block leads off the best chain, below its end and above the start. -/
structure BlockTree.Strays (tree : BlockTree) (best start hint : Block) : Prop where
  off : ¬ tree.Below hint best
  fork : ∃ parent, tree.Child parent hint ∧ tree.Below start parent ∧
    tree.Below parent best ∧ parent ≠ best

/-- Where the climb leads from the newest block in flight. -/
structure Heading (terms : Terms) (start goal top : Block) (announced : Option Block) : Prop where
  begun : terms.tree.Below start top
  ahead : terms.tree.Below top goal
  aim : goal = terms.best ∨ terms.tree.Strays terms.best start goal
  hints : ∀ hint ∈ announced, terms.tree.Strays terms.best start hint → hint = goal
  waiting : goal ≠ terms.best →
    (top ≠ goal ∧ announced = some goal) ∨ (top = goal ∧ announced = none)

/-- Where the climb has ended, at the best block unless a fork has been seen. -/
def Arrived (terms : Terms) (start goal top : Block) : Option UInt64 → Prop
  | none => top = terms.best ∧ goal = terms.best
  | some _ => terms.tree.Below start top ∧ top ≠ terms.best ∧
      (top = goal ∨ (goal = terms.best ∧ terms.tree.Below top terms.best))

namespace BlockTree.Strays

variable {tree : BlockTree} {best start hint : Block}

theorem ne_best (h : tree.Strays best start hint) : hint ≠ best := by
  intro heq
  exact h.off (heq ▸ Below.refl _)

theorem not_best (h : tree.Strays best best hint) : False := by
  rcases h.fork with ⟨parent, _, habove, hbelow, hne⟩
  exact hne (hbelow.antisymm habove)

theorem height_le (h : tree.Strays best start hint) :
    hint.height.toNat ≤ best.height.toNat := by
  rcases h.fork with ⟨parent, hchild, _, hbelow, hne⟩
  have hnext := hchild.height
  by_cases hlow : best.height.toNat ≤ parent.height.toNat
  · exact absurd (hbelow.eq_of_height_le hlow) hne
  · omega

end BlockTree.Strays

namespace Heading

variable {terms : Terms} {start goal top : Block} {announced : Option Block}

theorem toBest (hbelow : terms.tree.Below start terms.best)
    (hannounced : ∀ hint ∈ announced, ¬ terms.tree.Strays terms.best start hint) :
    Heading terms start terms.best start announced := by
  constructor
  · exact BlockTree.Below.refl _
  · exact hbelow
  · exact Or.inl rfl
  · intro hint hhint hstrays
    exact absurd hstrays (hannounced hint hhint)
  · intro hne
    exact absurd rfl hne

theorem toHint {hint : Block} (hstrays : terms.tree.Strays terms.best start hint) :
    Heading terms start hint start (some hint) := by
  rcases hstrays.fork with ⟨parent, hchild, hbegun, hbest, _⟩
  constructor
  · exact BlockTree.Below.refl _
  · exact hbegun.up hchild
  · exact Or.inr hstrays
  · intro other hother _
    exact (Option.some.inj hother).symm
  · intro _
    refine Or.inl ⟨?_, rfl⟩
    intro heq
    subst heq
    exact hstrays.off (hbegun.trans hbest)

theorem height_le (h : Heading terms start goal top announced) :
    goal.height.toNat ≤ terms.best.height.toNat := by
  rcases h.aim with heq | hstrays
  · exact heq ▸ Nat.le_refl _
  · exact hstrays.height_le

theorem below_best (h : Heading terms start goal top announced) (hne : top ≠ goal) :
    ∃ parent, terms.tree.Below top parent ∧ terms.tree.Below parent terms.best ∧
      (goal = terms.best ∨ terms.tree.Child parent goal) := by
  rcases h.aim with heq | hstrays
  · exact ⟨terms.best, heq ▸ h.ahead, BlockTree.Below.refl _, Or.inl heq⟩
  · rcases hstrays.fork with ⟨parent, hchild, _, hbest, _⟩
    exact ⟨parent, h.ahead.down hne hchild, hbest, Or.inr hchild⟩

theorem arrived_best (h : Heading terms start goal terms.best announced) :
    goal = terms.best := by
  rcases h.aim with heq | hstrays
  · exact heq
  · rcases hstrays.fork with ⟨parent, hchild, _, hbest, hne⟩
    have hahead := h.ahead.down hstrays.ne_best.symm hchild
    exact absurd (hbest.antisymm hahead) hne

theorem take (h : Heading terms start goal top announced) {hint : Block}
    (hhint : announced = some hint) (hchild : terms.tree.Child top hint) (hne : top ≠ terms.best) :
    Heading terms start goal hint none := by
  have hahead : terms.tree.Below hint goal := by
    rcases h.aim with heq | hstrays
    · subst heq
      by_cases hbest : terms.tree.Below hint terms.best
      · exact hbest
      · have hleads : terms.tree.Strays terms.best start hint :=
          ⟨hbest, top, hchild, h.begun, h.ahead, hne⟩
        exact absurd (h.hints hint hhint hleads) hleads.ne_best
    · rcases h.waiting hstrays.ne_best with ⟨_, hsome⟩ | ⟨_, hnone⟩
      · rw [Option.some.inj (hhint.symm.trans hsome)]
        exact BlockTree.Below.refl _
      · rw [hnone] at hhint
        cases hhint
  refine ⟨h.begun.up hchild, hahead, h.aim, by simp, ?_⟩
  intro hgoal
  rcases h.waiting hgoal with ⟨_, hsome⟩ | ⟨_, hnone⟩
  · exact Or.inr ⟨Option.some.inj (hhint.symm.trans hsome), rfl⟩
  · rw [hnone] at hhint
    cases hhint

theorem follow (h : Heading terms start goal top announced) {block : Block}
    (hchild : terms.tree.Child top block) (hbest : terms.tree.Below block terms.best)
    (hlater : ∀ hint ∈ announced, block.height.toNat < hint.height.toNat) :
    Heading terms start goal block announced := by
  rcases h.aim with heq | hstrays
  · exact ⟨h.begun.up hchild, heq ▸ hbest, h.aim, h.hints, fun hne => absurd heq hne⟩
  · rcases h.waiting hstrays.ne_best with ⟨_, hsome⟩ | ⟨htop, _⟩
    · rcases hstrays.fork with ⟨parent, hparent, _, hparentBest, _⟩
      have hlower := hlater goal hsome
      have hnext := hparent.height
      have hbelow := (hbest.total hparentBest (by omega)).up hparent
      refine ⟨h.begun.up hchild, hbelow, h.aim, h.hints, fun _ => Or.inl ⟨?_, hsome⟩⟩
      intro heq
      subst heq
      exact Nat.lt_irrefl _ hlower
    · subst htop
      exact absurd ((BlockTree.Below.of_child hchild).trans hbest) hstrays.off

theorem drop (h : Heading terms start goal top announced)
    (hpast : ∀ hint ∈ announced, hint.height.toNat ≤ top.height.toNat) :
    Heading terms start goal top none := by
  refine ⟨h.begun, h.ahead, h.aim, by simp, ?_⟩
  intro hgoal
  rcases h.waiting hgoal with ⟨hne, hsome⟩ | ⟨htop, _⟩
  · exact absurd (h.ahead.eq_of_height_le (hpast goal hsome)) hne
  · exact Or.inr ⟨htop, rfl⟩

theorem fork (h : Heading terms start goal top announced) (hne : top ≠ terms.best)
    (hnone : ∀ block, terms.tree.Below block terms.best → ¬ terms.tree.Child top block)
    (hlater : ∀ hint ∈ announced, top.height.toNat + 1 < hint.height.toNat) (height : UInt64) :
    Arrived terms start goal top (some height) := by
  by_cases htop : top = goal
  · exact ⟨h.begun, hne, Or.inl htop⟩
  · rcases h.below_best htop with ⟨parent, habove, hbest, hgoal⟩
    rcases habove.eq_or_up with rfl | ⟨next, hchild, hnext⟩
    · by_cases heq : goal = terms.best
      · exact ⟨h.begun, hne, Or.inr ⟨heq, hbest⟩⟩
      · rcases h.waiting heq with ⟨_, hsome⟩ | ⟨hsame, _⟩
        · have hheight := (hgoal.resolve_left heq).height
          have hlower := hlater goal hsome
          omega
        · exact absurd hsame htop
    · exact absurd hchild (hnone next (hnext.trans hbest))

theorem stop (h : Heading terms start goal top announced) (hne : top ≠ terms.best) {hint : Block}
    (hhint : announced = some hint) (hheight : hint.height.toNat = top.height.toNat + 1)
    (hchild : ¬ terms.tree.Child top hint) (height : UInt64) :
    Arrived terms start goal top (some height) := by
  by_cases htop : top = goal
  · exact ⟨h.begun, hne, Or.inl htop⟩
  · by_cases hgoal : goal = terms.best
    · exact ⟨h.begun, hne, Or.inr ⟨hgoal, hgoal ▸ h.ahead⟩⟩
    · rcases h.waiting hgoal with ⟨_, hsome⟩ | ⟨heq, _⟩
      · have hsame := Option.some.inj (hhint.symm.trans hsome)
        subst hsame
        exact absurd (h.ahead.child_of_height (BlockTree.Below.refl _) hheight) hchild
      · exact absurd heq htop

end Heading

end ChainIndex
