import Mathlib.Data.List.Induction
import Mathlib.Data.List.Nodup
import Stencil.Proofs.Branch.Fork

/-!
# The steps of a path

A path to a target is followed step by step: first the choices around the target, then the
switches, then the other choices.  Every step passes one fork.  It hides all branches of the fork
but one, or none of them if the fork is hidden already.  As forks have no branches in common, what
a step hides is not changed by any other step.
-/

namespace Stencil

theorem Switch.groupAt_lt (s : Switch) (h : s.groups ≠ []) (target : Nat) :
  s.groupAt target < s.groups.length
  := by
  have hpos := List.length_pos_of_ne_nil h
  dsimp only [groupAt]
  split
  · assumption
  · exact hpos

namespace Outlined

namespace Path

/-- A step of a path: towards the target through a choice around it, through a switch, or past a
choice elsewhere. -/
inductive Step where
  | around (c : Choice)
  | through (s : Switch)
  | past (c : Choice)

/-- The fork that a step passes. -/
def Step.fork : Step → Fork
  | around c => c.fork
  | through s => s.fork
  | past c => c.fork

/-- Takes one step. -/
def follow (target : Nat) (p : Path) : Step → Path
  | .around c => p.towards target c
  | .through s => p.through target s
  | .past c => p.past c

/-- Among the branches of a fork all but one are hidden. -/
def Keeps (x : Fork) (hidden : List Span) : Prop :=
  ∃ kept ∈ x.branches, ∀ s, s ∈ hidden ↔ s ∈ x.branches ∧ s ≠ kept

/-- Where one of two branches is hidden, the other one is kept. -/
theorem keeps_branch {x : Fork} (h : x.Proper) {kept hidden : Span}
    (hbranches : x.branches.Perm [kept, hidden]) :
  Keeps x [hidden]
  := by
  have hnodup := hbranches.nodup_iff.mp h.nodup
  simp only [List.nodup_cons, List.mem_singleton] at hnodup
  use kept
  simp only [hbranches.mem_iff, List.mem_cons, List.not_mem_nil, or_false]
  grind

theorem keeps_eraseIdx {s : Switch} (h : s.fork.Proper) (target : Nat) :
  Keeps s.fork (s.groups.eraseIdx (s.groupAt target))
  := by
  have hnodup : s.groups.Nodup := h.nodup
  have hlt := s.groupAt_lt h.hasBranch target
  use s.groups[s.groupAt target]
  constructor
  · apply List.getElem_mem
  · intro g
    rw [← hnodup.erase_getElem _ hlt, hnodup.mem_erase_iff, and_comm]
    rfl

/-- A step adds to what is hidden some of the branches of its fork. -/
theorem striped_follow (target : Nat) (p : Path) (st : Step) :
  ∃ l, (p.follow target st).striped = p.striped ++ l ∧ l ⊆ st.fork.branches
  := by
  cases st with
  | around c =>
      rw [follow, towards]
      split
      · use [c.alternate]
        simp [Step.fork, Choice.fork]
      · split
        · use [c.consequent]
          simp [Step.fork, Choice.fork]
        · use []
          simp
  | through s =>
      use if p.hides s.span then [] else s.groups.eraseIdx (s.groupAt target)
      rw [follow, striped_through]
      refine ⟨rfl, ?_⟩
      split
      · simp
      · exact (List.eraseIdx_sublist _ _).subset
  | past c =>
      rw [follow, past]
      split
      · use []
        simp
      · split
        · use [c.consequent]
          simp [Step.fork, Choice.fork]
        · use [c.alternate]
          simp [Step.fork, Choice.fork]

/-- Unless a step finds its fork hidden, it hides all its branches but one. -/
theorem keeps_follow {target : Nat} (p : Path) {st : Step} (hproper : st.fork.Proper)
    (haround : ∀ c, st = .around c → surrounds target c = true) :
  p.hides st.fork.span = true
    ∨ ∃ l, (p.follow target st).striped = p.striped ++ l ∧ Keeps st.fork l
  := by
  cases st with
  | around c =>
      right
      have hsurrounds := haround c rfl
      rw [surrounds, Bool.or_eq_true] at hsurrounds
      by_cases hin : c.consequent.contains target = true
      · exact ⟨[c.alternate], by simp [follow, towards, hin], keeps_branch hproper (.refl _)⟩
      · have halternate := hsurrounds.resolve_left hin
        exact ⟨[c.consequent], by simp [follow, towards, hin, halternate],
          keeps_branch hproper (.swap ..)⟩
  | through s =>
      by_cases hhidden : p.hides s.span = true
      · exact Or.inl hhidden
      · right
        exact ⟨s.groups.eraseIdx (s.groupAt target), by simp [follow, striped_through, hhidden],
          keeps_eraseIdx hproper target⟩
  | past c =>
      by_cases hhidden : p.hides c.span = true
      · exact Or.inl hhidden
      · right
        by_cases hrefuted : p.refutes c.whenTrue = true
        · exact ⟨[c.consequent], by simp [follow, past, hhidden, hrefuted],
            keeps_branch hproper (.swap ..)⟩
        · exact ⟨[c.alternate], by simp [follow, past, hhidden, hrefuted],
            keeps_branch hproper (.refl _)⟩

/-- The path after some steps. -/
def along (target : Nat) (steps : List Step) : Path := steps.foldl (follow target) {}

theorem along_concat (target : Nat) (steps : List Step) (st : Step) :
  along target (steps ++ [st]) = (along target steps).follow target st
  := List.foldl_append

/-- What further steps add to what is hidden are branches of their forks. -/
theorem striped_along_append (target : Nat) (before after : List Step) :
  ∃ l, (along target (before ++ after)).striped = (along target before).striped ++ l
    ∧ ∀ s ∈ l, ∃ st ∈ after, s ∈ st.fork.branches
  := by
  induction after using List.reverseRecOn with
  | nil => exact ⟨[], by simp, by simp⟩
  | append_singleton after st ih =>
      obtain ⟨l, hl, hbranches⟩ := ih
      obtain ⟨last, hlast, hsub⟩ := striped_follow target (along target (before ++ after)) st
      use l ++ last
      constructor
      · rw [← List.append_assoc, along_concat, hlast, hl, List.append_assoc]
      · intro s hs
        rcases List.mem_append.mp hs with hs | hs
        · obtain ⟨st', hst', hmem⟩ := hbranches s hs
          exact ⟨st', List.mem_append_left _ hst', hmem⟩
        · exact ⟨st, by simp, hsub hs⟩

/-- What is hidden after some steps are branches of their forks. -/
theorem exists_step_of_mem_striped {target : Nat} {steps : List Step} {s : Span}
    (hs : s ∈ (along target steps).striped) :
  ∃ st ∈ steps, s ∈ st.fork.branches
  := by
  obtain ⟨l, hl, hbranches⟩ := striped_along_append target [] steps
  have hnil : (along target []).striped = [] := rfl
  rw [List.nil_append, hnil, List.nil_append] at hl
  rw [hl] at hs
  apply hbranches s hs

theorem hides_iff {p : Path} {s : Span} :
  p.hides s = true ↔ ∃ r ∈ p.striped, r.encloses s = true
  := List.any_eq_true

/-- What is hidden after some steps stays hidden. -/
theorem hides_along_append {target : Nat} {before : List Step} {s : Span}
    (hs : (along target before).hides s = true) (after : List Step) :
  (along target (before ++ after)).hides s = true
  := by
  rw [hides_iff] at *
  obtain ⟨r, hr, henc⟩ := hs
  obtain ⟨l, hl, -⟩ := striped_along_append target before after
  exact ⟨r, by rw [hl]; exact List.mem_append_left _ hr, henc⟩

end Path

open Outlined.Path

/-! ### The steps to a target -/

/-- The steps of the path to a target. -/
def steps (o : Outlined) (target : Nat) : List Step :=
  (o.branches.choices.filter (surrounds target)).map .around
    ++ o.branches.switches.map .through
    ++ (o.branches.choices.filter (!surrounds target ·)).map .past

theorem around_mem_steps {o : Outlined} {target : Nat} {c : Choice} :
  .around c ∈ o.steps target ↔ c ∈ o.branches.choices ∧ surrounds target c = true
  := by
  simp [steps]

/-- A choice that does not hold the target in a branch needs no step towards it. -/
theorem towards_of_not_surrounds {target : Nat} {c : Choice} (h : ¬ surrounds target c = true)
    (p : Path) :
  p.towards target c = p
  := by
  rw [surrounds, Bool.or_eq_true, not_or] at h
  rw [towards, if_neg h.1, if_neg h.2]

/-- The path to a target is followed step by step. -/
theorem pathTo_eq_along (o : Outlined) (target : Nat) :
  o.pathTo target = along target (o.steps target)
  := by
  have htowards (p : Path) (c : Choice) :
      p.towards target c = if surrounds target c then p.towards target c else p := by
    split
    · rfl
    · next hout => exact towards_of_not_surrounds hout p
  have haround : o.branches.choices.foldl (towards target) {}
      = (o.branches.choices.filter (surrounds target)).foldl (towards target) {} := by
    rw [List.foldl_filter]
    congr 1
    funext p c
    apply htowards p c
  rw [pathTo, along, steps, List.foldl_append, List.foldl_append, List.foldl_map, List.foldl_map,
    List.foldl_map]
  simp only [haround]
  rfl

/-- Every fork is passed in one step. -/
theorem forks_steps (o : Outlined) (target : Nat) :
  ((o.steps target).map Step.fork).Perm o.branches.forks
  := by
  have hchoices := (List.filter_append_perm (surrounds target) o.branches.choices).map Choice.fork
  rw [List.map_append] at hchoices
  rw [steps, List.map_append, List.map_append, List.map_map, List.map_map, List.map_map,
    List.append_assoc]
  apply (List.Perm.append_left _ List.perm_append_comm).trans
  rw [← List.append_assoc]
  apply hchoices.append_right _

section Laminar

variable {o : Outlined} (h : o.branches.Laminar)

include h

theorem proper_step {target : Nat} {st : Step} (hst : st ∈ o.steps target) :
  st.fork.Proper
  := h.proper _ ((o.forks_steps target).subset (List.mem_map_of_mem hst))

/-- The forks of the steps are related to each other. -/
theorem related_steps (target : Nat) :
  (o.steps target).Pairwise fun st st' => st.fork.Related st'.fork
  := List.pairwise_map.mp ((o.forks_steps target).symm.pairwise h.related Or.symm)

/-- What a step hides of its fork was not hidden before and is all that is ever hidden of it. -/
theorem mem_striped_iff {target : Nat} {before after : List Step} {st : Step}
    (hsteps : o.steps target = before ++ st :: after) {s : Span} (hs : s ∈ st.fork.branches) :
  s ∉ (along target before).striped
    ∧ (s ∈ (o.pathTo target).striped ↔ s ∈ ((along target before).follow target st).striped)
  := by
  have hrelated := related_steps h target
  have hproper (st' : Step) (hst' : st' ∈ o.steps target) := proper_step h hst'
  rw [hsteps] at hrelated hproper
  obtain ⟨-, hafter, hbefore⟩ := List.pairwise_append.mp hrelated
  have hself := hproper st (by simp)
  constructor
  · intro hmem
    obtain ⟨st', hst', hmem⟩ := exists_step_of_mem_striped hmem
    have hrel := hbefore st' hst' st List.mem_cons_self
    apply hrel.notMem_branches (hproper st' (by simp [hst'])) hself hmem hs
  · obtain ⟨l, hl, hlater⟩ := striped_along_append target (before ++ [st]) after
    have hnot : s ∉ l := by
      intro hmem
      obtain ⟨st', hst', hmem⟩ := hlater s hmem
      have hrel := (List.pairwise_cons.mp hafter).1 st' hst'
      apply hrel.notMem_branches hself (hproper st' (by simp [hst'])) hs hmem
    rw [pathTo_eq_along, hsteps, List.append_cons, hl, along_concat, List.mem_append]
    simp [hnot]

/-- A path hides a fork, or all of its branches but one. -/
theorem hides_or_keeps (target : Nat) {x : Fork} (hx : x ∈ o.branches.forks) :
  (o.pathTo target).hides x.span = true
    ∨ ∃ kept ∈ x.branches, ∀ s ∈ x.branches, s ∈ (o.pathTo target).striped ↔ s ≠ kept
  := by
  obtain ⟨st, hst, rfl⟩ := List.mem_map.mp ((o.forks_steps target).symm.subset hx)
  have haround : ∀ c, st = .around c → surrounds target c = true := by
    rintro c rfl
    exact (around_mem_steps.mp hst).2
  obtain ⟨before, after, hsteps⟩ := List.append_of_mem hst
  rcases keeps_follow (along target before) (proper_step h hst) haround
    with hhidden | ⟨l, hl, kept, hkept, hiff⟩
  · left
    rw [pathTo_eq_along, hsteps]
    apply hides_along_append hhidden _
  · right
    use kept, hkept
    intro s hs
    obtain ⟨hnew, hlast⟩ := mem_striped_iff h hsteps hs
    rw [hlast, hl, List.mem_append, hiff]
    simp [hnew, hs]

end Laminar

end Outlined

end Stencil
