import Mathlib.Data.List.Induction
import Stencil.Proofs.Branch.Exclusive

/-!
# Branches that go together

A view assumes the conditions of the branches that it shows.  A choice around the target shows the
branch with the target; any other choice shows its consequent unless a choice around the target or
an earlier choice assumes the opposite of one of the conditions of the consequent.

While a path is followed, what is known to be false is what the steps so far assume.  Each step
decides by what is known then, but what it assumes can be told from the finished path: a later step
neither hides the choice of an earlier one nor any of its branches.
-/

namespace Stencil

namespace View

/-- The view shows one of two branches and hides the other. -/
structure Shows (v : View) (shown other : Span) : Prop where
  shown : v.hides shown = false
  hidden : v.hides other = true

/-- The view shows the choice, and the condition is known to hold in the branch that it shows. -/
structure Assumes (v : View) (c : Choice) (e : Condition) : Prop where
  shown : v.hides c.span = false
  known : e ∈ c.whenTrue ∧ v.hides c.consequent = false
    ∨ e ∈ c.whenFalse ∧ v.hides c.alternate = false

/-- The view assumes with one choice the opposite of a condition of the consequent of another. -/
def Excludes (v : View) (a c : Choice) : Prop :=
  ∃ e, v.Assumes a e ∧ ∃ d ∈ c.whenTrue, e.negate.sameConstraint d = true

end View

namespace Outlined

namespace Path

/-- The conditions that a path assumes with a choice: those of the branch that it does not hide. -/
def assumed (p : Path) (c : Choice) : List Condition :=
  if p.hides c.span then [] else if c.consequent ∈ p.striped then c.whenFalse else c.whenTrue

/-- The conditions that a path assumes with the choice of a step. -/
def Step.assumed (p : Path) : Step → List Condition
  | around c => p.assumed c
  | through _ => []
  | past c => p.assumed c

end Path

open Outlined.Path

/-- Past a choice elsewhere the path has passed the choices around the target and the choices that
precede it, and it goes by what it assumes with them. -/
theorem exists_steps_before {o : Outlined} {target : Nat} {c : Choice} {earlier later : List Choice}
    (hsplit : o.branches.choices.filter (!surrounds target ·) = earlier ++ c :: later) :
  ∃ before after, o.steps target = before ++ .past c :: after
    ∧ ∀ p : Path, before.flatMap (Step.assumed p)
      = (o.branches.choices.filter (surrounds target) ++ earlier).flatMap p.assumed
  := by
  refine ⟨(o.branches.choices.filter (surrounds target)).map .around
    ++ o.branches.switches.map .through ++ earlier.map .past, later.map .past, ?_, ?_⟩
  · rw [steps, hsplit, List.map_append, List.map_cons, List.append_assoc _ _ (_ :: _)]
  · intro p
    simp [List.flatMap_append, List.flatMap_map, Step.assumed]

section Laminar

variable {o : Outlined} (h : o.branches.Laminar) {target : Nat}

include h

/-! ### Which branch is kept -/

/-- Of a choice that is not hidden the path hides one branch. -/
theorem alternate_mem_striped_iff {c : Choice} (hc : c ∈ o.branches.choices)
    (hshown : (o.pathTo target).hides c.span = false) :
  c.alternate ∈ (o.pathTo target).striped ↔ c.consequent ∉ (o.pathTo target).striped
  := by
  have hmem := Branches.choice_mem_forks hc
  have hnodup : [c.consequent, c.alternate].Nodup := (h.proper _ hmem).nodup
  rw [List.nodup_cons, List.mem_singleton] at hnodup
  obtain ⟨kept, hkept, hiff⟩ :=
    (hides_or_keeps h target hmem).resolve_left (Bool.eq_false_iff.mp hshown)
  rw [hiff c.alternate Choice.alternate_mem_fork, hiff c.consequent Choice.consequent_mem_fork]
  simp only [Choice.fork, List.mem_cons, List.not_mem_nil, or_false] at hkept
  rcases hkept with rfl | rfl
  · simp [Ne.symm hnodup.1]
  · simp [hnodup.1]

/-- A choice around the target is not hidden. -/
theorem hides_of_surrounds {c : Choice} (hc : c ∈ o.branches.choices)
    (hsurrounds : surrounds target c = true) :
  (o.pathTo target).hides c.span = false
  := by
  have hproper := h.proper _ (Branches.choice_mem_forks hc)
  have hcontains : c.span.contains target = true := by
    rw [surrounds, Bool.or_eq_true] at hsurrounds
    rcases hsurrounds with hin | hin
    · apply Span.contains_of_encloses (hproper.encloses Choice.consequent_mem_fork) hin
    · apply Span.contains_of_encloses (hproper.encloses Choice.alternate_mem_fork) hin
  rw [← Bool.not_eq_true, Path.hides_iff]
  rintro ⟨r, hr, henc⟩
  have hout := (o.hides_pathTo target r hr).not_contains h.apart
  rw [Span.contains_of_encloses henc hcontains] at hout
  contradiction

/-- The path does not hide a branch that holds the target. -/
theorem notMem_striped_of_contains {s : Span} (hs : s.contains target = true) :
  s ∉ (o.pathTo target).striped
  := by
  intro hmem
  have hout := (o.hides_pathTo target s hmem).not_contains h.apart
  rw [hs] at hout
  contradiction

/-- After a step past a choice no step passes a fork around the choice. -/
theorem before_of_past {before after : List Step} {c : Choice}
    (hsteps : o.steps target = before ++ .past c :: after) :
  ∀ st ∈ after, c.fork.Before st.fork
  := by
  have hordered : (o.steps target).Pairwise
      fun st st' => ∀ c, st = .past c → c.fork.Before st'.fork := by
    rw [steps, List.pairwise_append]
    refine ⟨?_, ?_, ?_⟩
    · apply List.pairwise_of_forall_mem_list
      rintro _ hst st' _ c rfl
      simp at hst
    · rw [List.pairwise_map]
      apply (h.choices.filter _).imp
      rintro a b hab c ⟨⟩
      exact hab
    · rintro _ hst st' _ c rfl
      simp at hst
  rw [hsteps] at hordered
  exact fun st hst => (List.pairwise_cons.mp (List.pairwise_append.mp hordered).2.1).1 st hst c rfl

/-! ### What is assumed on the way -/

/-- A choice that is not hidden when it is passed is never hidden. -/
theorem hides_of_past {before after : List Step} {c : Choice}
    (hsteps : o.steps target = before ++ .past c :: after)
    (hshown : (along target before).hides c.span = false) :
  (o.pathTo target).hides c.span = false
  := by
  have hproper (st : Step) (hst : st ∈ o.steps target) := proper_step h hst
  rw [hsteps] at hproper
  have hself : c.fork.Proper := hproper (.past c) (by simp)
  rw [← Bool.not_eq_true, Path.hides_iff, pathTo_eq_along, hsteps]
  rintro ⟨r, hr, henc⟩
  have hcontains : r.contains c.fork.span.start = true :=
    Span.contains_of_encloses henc (Span.contains_start hself.nonempty)
  obtain ⟨l, hl, hbranches⟩ := striped_along_append target before (.past c :: after)
  rw [hl, List.mem_append] at hr
  rcases hr with hr | hr
  · have hhidden := Path.hides_iff.mpr ⟨r, hr, henc⟩
    rw [hshown] at hhidden
    contradiction
  · have hout : r.contains c.fork.span.start = false := by
      obtain ⟨st, hst, hmem⟩ := hbranches r hr
      rcases List.mem_cons.mp hst with rfl | hst
      · apply hself.not_contains_start hmem
      · exact (before_of_past h hsteps st hst).not_contains_begins hself
          (hproper st (by simp [hst])) hmem c.fork.start_mem_begins
    rw [hcontains] at hout
    contradiction

/-- Past a choice that is not hidden the path hides the consequent if it is known not to be
reached. -/
theorem consequent_mem_striped_iff {before after : List Step} {c : Choice}
    (hsteps : o.steps target = before ++ .past c :: after)
    (hshown : (along target before).hides c.span = false) :
  c.consequent ∈ (o.pathTo target).striped ↔ (along target before).refutes c.whenTrue = true
  := by
  have hst : .past c ∈ o.steps target := by simp [hsteps]
  have hproper : c.fork.Proper := proper_step h hst
  have hnodup : [c.consequent, c.alternate].Nodup := hproper.nodup
  rw [List.nodup_cons] at hnodup
  obtain ⟨hnew, hlast⟩ := mem_striped_iff h hsteps Choice.consequent_mem_fork
  rw [hlast, follow, past, if_neg (Bool.eq_false_iff.mp hshown)]
  split
  · next hrefutes => simp [hrefutes]
  · next hrefutes => simp [hrefutes, hnew, hnodup.1]

/-- A step takes to be false the opposites of what the finished path assumes with its choice. -/
theorem refuted_follow {before after : List Step} {st : Step}
    (hsteps : o.steps target = before ++ st :: after) :
  ((along target before).follow target st).refuted
    = (along target before).refuted ++ (st.assumed (o.pathTo target)).map Condition.negate
  := by
  have hst : st ∈ o.steps target := by simp [hsteps]
  cases st with
  | around c =>
      obtain ⟨hc, hsurrounds⟩ := around_mem_steps.mp hst
      have hshown := hides_of_surrounds h hc hsurrounds
      rw [surrounds, Bool.or_eq_true] at hsurrounds
      by_cases hin : c.consequent.contains target = true
      · have hkept := notMem_striped_of_contains h hin
        simp [follow, towards, hin, Step.assumed, assumed, hshown, hkept]
      · have halternate := hsurrounds.resolve_left hin
        have hstriped : c.consequent ∈ (o.pathTo target).striped := by
          rw [(mem_striped_iff h hsteps Choice.consequent_mem_fork).2]
          simp [follow, towards, hin, halternate]
        simp [follow, towards, hin, halternate, Step.assumed, assumed, hshown, hstriped]
  | through s => simp [follow, Step.assumed]
  | past c =>
      cases hpast : (along target before).hides c.span with
      | true =>
          have hhides := hides_along_append hpast (.past c :: after)
          rw [← hsteps, ← pathTo_eq_along] at hhides
          simp [follow, past, hpast, Step.assumed, assumed, hhides]
      | false =>
          have hshown := hides_of_past h hsteps hpast
          have hstriped := consequent_mem_striped_iff h hsteps hpast
          cases hrefutes : (along target before).refutes c.whenTrue with
          | true => simp [follow, past, hpast, hrefutes, Step.assumed, assumed, hshown, hstriped]
          | false => simp [follow, past, hpast, hrefutes, Step.assumed, assumed, hshown, hstriped]

/-- What is known to be false after some steps are the opposites of what the finished path assumes
with their choices. -/
theorem refuted_along {before after : List Step} (hsteps : o.steps target = before ++ after) :
  (along target before).refuted
    = (before.flatMap (Step.assumed (o.pathTo target))).map Condition.negate
  := by
  induction before using List.reverseRecOn generalizing after with
  | nil => rfl
  | append_singleton before st ih =>
      have hsteps' : o.steps target = before ++ st :: after := by simpa using hsteps
      rw [along_concat, refuted_follow h hsteps', ih hsteps']
      simp

/-! ### The choices before a choice -/

/-- The choices that are passed before a choice elsewhere are those around the target and those
that precede it. -/
theorem mem_earlier_iff {c : Choice} {earlier later : List Choice}
    (hsplit : o.branches.choices.filter (!surrounds target ·) = earlier ++ c :: later)
    (a : Choice) :
  a ∈ o.branches.choices.filter (surrounds target) ++ earlier
    ↔ a ∈ o.branches.choices ∧ (surrounds target a = true ∨ a.span.Precedes c.span)
  := by
  have hordered : (earlier ++ c :: later).Pairwise fun d e => d.span.Precedes e.span := by
    rw [← hsplit]
    apply List.Pairwise.filter
    apply h.choices.imp_of_mem
    intro d e hd he hde
    apply hde.precedes (h.proper _ (Branches.choice_mem_forks hd))
      (h.proper _ (Branches.choice_mem_forks he))
  obtain ⟨-, hlater, hearlier⟩ := List.pairwise_append.mp hordered
  have hmem (d : Choice) : d ∈ earlier ++ c :: later
      ↔ d ∈ o.branches.choices ∧ surrounds target d = false := by
    rw [← hsplit]
    simp
  rw [List.mem_append, List.mem_filter]
  constructor
  · rintro (⟨ha, hsurrounds⟩ | ha)
    · exact ⟨ha, Or.inl hsurrounds⟩
    · exact ⟨((hmem a).mp (List.mem_append_left _ ha)).1,
        Or.inr (hearlier a ha c List.mem_cons_self)⟩
  · rintro ⟨ha, hplace⟩
    cases hsurrounds : surrounds target a with
    | true => exact Or.inl ⟨ha, rfl⟩
    | false =>
        have hprecedes := hplace.resolve_left (by simp [hsurrounds])
        right
        rcases List.mem_append.mp ((hmem a).mpr ⟨ha, hsurrounds⟩) with hin | hin
        · exact hin
        · rcases List.mem_cons.mp hin with rfl | hin
          · exact absurd hprecedes hprecedes.asymm
          · exact absurd hprecedes ((List.pairwise_cons.mp hlater).1 a hin).asymm

/-! ### From the path to the view -/

theorem hides_viewFor_span {c : Choice} (hc : c ∈ o.branches.choices) :
  (o.viewFor target).hides c.span = (o.pathTo target).hides c.span
  := hides_viewFor_fork h (Branches.choice_mem_forks hc)

/-- A view that shows a choice shows the one of its branches that the path does not hide. -/
theorem hides_viewFor_choice {c : Choice} (hc : c ∈ o.branches.choices)
    (hshown : (o.viewFor target).hides c.span = false) :
  ((o.viewFor target).hides c.consequent = true ↔ c.consequent ∈ (o.pathTo target).striped)
    ∧ ((o.viewFor target).hides c.alternate = true ↔ c.consequent ∉ (o.pathTo target).striped)
  := by
  have hmem := Branches.choice_mem_forks hc
  have hpath := hshown
  rw [hides_viewFor_span h hc] at hpath
  constructor
  · apply hides_viewFor_branch h hmem hshown Choice.consequent_mem_fork
  · rw [hides_viewFor_branch h hmem hshown Choice.alternate_mem_fork,
      alternate_mem_striped_iff h hc hpath]

/-- What a view assumes is what the path assumes. -/
theorem assumes_viewFor_iff {c : Choice} (hc : c ∈ o.branches.choices) (e : Condition) :
  (o.viewFor target).Assumes c e ↔ e ∈ (o.pathTo target).assumed c
  := by
  have hspan : (o.viewFor target).hides c.span = (o.pathTo target).hides c.span :=
    hides_viewFor_span h hc
  unfold assumed
  cases hpath : (o.pathTo target).hides c.span with
  | true =>
      rw [hpath] at hspan
      constructor
      · intro hassumes
        rw [hassumes.shown] at hspan
        contradiction
      · simp
  | false =>
      rw [hpath] at hspan
      obtain ⟨hconsequent, halternate⟩ := hides_viewFor_choice h hc hspan
      rw [if_neg Bool.false_ne_true]
      by_cases hstriped : c.consequent ∈ (o.pathTo target).striped
      · have hhidden := hconsequent.mpr hstriped
        have hkept : (o.viewFor target).hides c.alternate = false := by
          simpa [hstriped] using halternate
        rw [if_pos hstriped]
        constructor
        · rintro ⟨-, ⟨-, h⟩ | ⟨he, -⟩⟩
          · rw [hhidden] at h
            contradiction
          · exact he
        · exact fun he => ⟨hspan, Or.inr ⟨he, hkept⟩⟩
      · have hhidden := halternate.mpr hstriped
        have hkept : (o.viewFor target).hides c.consequent = false := by
          simpa [hstriped] using hconsequent
        rw [if_neg hstriped]
        constructor
        · rintro ⟨-, ⟨he, -⟩ | ⟨-, h⟩⟩
          · exact he
          · rw [hhidden] at h
            contradiction
        · exact fun he => ⟨hspan, Or.inl ⟨he, hkept⟩⟩

/-- Of a choice elsewhere that the view shows the path hides the consequent if the view excludes it
with a choice around the target or a choice before it. -/
theorem consequent_mem_striped_iff_excludes {c : Choice} (hc : c ∈ o.branches.choices)
    (hout : surrounds target c = false) (hshown : (o.viewFor target).hides c.span = false) :
  c.consequent ∈ (o.pathTo target).striped
    ↔ ∃ a ∈ o.branches.choices, (surrounds target a = true ∨ a.span.Precedes c.span)
      ∧ (o.viewFor target).Excludes a c
  := by
  have hmem : c ∈ o.branches.choices.filter (!surrounds target ·) := by
    simp [hc, hout]
  obtain ⟨earlier, later, hsplit⟩ := List.append_of_mem hmem
  obtain ⟨before, after, hsteps, hassumed⟩ := exists_steps_before hsplit
  have hpath : (along target before).hides c.span = false := by
    by_contra hhidden
    rw [Bool.not_eq_false] at hhidden
    have hhides := hides_along_append hhidden (.past c :: after)
    rw [← hsteps, ← pathTo_eq_along, ← hides_viewFor_span h hc, hshown] at hhides
    contradiction
  rw [consequent_mem_striped_iff h hsteps hpath, refutes, refuted_along h hsteps, hassumed]
  simp only [List.any_eq_true, List.mem_map, List.mem_flatMap, mem_earlier_iff h hsplit]
  constructor
  · rintro ⟨d, hd, _, ⟨e, ⟨a, ⟨ha, hplace⟩, he⟩, rfl⟩, hsame⟩
    exact ⟨a, ha, hplace, e, (assumes_viewFor_iff h ha e).mpr he, d, hd, hsame⟩
  · rintro ⟨a, ha, hplace, e, hassumes, d, hd, hsame⟩
    exact ⟨d, hd, _, ⟨e, ⟨a, ⟨ha, hplace⟩, (assumes_viewFor_iff h ha e).mp hassumes⟩, rfl⟩,
      hsame⟩

end Laminar

/-- In a view for a target each choice of a nested script that is not hidden as a whole shows one
branch: the one that holds the target; or else the consequent, unless a choice around the target or
a choice before it assumes the opposite of a condition of the consequent. -/
theorem consistent_branches {o : Outlined} {source : Text} {tree : Script.Node}
    (hnested : tree.Nested) (hbranches : Branches.ofTree source tree = .ok o.branches)
    (target : Nat) :
  ∀ c ∈ o.branches.choices, (o.viewFor target).hides c.span = false →
    (c.consequent.contains target = true → (o.viewFor target).Shows c.consequent c.alternate)
    ∧ (c.alternate.contains target = true → (o.viewFor target).Shows c.alternate c.consequent)
    ∧ (surrounds target c = false →
      ((o.viewFor target).Shows c.consequent c.alternate
        ↔ ¬ ∃ a ∈ o.branches.choices, (surrounds target a = true ∨ a.span.Precedes c.span)
          ∧ (o.viewFor target).Excludes a c))
  := by
  intro c hc hshown
  have hlaminar := Branches.laminar_of_ofTree hnested hbranches
  obtain ⟨hconsequent, halternate⟩ := hides_viewFor_choice hlaminar hc hshown
  refine ⟨?_, ?_, ?_⟩
  · intro hin
    have hkept := notMem_striped_of_contains hlaminar hin
    exact ⟨by simpa [hkept] using hconsequent, halternate.mpr hkept⟩
  · intro hin
    have hkept := notMem_striped_of_contains hlaminar hin
    rw [hides_viewFor_span hlaminar hc] at hshown
    rw [alternate_mem_striped_iff hlaminar hc hshown, not_not] at hkept
    exact ⟨by simpa [hkept] using halternate, hconsequent.mpr hkept⟩
  · intro hout
    rw [← consequent_mem_striped_iff_excludes hlaminar hc hout hshown]
    constructor
    · intro hshows hstriped
      have hhidden := hconsequent.mpr hstriped
      rw [hshows.shown] at hhidden
      contradiction
    · intro hkept
      exact ⟨by simpa [hkept] using hconsequent, halternate.mpr hkept⟩

theorem consistent_branches_sample :
  Script.Node.sample.Nested
    ∧ Branches.ofTree sample.document .sample = .ok sample.branches
    ∧ (sample.viewFor 14).hides Choice.sample.span = false
    ∧ (sample.viewFor 14).Shows Choice.sample.consequent Choice.sample.alternate
    ∧ (sample.viewFor 14).hides Choice.opposite.span = false
    ∧ ¬ (sample.viewFor 14).Shows Choice.opposite.consequent Choice.opposite.alternate
  := by
  have hconsistent :=
    consistent_branches Script.Node.nested_sample Branches.ofTree_sample 14
  have hlaminar := Branches.laminar_of_ofTree Script.Node.nested_sample Branches.ofTree_sample
  have hfirst : (sample.viewFor 14).hides Choice.sample.span = false :=
    (hides_viewFor_span hlaminar (by decide)).trans (by decide +kernel)
  have hsecond : (sample.viewFor 14).hides Choice.opposite.span = false :=
    (hides_viewFor_span hlaminar (by decide)).trans (by decide +kernel)
  have hshows := (hconsistent .sample (by decide) hfirst).1 (by decide)
  have hexcludes : (sample.viewFor 14).Excludes .sample .opposite :=
    ⟨.simple ['a'], ⟨hfirst, Or.inl ⟨by decide, hshows.shown⟩⟩, (Condition.simple ['a']).negate,
      by decide, by decide +kernel⟩
  have hother := (hconsistent .opposite (by decide) hsecond).2.2 (by decide)
  refine ⟨Script.Node.nested_sample, Branches.ofTree_sample, hfirst, hshows, hsecond, ?_⟩
  rw [hother, not_not]
  exact ⟨.sample, by decide, Or.inl (by decide), hexcludes⟩

end Outlined

end Stencil
