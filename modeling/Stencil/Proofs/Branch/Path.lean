import Stencil.Branch.Store
import Stencil.Proofs.Span

/-!
# What a path hides

A path to a target hides only branches that lie beside it: for a choice around the target the
other branch, for a switch the groups other than the one that is kept, and for a choice elsewhere
either branch.  Where the branches of a statement share no offset, none of them holds the target,
so the view for a target shows it.
-/

namespace Stencil

namespace Branches

/-- The branches of a choice share no offset, and neither do the groups of a switch. -/
structure Apart (b : Branches) : Prop where
  choices : ∀ c ∈ b.choices, c.consequent.Apart c.alternate
  switches : ∀ s ∈ b.switches, s.groups.Pairwise Span.Apart

/-- The ranges of the branches. -/
def spans (b : Branches) : List Span :=
  b.choices.flatMap (fun c => [c.consequent, c.alternate]) ++ b.switches.flatMap (·.groups)

theorem consequent_mem_spans {b : Branches} {c : Choice} (hc : c ∈ b.choices) :
  c.consequent ∈ b.spans
  := by
  apply List.mem_append_left
  rw [List.mem_flatMap]
  use c, hc
  simp

theorem alternate_mem_spans {b : Branches} {c : Choice} (hc : c ∈ b.choices) :
  c.alternate ∈ b.spans
  := by
  apply List.mem_append_left
  rw [List.mem_flatMap]
  use c, hc
  simp

theorem group_mem_spans {b : Branches} {s : Switch} {g : Span} (hs : s ∈ b.switches)
    (hg : g ∈ s.groups) :
  g ∈ b.spans
  := by
  apply List.mem_append_right
  rw [List.mem_flatMap]
  use s

/-- The branches that a path to a target does not go through. -/
inductive Beside (b : Branches) (target : Nat) : Span → Prop where
  | consequent {c : Choice} (hc : c ∈ b.choices) (h : c.consequent.contains target = false) :
      Beside b target c.consequent
  | alternate {c : Choice} (hc : c ∈ b.choices)
      (h : c.consequent.contains target = true ∨ c.alternate.contains target = false) :
      Beside b target c.alternate
  | group {s : Switch} {g : Span} (hs : s ∈ b.switches)
      (hg : g ∈ s.groups.eraseIdx (s.groupAt target)) :
      Beside b target g

theorem Beside.mem_spans {b : Branches} {target : Nat} {s : Span} (h : b.Beside target s) :
  s ∈ b.spans
  := by
  cases h with
  | consequent hc _ => apply consequent_mem_spans hc
  | alternate hc _ => apply alternate_mem_spans hc
  | group hs hg => apply group_mem_spans hs (List.mem_of_mem_eraseIdx hg)

end Branches

/-- The groups that a switch does not keep for a target do not hold it. -/
theorem Switch.not_contains_of_mem_eraseIdx {s : Switch} {target : Nat} {g : Span}
    (hapart : s.groups.Pairwise Span.Apart) (hg : g ∈ s.groups.eraseIdx (s.groupAt target)) :
  g.contains target = false
  := by
  by_contra hcontains
  rw [Bool.not_eq_false] at hcontains
  obtain ⟨i, hi, hne, rfl⟩ := List.mem_eraseIdx_iff_getElem.mp hg
  have hfound : s.groups.findIdx (·.contains target) ≤ i := by
    by_contra hlt
    have hno := List.not_of_lt_findIdx (Nat.lt_of_not_le hlt)
    simp [hcontains] at hno
  have hkept : s.groupAt target = s.groups.findIdx (·.contains target) := by
    simp only [groupAt]
    rw [if_pos (by omega)]
  have hlt : s.groups.findIdx (·.contains target) < i := by omega
  have hcontains' : s.groups[s.groups.findIdx (·.contains target)].contains target = true :=
    List.findIdx_getElem (p := fun g : Span => g.contains target)
  apply List.pairwise_iff_getElem.mp hapart _ i (by omega) hi hlt target hcontains' hcontains

/-- What lies beside the path to a target does not hold it. -/
theorem Branches.Beside.not_contains {b : Branches} {target : Nat} {s : Span}
    (h : b.Beside target s) (hapart : b.Apart) :
  s.contains target = false
  := by
  cases h with
  | consequent _ h => exact h
  | @alternate c hc h =>
      rcases h with h | h
      · by_contra hcontains
        rw [Bool.not_eq_false] at hcontains
        apply hapart.choices c hc target h hcontains
      · exact h
  | @group s _ hs hg => apply Switch.not_contains_of_mem_eraseIdx (hapart.switches s hs) hg

namespace Outlined.Path

@[simp]
theorem striped_takeConsequent (p : Path) (c : Choice) :
  (p.takeConsequent c).striped = p.striped ++ [c.alternate]
  := rfl

@[simp]
theorem striped_takeAlternate (p : Path) (c : Choice) :
  (p.takeAlternate c).striped = p.striped ++ [c.consequent]
  := rfl

@[simp]
theorem refuted_takeConsequent (p : Path) (c : Choice) :
  (p.takeConsequent c).refuted = p.refuted ++ c.whenTrue.map Condition.negate
  := rfl

@[simp]
theorem refuted_takeAlternate (p : Path) (c : Choice) :
  (p.takeAlternate c).refuted = p.refuted ++ c.whenFalse.map Condition.negate
  := rfl

theorem striped_through (target : Nat) (p : Path) (s : Switch) :
  (p.through target s).striped
    = p.striped ++ if p.hides s.span then [] else s.groups.eraseIdx (s.groupAt target)
  := by
  unfold through
  split
  · simp
  · rfl

@[simp]
theorem refuted_through (target : Nat) (p : Path) (s : Switch) :
  (p.through target s).refuted = p.refuted
  := by
  unfold through
  split
  · rfl
  · rfl

/-- Every hidden range satisfies `Q`. -/
def Hides (Q : Span → Prop) (p : Path) : Prop :=
  ∀ s ∈ p.striped, Q s

theorem Hides.append {Q : Span → Prop} {p q : Path} {l : List Span} (h : p.Hides Q)
    (hq : q.striped = p.striped ++ l) (hl : ∀ s ∈ l, Q s) :
  q.Hides Q
  := by
  intro s hs
  rw [hq] at hs
  rcases List.mem_append.mp hs with hs | hs
  · apply h s hs
  · apply hl s hs

theorem hides_towards {b : Branches} {target : Nat} {p : Path} {c : Choice} (hc : c ∈ b.choices)
    (h : p.Hides (b.Beside target)) :
  (p.towards target c).Hides (b.Beside target)
  := by
  unfold towards
  split
  · next hin => exact h.append rfl (by simpa using .alternate hc (Or.inl hin))
  · next hout =>
      rw [Bool.not_eq_true] at hout
      split
      · apply h.append rfl (by simpa using .consequent hc hout)
      · exact h

theorem hides_through {b : Branches} {target : Nat} {p : Path} {s : Switch}
    (hs : s ∈ b.switches) (h : p.Hides (b.Beside target)) :
  (p.through target s).Hides (b.Beside target)
  := by
  apply h.append (striped_through target p s)
  intro g hg
  split at hg
  · simp at hg
  · exact .group hs hg

theorem hides_past {b : Branches} {target : Nat} {p : Path} {c : Choice} (hc : c ∈ b.choices)
    (hout : surrounds target c = false) (h : p.Hides (b.Beside target)) :
  (p.past c).Hides (b.Beside target)
  := by
  simp only [surrounds, Bool.or_eq_false_iff] at hout
  unfold past
  split
  · exact h
  · split
    · apply h.append rfl (by simpa using .consequent hc hout.1)
    · apply h.append rfl (by simpa using .alternate hc (Or.inr hout.2))

end Outlined.Path

/-- A path hides only what lies beside it. -/
theorem Outlined.hides_pathTo (o : Outlined) (target : Nat) :
  (o.pathTo target).Hides (o.branches.Beside target)
  := by
  unfold pathTo
  apply List.foldlRecOn (motive := Path.Hides (o.branches.Beside target))
  · apply List.foldlRecOn (motive := Path.Hides (o.branches.Beside target))
    · apply List.foldlRecOn (motive := Path.Hides (o.branches.Beside target))
      · intro s hs
        simp at hs
      · intro p hp c hc
        apply Path.hides_towards hc hp
    · intro p hp s hs
      apply Path.hides_through hs hp
  · intro p hp c hc
    obtain ⟨hc, hout⟩ := List.mem_filter.mp hc
    apply Path.hides_past hc (by simpa using hout) hp

/-! ### The view for a target -/

theorem Outlined.striped_viewFor (o : Outlined) (target : Nat) :
  (o.viewFor target).striped = Span.merge (o.pathTo target).striped
  := rfl

/-- The view for a target shows it. -/
theorem Outlined.isStriped_viewFor {o : Outlined} (h : o.branches.Apart) (target : Nat) :
  (o.viewFor target).isStriped target = false
  := by
  rw [View.isStriped, striped_viewFor, Span.any_contains_merge, List.any_eq_false]
  intro s hs
  rw [Bool.not_eq_true]
  exact (o.hides_pathTo target s hs).not_contains h

end Stencil
