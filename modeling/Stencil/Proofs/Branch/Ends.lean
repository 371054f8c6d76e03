import Stencil.Proofs.Branch.Laminar

/-!
# Where branches begin and end

A branch of a choice is a statement, and a group of a switch begins with a case and ends where
another case begins or where the switch ends.  So what holds of the ends of all nodes of a tree
holds of the ends of the branches that are collected from it.  If the statements of each choice
follow each other and the cases of each switch begin one after the other, then branches lie apart.
-/

namespace Stencil

open Script

/-- The span begins and ends at offsets with the property. -/
def Span.EndsAt (P : Nat → Prop) (s : Span) : Prop := P s.start ∧ P s.stop

/-- Every node of the tree begins and ends at offsets with the property. -/
def Script.Node.EndsAt (P : Nat → Prop) (tree : Node) : Prop :=
  ∀ n ∈ tree.preorder, n.span.EndsAt P

variable {P : Nat → Prop}

/-- Groups begin and end at offsets with a property if cases begin and the switch ends there. -/
theorem Switch.endsAt_groupsOf {stop : Nat} {starts : List Nat} (hstarts : ∀ n ∈ starts, P n)
    (hstop : P stop) :
  ∀ g ∈ groupsOf stop starts, g.EndsAt P
  := by
  intro g hg
  obtain ⟨hstart, hend⟩ := ends_of_mem_groupsOf hg
  constructor
  · apply hstarts _ hstart
  · rcases List.mem_append.mp hend with hend | hend
    · apply hstarts _ hend
    · rwa [List.mem_singleton.mp hend]

namespace Script.Node

theorem EndsAt.of_mem_preorder {tree n : Node} (h : tree.EndsAt P) (hn : n ∈ tree.preorder) :
  n.EndsAt P
  := fun m hm => h m (preorder_subset hn hm)

/-- The ends of a tree are those of the node at the top and of its parts. -/
theorem endsAt_iff {n : Node} :
  n.EndsAt P ↔ n.span.EndsAt P ∧ ∀ m ∈ n.parts, m.EndsAt P
  := by
  rw [EndsAt, preorder_eq, List.forall_mem_cons]
  apply and_congr_right'
  constructor
  · intro h m hm k hk
    apply h k (List.mem_flatMap.mpr ⟨m, hm, hk⟩)
  · intro h k hk
    obtain ⟨m, hm, hk⟩ := List.mem_flatMap.mp hk
    apply h m hm k hk

theorem EndsAt.span {n : Node} (h : n.EndsAt P) :
  n.span.EndsAt P
  := (endsAt_iff.mp h).1

theorem EndsAt.part {n m : Node} (h : n.EndsAt P) (hm : m ∈ n.parts) :
  m.span.EndsAt P
  := ((endsAt_iff.mp h).2 m hm).span

/-- The branches of a fork begin and end where nodes do. -/
theorem EndsAt.branches {n : Node} (h : n.EndsAt P) {x : Fork} (hx : n.fork? = some x) :
  ∀ s ∈ x.branches, s.EndsAt P
  := by
  rcases fork?_eq_some hx with ⟨test, consequent, alternate, hkind, rfl⟩
    | ⟨discriminant, cases, starts, hkind, -, hstarts, rfl⟩
  · have hparts : n.parts = [test, consequent, alternate] := parts_of_kind hkind
    have hconsequent := h.part (m := consequent) (by simp [hparts])
    have halternate := h.part (m := alternate) (by simp [hparts])
    simpa using ⟨hconsequent, halternate⟩
  · apply Switch.endsAt_groupsOf
    · intro start hstart
      have hcase := (Switch.sublist_of_groupStarts hstarts).subset hstart
      obtain ⟨m, hm, rfl⟩ := List.mem_map.mp hcase
      exact (h.part (mem_parts_of_case hkind hm)).1
    · exact h.span.2

end Script.Node

/-- A branch is a branch of one of the forks. -/
theorem Branches.exists_fork_of_mem_spans {b : Branches} {s : Span} (hs : s ∈ b.spans) :
  ∃ x ∈ b.forks, s ∈ x.branches
  := by
  rcases List.mem_append.mp hs with hs | hs
  · obtain ⟨c, hc, hs⟩ := List.mem_flatMap.mp hs
    use c.fork, choice_mem_forks hc
    exact hs
  · obtain ⟨w, hw, hs⟩ := List.mem_flatMap.mp hs
    use w.fork, switch_mem_forks hw
    exact hs

/-- The branches of a tree begin and end where nodes do. -/
theorem Branches.endsAt_of_ofTree {source : Text} {tree : Node} {b : Branches}
    (hends : tree.EndsAt P) (h : ofTree source tree = .ok b) :
  ∀ s ∈ b.spans, s.EndsAt P
  := by
  intro s hs
  obtain ⟨x, hx, hs⟩ := exists_fork_of_mem_spans hs
  obtain ⟨n, hn, hfork⟩ := List.mem_filterMap.mp ((collects_of_ofTree h).perm.subset hx)
  apply (hends.of_mem_preorder hn).branches hfork s hs

/-! ### Branches that lie apart -/

namespace Script

/-- The statements of a choice follow each other, and the cases of a switch begin one after the
other. -/
@[reducible] def Kind.Diverges : Kind Node → Prop
  | .ifStatement _ consequent (some alternate) => consequent.span.stop ≤ alternate.span.start
  | .switchStatement _ cases => (cases.map (·.span.start)).Pairwise (· ≤ ·)
  | _ => True

/-- In every choice and every switch of the tree the branches go on from each other. -/
def Node.Diverges (tree : Node) : Prop := ∀ n ∈ tree.preorder, n.kind.Diverges

namespace Node

theorem diverges_iff {n : Node} :
  n.Diverges ↔ n.kind.Diverges ∧ ∀ m ∈ n.parts, m.Diverges
  := by
  rw [Diverges, preorder_eq, List.forall_mem_cons]
  apply and_congr_right'
  constructor
  · intro h m hm k hk
    apply h k (List.mem_flatMap.mpr ⟨m, hm, hk⟩)
  · intro h k hk
    obtain ⟨m, hm, hk⟩ := List.mem_flatMap.mp hk
    apply h m hm k hk

end Node

end Script

/-- Groups follow each other if their beginnings do. -/
theorem Switch.pairwise_groupsOf {stop : Nat} {starts : List Nat} (h : starts.Pairwise (· ≤ ·)) :
  (groupsOf stop starts).Pairwise fun f g => f.stop ≤ g.start
  := by
  fun_induction groupsOf stop starts with
  | case1 => exact List.Pairwise.nil
  | case2 => exact List.pairwise_singleton _ _
  | case3 start next rest ih =>
      obtain ⟨-, hrest⟩ := List.pairwise_cons.mp h
      refine List.pairwise_cons.mpr ⟨?_, ih hrest⟩
      intro g hg
      rcases List.mem_cons.mp (ends_of_mem_groupsOf hg).1 with heq | hmem
      · exact Nat.le_of_eq heq.symm
      · exact (List.pairwise_cons.mp hrest).1 _ hmem

/-- The branches of a fork lie apart if those of its node go on from each other. -/
theorem Script.Node.Diverges.apart {n : Node} (h : n.Diverges) {x : Fork} (hx : n.fork? = some x) :
  x.branches.Pairwise Span.Apart
  := by
  have hkind := (diverges_iff.mp h).1
  rcases fork?_eq_some hx with ⟨test, consequent, alternate, heq, rfl⟩
    | ⟨discriminant, cases, starts, heq, -, hstarts, rfl⟩
  · rw [heq] at hkind
    rw [List.pairwise_pair]
    exact Span.apart_of_stop_le_start hkind
  · rw [heq] at hkind
    have hsorted := hkind.sublist (Switch.sublist_of_groupStarts hstarts)
    exact (Switch.pairwise_groupsOf hsorted).imp Span.apart_of_stop_le_start

/-- The branches of a tree lie apart if those of its choices and switches go on from each other. -/
theorem Branches.apart_of_ofTree {source : Text} {tree : Node} {b : Branches}
    (hdiverges : tree.Diverges) (h : ofTree source tree = .ok b) :
  b.Apart
  := by
  have hforks (x : Fork) (hx : x ∈ b.forks) : x.branches.Pairwise Span.Apart := by
    obtain ⟨n, hn, hfork⟩ := List.mem_filterMap.mp ((collects_of_ofTree h).perm.subset hx)
    have hbelow : n.Diverges := fun m hm => hdiverges m (Node.preorder_subset hn hm)
    exact hbelow.apart hfork
  constructor
  · intro c hc
    exact (List.pairwise_pair).mp (hforks c.fork (choice_mem_forks hc))
  · intro s hs
    exact hforks s.fork (switch_mem_forks hs)

end Stencil
