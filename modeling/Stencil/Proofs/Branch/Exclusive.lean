import Stencil.Proofs.Branch.History
import Stencil.Proofs.Branch.Laminar
import Stencil.Proofs.Branch.Steps

/-!
# One branch of each statement is shown

A view hides a statement as a whole, or it shows exactly one of its branches.  The ranges that a
path hides are joined where they touch, so a hidden range of the view may begin or end with another
statement.  But it covers the beginning of a branch only if the path hides the branch, or a range
around the whole statement.
-/

namespace Stencil

/-- A hidden range of the view encloses the span. -/
def View.hides (v : View) (s : Span) : Bool := v.striped.any (·.encloses s)

theorem View.hides_iff {v : View} {s : Span} :
  v.hides s = true ↔ ∃ r ∈ v.striped, r.encloses s = true
  := List.any_eq_true

namespace Outlined

section Laminar

variable {o : Outlined} (h : o.branches.Laminar) {target : Nat} {x : Fork}
  (hx : x ∈ o.branches.forks)

/-- A range that a path hides is a branch of a fork. -/
theorem exists_fork_of_mem_striped {o : Outlined} {target : Nat} {s : Span}
    (hs : s ∈ (o.pathTo target).striped) :
  ∃ y ∈ o.branches.forks, s ∈ y.branches
  := by
  rw [pathTo_eq_along] at hs
  obtain ⟨st, hst, hmem⟩ := Path.exists_step_of_mem_striped hs
  exact ⟨st.fork, (o.forks_steps target).subset (List.mem_map_of_mem hst), hmem⟩

include h hx

/-- A range that a path hides and that holds the beginning of a fork or of one of its branches
encloses the fork, or is a branch of the fork. -/
theorem encloses_or_mem_branches {s : Span} {n : Nat} (hs : s ∈ (o.pathTo target).striped)
    (hn : n ∈ x.begins) (hcontains : s.contains n = true) :
  s.encloses x.span = true ∨ s ∈ x.branches
  := by
  obtain ⟨y, hy, hmem⟩ := exists_fork_of_mem_striped hs
  by_cases heq : x = y
  · rw [heq]
    exact Or.inr hmem
  · have hrelated := h.related.forall hx hy heq
    exact Or.inl
      (hrelated.encloses_of_contains (h.proper x hx) (h.proper y hy) hmem hn hcontains).2

/-- A view hides a fork as a whole if a range that the path hides encloses it. -/
theorem hides_viewFor_fork :
  (o.viewFor target).hides x.span = (o.pathTo target).hides x.span
  := by
  have hnonempty := (h.proper x hx).nonempty
  rw [Bool.eq_iff_iff, View.hides_iff, Path.hides_iff, striped_viewFor]
  constructor
  · rintro ⟨r, hr, henc⟩
    have hcontains := Span.contains_of_encloses henc (Span.contains_start hnonempty)
    obtain ⟨s, hs, hcontains⟩ := Span.exists_contains_of_mem_merge hr hcontains
    use s, hs
    rcases encloses_or_mem_branches h hx hs x.start_mem_begins hcontains with henc | hmem
    · exact henc
    · rw [(h.proper x hx).not_contains_start hmem] at hcontains
      contradiction
  · rintro ⟨s, hs, henc⟩
    have hs' : s.start < s.stop := by
      rw [Span.encloses_iff] at henc
      omega
    obtain ⟨r, hr, henc'⟩ := Span.exists_mem_merge_encloses hs hs'
    exact ⟨r, hr, Span.encloses_trans henc' henc⟩

/-- Of a fork that a view does not hide as a whole, the view hides the branches that the path
hides. -/
theorem hides_viewFor_branch (hshown : (o.viewFor target).hides x.span = false) {s : Span}
    (hs : s ∈ x.branches) :
  (o.viewFor target).hides s = true ↔ s ∈ (o.pathTo target).striped
  := by
  have hnonempty := ((h.proper x hx).within s hs).2.1
  constructor
  · intro hhidden
    rw [View.hides_iff, striped_viewFor] at hhidden
    obtain ⟨r, hr, henc⟩ := hhidden
    have hcontains := Span.contains_of_encloses henc (Span.contains_start hnonempty)
    obtain ⟨k, hk, hcontains⟩ := Span.exists_contains_of_mem_merge hr hcontains
    rcases encloses_or_mem_branches h hx hk (Fork.branch_start_mem_begins hs) hcontains
      with henc | hmem
    · rw [hides_viewFor_fork h hx, ← Bool.not_eq_true, Path.hides_iff] at hshown
      exact absurd ⟨k, hk, henc⟩ hshown
    · rwa [← (h.proper x hx).eq_of_contains_start hs hmem hcontains]
  · intro hmem
    rw [View.hides_iff, striped_viewFor]
    apply Span.exists_mem_merge_encloses hmem hnonempty

/-- A view hides a fork as a whole, or hides all of its branches but one. -/
theorem viewFor_hides_or_keeps (target : Nat) :
  (o.viewFor target).hides x.span = true
    ∨ ∃ kept ∈ x.branches, ∀ s ∈ x.branches, (o.viewFor target).hides s = true ↔ s ≠ kept
  := by
  cases hhidden : (o.viewFor target).hides x.span with
  | true => exact Or.inl rfl
  | false =>
      right
      have hpath := hhidden
      rw [hides_viewFor_fork h hx] at hpath
      obtain ⟨kept, hkept, hiff⟩ :=
        (hides_or_keeps h target hx).resolve_left (by simp [hpath])
      use kept, hkept
      intro s hs
      rw [hides_viewFor_branch h hx hhidden hs, hiff s hs]

/-- A view hides a fork as a whole, or shows exactly one of its branches. -/
theorem countP_shown (target : Nat) :
  (o.viewFor target).hides x.span = true
    ∨ x.branches.countP (!(o.viewFor target).hides ·) = 1
  := by
  apply (viewFor_hides_or_keeps h hx target).imp_right
  rintro ⟨kept, hkept, hiff⟩
  rw [← List.count_eq_one_of_mem (h.proper x hx).nodup hkept, List.count]
  apply List.countP_congr
  intro s hs
  rw [Bool.not_eq_true', ← Bool.not_eq_true, hiff s hs, not_not, beq_iff_eq]

end Laminar

end Outlined

namespace ViewStore

/-- In every view of the store a choice of a nested script is hidden as a whole, or exactly one of
its two branches is hidden; and a switch is hidden as a whole, or exactly one of its groups is not
hidden. -/
theorem one_branch_shown {o : Outlined} {source : Text} {tree : Script.Node}
    (hnested : tree.Nested) (hbranches : Branches.ofTree source tree = .ok o.branches)
    (queries : List Query) :
  ∀ v ∈ after o queries,
    (∀ c ∈ o.branches.choices,
      v.hides c.span = true ∨ v.hides c.consequent = !v.hides c.alternate)
    ∧ (∀ s ∈ o.branches.switches,
      v.hides s.span = true ∨ s.groups.countP (!v.hides ·) = 1)
  := by
  intro v hv
  obtain ⟨target, rfl⟩ := made_after o queries v hv
  have hlaminar := Branches.laminar_of_ofTree hnested hbranches
  constructor
  · intro c hc
    apply (Outlined.countP_shown hlaminar (Branches.choice_mem_forks hc) target).imp_right
    intro hone
    simp only [Choice.fork, List.countP_cons, List.countP_nil] at hone
    cases hconsequent : (o.viewFor target).hides c.consequent <;>
      cases halternate : (o.viewFor target).hides c.alternate <;>
      simp_all
  · intro s hs
    apply Outlined.countP_shown hlaminar (Branches.switch_mem_forks hs) target

end ViewStore

/-- The tree of the program in `Outlined.sample`. -/
def Script.Node.sample : Script.Node :=
  .mk 16 ⟨0, 114⟩ <| .program
    [
      .mk 3 ⟨3, 34⟩ <| .ifStatement
        (.mk 0 ⟨7, 8⟩ (.identifier ['a']))
        (.mk 1 ⟨10, 19⟩ (.blockStatement []))
        (some (.mk 2 ⟨25, 34⟩ (.blockStatement []))),
      .mk 15 ⟨35, 111⟩ <| .ifStatement
        (.mk 5 ⟨39, 41⟩ (.unary "!" (.mk 4 ⟨40, 41⟩ (.identifier ['a']))))
        (.mk 6 ⟨43, 52⟩ (.blockStatement []))
        (some (.mk 14 ⟨58, 111⟩ (.blockStatement
          [
            .mk 13 ⟨60, 109⟩ (.switchStatement (.mk 7 ⟨68, 69⟩ (.identifier ['b']))
              [
                .mk 10 ⟨73, 93⟩ (.switchCase
                  (some (.mk 8 ⟨78, 79⟩ (.literal (.number ['1']) ['1'])))
                  [.mk 9 ⟨87, 93⟩ (.breakStatement none)]),
                .mk 12 ⟨94, 101⟩ (.switchCase
                  (some (.mk 11 ⟨99, 100⟩ (.literal (.number ['2']) ['2']))) [])
              ])
          ])))
    ]

theorem Script.Node.preorder_sample :
  Script.Node.sample.preorder = Script.Node.sample.preorderWithin 7
  := preorder_eq_preorderWithin (by decide +kernel)

theorem Script.Node.nested_sample :
  Script.Node.sample.Nested
  := by
  rw [nested_iff, preorder_sample]
  decide +kernel

theorem Branches.ofTree_sample :
  ofTree Outlined.sample.document .sample = .ok Outlined.sample.branches
  := by
  rw [ofTree, Script.Node.preorder_sample]
  decide +kernel

namespace ViewStore

theorem one_branch_shown_sample :
  Script.Node.sample.Nested
    ∧ Branches.ofTree Outlined.sample.document .sample = .ok Outlined.sample.branches
    ∧ ∀ v ∈ after .sample [.cover 83, .all, .cover 500],
      (∀ c ∈ Outlined.sample.branches.choices,
        v.hides c.span = true ∨ v.hides c.consequent = !v.hides c.alternate)
      ∧ (∀ s ∈ Outlined.sample.branches.switches,
        v.hides s.span = true ∨ s.groups.countP (!v.hides ·) = 1)
  := ⟨Script.Node.nested_sample, Branches.ofTree_sample,
    one_branch_shown Script.Node.nested_sample Branches.ofTree_sample _⟩

end ViewStore

end Stencil
