import Mathlib.Data.List.Pairwise
import Stencil.Proofs.Branch.Path

/-!
# Forks

A choice and a switch are forks: spans with branches inside.  Of two forks in a script the later
one lies within one branch of the earlier one, or outside all of its branches.  So where a branch
of one fork holds the beginning of another fork, or the beginning of a branch of another fork, it
encloses that other fork as a whole.
-/

namespace Stencil

namespace Span

/-- The span begins before the other one, or at the same offset and ends after it. -/
def Precedes (s t : Span) : Prop := s.start < t.start ∨ s.start = t.start ∧ t.stop < s.stop

instance decidablePrecedes (s t : Span) : Decidable (s.Precedes t) :=
  inferInstanceAs (Decidable (_ ∨ _))

theorem Precedes.asymm {s t : Span} (h : s.Precedes t) :
  ¬ t.Precedes s
  := by
  unfold Precedes at *
  omega

end Span

/-- A statement that branches, with the spans of its branches. -/
structure Fork where
  span : Span
  branches : List Span
  deriving DecidableEq, Repr

/-- A choice as a fork. -/
def Choice.fork (c : Choice) : Fork := ⟨c.span, [c.consequent, c.alternate]⟩

theorem Choice.consequent_mem_fork {c : Choice} :
  c.consequent ∈ c.fork.branches
  := List.mem_cons_self

theorem Choice.alternate_mem_fork {c : Choice} :
  c.alternate ∈ c.fork.branches
  := List.mem_cons_of_mem _ List.mem_cons_self

/-- A switch as a fork. -/
def Switch.fork (s : Switch) : Fork := ⟨s.span, s.groups⟩

namespace Fork

/-- There is a branch, each branch covers something and lies within the fork, after its beginning,
and no two branches share an offset. -/
structure Proper (x : Fork) : Prop where
  hasBranch : x.branches ≠ []
  within : ∀ s ∈ x.branches, x.span.start < s.start ∧ s.start < s.stop ∧ s.stop ≤ x.span.stop
  apart : x.branches.Pairwise Span.Apart

/-- A fork begins no earlier than another one and lies in one of its branches or outside all of
them. -/
structure Before (x y : Fork) : Prop where
  start_le : x.span.start ≤ y.span.start
  inOrOut : ∀ s ∈ x.branches, s.encloses y.span = true ∨ s.Apart y.span

/-- One of the forks is before the other. -/
def Related (x y : Fork) : Prop := x.Before y ∨ y.Before x

instance symmRelated : Std.Symm Related := ⟨fun _ _ => Or.symm⟩

/-- The offsets at which a fork and its branches begin. -/
def begins (x : Fork) : List Nat := x.span.start :: x.branches.map (·.start)

theorem start_mem_begins (x : Fork) :
  x.span.start ∈ x.begins
  := List.mem_cons_self

theorem branch_start_mem_begins {x : Fork} {s : Span} (hs : s ∈ x.branches) :
  s.start ∈ x.begins
  := List.mem_cons_of_mem _ (List.mem_map_of_mem hs)

variable {x y : Fork} {s : Span} {n : Nat}

/-! ### One fork -/

theorem Proper.nonempty (h : x.Proper) :
  x.span.start < x.span.stop
  := by
  obtain ⟨s, hs⟩ := List.exists_mem_of_ne_nil _ h.hasBranch
  have hs := h.within s hs
  omega

/-- The beginnings of a fork and of its branches lie within the fork. -/
theorem Proper.contains_begins (h : x.Proper) (hn : n ∈ x.begins) :
  x.span.contains n = true
  := by
  rw [Span.contains_iff]
  rw [begins, List.mem_cons, List.mem_map] at hn
  rcases hn with rfl | ⟨s, hs, rfl⟩
  · exact ⟨Nat.le_refl _, h.nonempty⟩
  · have hs := h.within s hs
    omega

theorem Proper.encloses (h : x.Proper) (hs : s ∈ x.branches) :
  x.span.encloses s = true
  := by
  have hs := h.within s hs
  rw [Span.encloses_iff]
  omega

/-- No branch holds the beginning of its fork. -/
theorem Proper.not_contains_start (h : x.Proper) (hs : s ∈ x.branches) :
  s.contains x.span.start = false
  := by
  have hs := h.within s hs
  rw [← Bool.not_eq_true, Span.contains_iff]
  omega

/-- The only branch that holds the beginning of a branch is that branch itself. -/
theorem Proper.eq_of_contains_start (h : x.Proper) {t : Span} (hs : s ∈ x.branches)
    (ht : t ∈ x.branches) (hcontains : t.contains s.start = true) :
  t = s
  := by
  by_contra hne
  have hapart := h.apart.forall ht hs hne
  apply hapart _ hcontains (Span.contains_start (h.within s hs).2.1)

theorem Proper.nodup (h : x.Proper) :
  x.branches.Nodup
  := by
  apply h.apart.imp_of_mem
  rintro s t hs ht hapart rfl
  have hs := Span.contains_start (h.within s hs).2.1
  apply hapart _ hs hs

/-! ### Two forks -/

/-- A branch of the earlier fork that shares an offset with the later one encloses it. -/
theorem Before.encloses (h : x.Before y) (hs : s ∈ x.branches) (hn : y.span.contains n = true)
    (hcontains : s.contains n = true) :
  s.encloses y.span = true
  := by
  rcases h.inOrOut s hs with henc | hapart
  · exact henc
  · exact absurd hn (hapart n hcontains)

/-- No branch of the later fork holds the beginning of the earlier one or of one of its
branches. -/
theorem Before.not_contains_begins (h : x.Before y) (hx : x.Proper) (hy : y.Proper)
    (hs : s ∈ y.branches) (hn : n ∈ x.begins) :
  s.contains n = false
  := by
  have hstart := h.start_le
  have hwithin := hy.within s hs
  by_contra hcontains
  rw [Bool.not_eq_false] at hcontains
  rw [begins, List.mem_cons, List.mem_map] at hn
  rcases hn with rfl | ⟨k, hk, rfl⟩
  · rw [Span.contains_iff] at hcontains
    omega
  -- the branch of the earlier fork would share its beginning with the later fork, and enclose it
  · have henc := h.encloses hk (Span.contains_of_encloses (hy.encloses hs) hcontains)
      (Span.contains_start (hx.within k hk).2.1)
    rw [Span.encloses_iff] at henc
    rw [Span.contains_iff] at hcontains
    omega

/-- A branch of a fork that holds the beginning of another fork or of one of its branches encloses
the other fork, which is later. -/
theorem Related.encloses_of_contains (h : x.Related y) (hx : x.Proper) (hy : y.Proper)
    (hs : s ∈ y.branches) (hn : n ∈ x.begins) (hcontains : s.contains n = true) :
  y.Before x ∧ s.encloses x.span = true
  := by
  rcases h with h | h
  · rw [h.not_contains_begins hx hy hs hn] at hcontains
    contradiction
  · exact ⟨h, h.encloses hs (hx.contains_begins hn) hcontains⟩

/-- Two forks have no branch in common. -/
theorem Related.notMem_branches (h : x.Related y) (hx : x.Proper) (hy : y.Proper)
    (hs : s ∈ x.branches) :
  s ∉ y.branches
  := by
  intro hs'
  have hstart := Span.contains_start (hx.within s hs).2.1
  -- the common branch would enclose the later fork, which begins before it
  obtain ⟨-, henc⟩ :=
    h.encloses_of_contains hx hy hs' (branch_start_mem_begins hs) hstart
  have hwithin := hx.within s hs
  rw [Span.encloses_iff] at henc
  omega

/-- The earlier one of two forks begins earlier, or at the same offset and ends later. -/
theorem Before.precedes (h : x.Before y) (hx : x.Proper) (hy : y.Proper) :
  x.span.Precedes y.span
  := by
  obtain ⟨s, hs⟩ := List.exists_mem_of_ne_nil _ hx.hasBranch
  have hstart := h.start_le
  have hnonempty := hy.nonempty
  have hwithin := hx.within s hs
  have hplace := h.inOrOut s hs
  rw [Span.encloses_iff, Span.apart_iff] at hplace
  unfold Span.Precedes
  omega

end Fork

namespace Branches

/-- The choices and the switches as forks. -/
def forks (b : Branches) : List Fork := b.choices.map Choice.fork ++ b.switches.map Switch.fork

/-- The branches of a script with nested statements: of two forks one is before the other, and the
choices are in their order. -/
structure Laminar (b : Branches) : Prop where
  proper : ∀ x ∈ b.forks, x.Proper
  related : b.forks.Pairwise Fork.Related
  choices : b.choices.Pairwise fun c d => c.fork.Before d.fork

variable {b : Branches}

theorem choice_mem_forks {c : Choice} (hc : c ∈ b.choices) :
  c.fork ∈ b.forks
  := List.mem_append_left _ (List.mem_map_of_mem hc)

theorem switch_mem_forks {s : Switch} (hs : s ∈ b.switches) :
  s.fork ∈ b.forks
  := List.mem_append_right _ (List.mem_map_of_mem hs)

/-- The branches of a script with nested statements share no offset. -/
theorem Laminar.apart (h : b.Laminar) :
  b.Apart
  where
    choices _ hc := List.pairwise_pair.mp (h.proper _ (choice_mem_forks hc)).apart
    switches _ hs := (h.proper _ (switch_mem_forks hs)).apart

end Branches

end Stencil
