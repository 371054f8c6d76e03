import Mathlib.Data.List.Basic
import Stencil.Pattern.Basic
import Stencil.Proofs.Text.Bytes

/-!
# The places of a match

A match goes forward in its text from boundary to boundary.  The state of a match that began at
some offset stands at this offset or a later boundary, with the rest of the text ahead of it, and
its groups lie between the two places.  Every pattern leads from such a state to such states
only, so a match that is found lies in the text, and its group lies in the match.
-/

namespace Stencil.Pattern

open Text

variable {t : Text} {first : Nat}

/-! ### States -/

/-- The state of a match that began at the offset `first` of a text. -/
structure State.Within (t : Text) (first : Nat) (s : State) : Prop where
  fromFirst : first ≤ s.pos
  boundary : IsBoundary s.pos t
  ahead : s.rest = onward s.pos t
  groups : ∀ g ∈ s.groups,
    first ≤ g.2.start ∧ g.2.start ≤ g.2.stop ∧ g.2.stop ≤ s.pos ∧ g.2.OnBoundaries t

namespace State.Within

variable {s e : State}

/-- A match begins without groups. -/
theorem initial (prev : Option Char) (h : IsBoundary first t) :
  Within t first ⟨first, prev, onward first t, []⟩
  where
  fromFirst := Nat.le_refl _
  boundary := h
  ahead := rfl
  groups := by simp

/-- Reading a character leads to its end. -/
theorem read (h : s.Within t first) {c : Char} {rest : Text} (hrest : s.rest = c :: rest) :
  Within t first ⟨s.pos + c.utf8Size, some c, rest, s.groups⟩
  := by
  obtain ⟨hboundary, honward⟩ := isBoundary_next h.boundary (h.ahead.symm.trans hrest)
  constructor
  · apply Nat.le_add_right_of_le h.fromFirst
  · exact hboundary
  · exact honward.symm
  · intro g hg
    obtain ⟨hfirst, hforward, hstop, hends⟩ := h.groups g hg
    exact ⟨hfirst, hforward, Nat.le_add_right_of_le hstop, hends⟩

/-- A group that began in an earlier state of the match may be recorded. -/
theorem record (hs : s.Within t first) (he : e.Within t first) (hle : s.pos ≤ e.pos)
    (index : Nat) :
  (e.record index s.pos).Within t first
  := by
  constructor
  · exact he.fromFirst
  · exact he.boundary
  · exact he.ahead
  · intro g hg
    rcases List.mem_cons.mp hg with rfl | hg
    · exact ⟨hs.fromFirst, hle, Nat.le_refl _, hs.boundary, he.boundary⟩
    · apply he.groups g hg

end State.Within

/-! ### The outcomes of a pattern -/

/-- Each of the states comes later in the match than the given one. -/
def Leads (t : Text) (first : Nat) (s : State) (after : List State) : Prop :=
  ∀ e ∈ after, e.Within t first ∧ s.pos ≤ e.pos

theorem Leads.trans {s mid : State} {after : List State} (hle : s.pos ≤ mid.pos)
    (h : Leads t first mid after) :
  Leads t first s after
  := by
  intro e he
  obtain ⟨hwithin, hmore⟩ := h e he
  exact ⟨hwithin, Nat.le_trans hle hmore⟩

theorem leads_self {s : State} (hs : s.Within t first) :
  Leads t first s [s]
  := by
  intro e he
  obtain rfl := List.mem_singleton.mp he
  exact ⟨hs, Nat.le_refl _⟩

section Turns

variable {step : State → List State} {greedy : Bool}

/-- Further turns end where they begin, or begin with a turn. -/
theorem exists_turn {limit : Nat} {s e : State} (h : e ∈ further step greedy limit s) :
  e = s ∨ ∃ more mid, limit = more + 1 ∧ mid ∈ step s ∧ e ∈ further step greedy more mid
  := by
  cases limit with
  | zero => exact .inl (List.mem_singleton.mp h)
  | succ more =>
      have hmem : e = s
          ∨ e ∈ ((step s).filter (·.pos != s.pos)).flatMap (further step greedy more) := by
        unfold further at h
        dsimp only at h
        split at h
        · simpa [or_comm] using h
        · simpa using h
      apply hmem.imp_right
      intro hmore
      obtain ⟨mid, hmid, he⟩ := List.mem_flatMap.mp hmore
      exact ⟨more, mid, rfl, List.mem_of_mem_filter hmid, he⟩

variable (hstep : ∀ s : State, s.Within t first → Leads t first s (step s))

include hstep

/-- Turns that each go forward go forward together. -/
theorem leads_further (limit : Nat) :
    ∀ s : State, s.Within t first → Leads t first s (further step greedy limit s)
  := by
  induction limit with
  | zero =>
      intro s hs
      apply leads_self hs
  | succ limit ih =>
      intro s hs e he
      rcases exists_turn he with rfl | ⟨more, mid, hlimit, hmid, he⟩
      · exact ⟨hs, Nat.le_refl _⟩
      · obtain rfl := Nat.succ.inj hlimit
        obtain ⟨hwithin, hle⟩ := hstep s hs mid hmid
        apply (ih mid hwithin).trans hle e he

/-- One or more turns begin with one, and then go forward. -/
theorem exists_first_turn {s e : State} (hs : s.Within t first) (h : e ∈ repeated step greedy s) :
  ∃ mid ∈ step s, mid.Within t first ∧ s.pos ≤ mid.pos ∧ e.Within t first ∧ mid.pos ≤ e.pos
  := by
  obtain ⟨mid, hmid, he⟩ := List.mem_flatMap.mp h
  obtain ⟨hwithin, hle⟩ := hstep s hs mid hmid
  refine ⟨mid, hmid, hwithin, hle, ?_⟩
  split at he
  · obtain rfl := List.mem_singleton.mp he
    exact ⟨hwithin, Nat.le_refl _⟩
  · apply leads_further hstep _ mid hwithin e he

end Turns

/-- A match goes forward, from boundary to boundary. -/
theorem leads_outcomes (p : Pattern) :
    ∀ s : State, s.Within t first → Leads t first s (outcomes p s)
  := by
  induction p with
  | empty =>
      intro s hs e he
      obtain rfl := List.mem_singleton.mp he
      exact ⟨hs, Nat.le_refl _⟩
  | one set =>
      intro s hs e he
      unfold outcomes at he
      split at he
      · simp at he
      · rename_i c rest hrest
        split at he
        · obtain rfl := List.mem_singleton.mp he
          exact ⟨hs.read hrest, Nat.le_add_right _ _⟩
        · simp at he
  | assert a =>
      intro s hs e he
      unfold outcomes at he
      split at he
      · obtain rfl := List.mem_singleton.mp he
        exact ⟨hs, Nat.le_refl _⟩
      · simp at he
  | seq p q ihp ihq =>
      intro s hs e he
      obtain ⟨mid, hmid, he⟩ := List.mem_flatMap.mp he
      obtain ⟨hwithin, hle⟩ := ihp s hs mid hmid
      obtain ⟨hend, hmore⟩ := ihq mid hwithin e he
      exact ⟨hend, Nat.le_trans hle hmore⟩
  | alt p q ihp ihq =>
      intro s hs e he
      rcases List.mem_append.mp he with h | h
      · apply ihp s hs e h
      · apply ihq s hs e h
  | group index p ih =>
      intro s hs e he
      obtain ⟨last, hlast, rfl⟩ := List.mem_map.mp he
      obtain ⟨hend, hle⟩ := ih s hs last hlast
      exact ⟨hs.record hend hle index, hle⟩
  | option greedy p ih =>
      intro s hs e he
      have hnone : s.Within t first ∧ s.pos ≤ s.pos := ⟨hs, Nat.le_refl _⟩
      unfold outcomes at he
      split at he
      · rcases List.mem_append.mp he with h | h
        · apply ih s hs e h
        · obtain rfl := List.mem_singleton.mp h
          exact hnone
      · rcases List.mem_cons.mp he with rfl | h
        · exact hnone
        · apply ih s hs e h
  | turns greedy p ih =>
      intro s hs e he
      obtain ⟨mid, -, -, hle, hend, hmore⟩ := exists_first_turn ih hs he
      exact ⟨hend, Nat.le_trans hle hmore⟩

/-! ### Matches -/

/-- A match lies in a text from an offset on, and its group lies in the match. -/
structure Match.Placed (t : Text) (first : Nat) (m : Match) : Prop where
  fromFirst : first ≤ m.span.start
  forward : m.span.start ≤ m.span.stop
  onBoundaries : m.span.OnBoundaries t
  code : ∀ code ∈ m.code, m.span.start ≤ code.start ∧ code.start ≤ code.stop
    ∧ code.stop ≤ m.span.stop ∧ code.OnBoundaries t

/-- A match that begins at a boundary is placed. -/
theorem placed_of_matchAt? {p : Pattern} {prev : Option Char} {m : Match}
    (hfirst : IsBoundary first t)
    (h : p.matchAt? ⟨first, prev, onward first t, []⟩ = some m) :
  m.Placed t first
  := by
  rw [matchAt?, Option.map_eq_some_iff] at h
  obtain ⟨e, he, rfl⟩ := h
  obtain ⟨hend, hle⟩ := leads_outcomes p _ (.initial prev hfirst) e (List.mem_of_mem_head? he)
  constructor
  · apply Nat.le_refl _
  · exact hle
  · exact ⟨hfirst, hend.boundary⟩
  · intro code hcode
    obtain ⟨before, after, hgroups, -⟩ := List.lookup_eq_some_iff.mp hcode
    apply hend.groups (1, code) (by simp [hgroups])

/-- The search looks at boundaries only, from left to right. -/
theorem exists_matchAt?_of_findFrom? {p : Pattern} {m : Match} (rest : Text) :
    ∀ {pos : Nat}, IsBoundary pos t → rest = onward pos t →
      p.findFrom? pos (before pos t).getLast? rest = some m →
      ∃ n, pos ≤ n ∧ IsBoundary n t
        ∧ p.matchAt? ⟨n, (before n t).getLast?, onward n t, []⟩ = some m
  := by
  induction rest with
  | nil =>
      intro pos hpos hrest h
      unfold findFrom? at h
      split at h
      · rename_i hmatch
        obtain rfl := Option.some.inj h
        rw [hrest] at hmatch
        exact ⟨pos, Nat.le_refl _, hpos, hmatch⟩
      · simp at h
  | cons c rest ih =>
      intro pos hpos hrest h
      unfold findFrom? at h
      split at h
      · rename_i hmatch
        obtain rfl := Option.some.inj h
        rw [hrest] at hmatch
        exact ⟨pos, Nat.le_refl _, hpos, hmatch⟩
      · obtain ⟨hnext, honward⟩ := isBoundary_next hpos hrest.symm
        have hlast : some c = (before (pos + c.utf8Size) t).getLast? := by
          rw [before_next hpos hrest.symm, List.getLast?_concat]
        dsimp only at h
        rw [hlast] at h
        obtain ⟨n, hle, hn, hmatch⟩ := ih hnext honward.symm h
        exact ⟨n, Nat.le_of_add_right_le hle, hn, hmatch⟩

/-- A match that is found from a boundary on is a match at a boundary after it. -/
theorem exists_matchAt?_of_find? {p : Pattern} {m : Match} (hfirst : IsBoundary first t)
    (h : p.find? t first = some m) :
  ∃ n, first ≤ n ∧ IsBoundary n t ∧ p.matchAt? ⟨n, (before n t).getLast?, onward n t, []⟩ = some m
  := exists_matchAt?_of_findFrom? _ hfirst rfl h

/-- A match that is found from a boundary on lies in the text after it. -/
theorem placed_of_find? {p : Pattern} {m : Match} (hfirst : IsBoundary first t)
    (h : p.find? t first = some m) :
  m.Placed t first
  := by
  obtain ⟨n, hle, hn, hmatch⟩ := exists_matchAt?_of_find? hfirst h
  have hplaced := placed_of_matchAt? hn hmatch
  constructor
  · apply Nat.le_trans hle hplaced.fromFirst
  · exact hplaced.forward
  · exact hplaced.onBoundaries
  · exact hplaced.code

end Stencil.Pattern
