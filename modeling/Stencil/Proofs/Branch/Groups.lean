import Stencil.Proofs.Branch.Laminar

/-!
# Groups of cases

The groups of a switch are consecutive ranges, from the beginning of its first case to its end.
Where a group ends is told by the cases: the beginning of a case is the beginning of a group
exactly if there is a `break` in the case before it, either directly or within nested blocks.  As
a group holds no beginning but its own, two neighbouring cases share a group if there is none.
-/

namespace Stencil

open Script

/-! ### Breaks -/

namespace Script

/-- The node is a case of a switch. -/
def Node.IsCase (n : Node) : Prop := ∃ test body, n.kind = .switchCase test body

/-- One of the statements is a `break`, or a block that holds one. -/
inductive HoldsBreak : List Node → Prop where
  | here {body : List Node} {n : Node} {label : Option Node} (hn : n ∈ body)
      (hkind : n.kind = .breakStatement label) : HoldsBreak body
  | inBlock {body inner : List Node} {n : Node} (hn : n ∈ body)
      (hkind : n.kind = .blockStatement inner) (h : HoldsBreak inner) : HoldsBreak body

theorem breaksAny_eq_any (body : List Node) :
  breaksAny body = body.any Node.breaks
  := by
  induction body with
  | nil => rfl
  | cons n rest ih => rw [breaksAny, ih, List.any_cons]

theorem Node.breaks_iff {n : Node} :
  n.breaks = true ↔ (∃ label, n.kind = .breakStatement label)
    ∨ ∃ inner, n.kind = .blockStatement inner ∧ breaksAny inner = true
  := by
  obtain ⟨id, span, kind⟩ := n
  cases kind <;> simp [Node.breaks, Node.kind]

theorem holdsBreak_of_breaksAny {body : List Node} (h : breaksAny body = true) :
  HoldsBreak body
  := by
  rw [breaksAny_eq_any, List.any_eq_true] at h
  obtain ⟨n, hn, hbreaks⟩ := h
  rcases Node.breaks_iff.mp hbreaks with ⟨label, hkind⟩ | ⟨inner, hkind, hinner⟩
  · apply HoldsBreak.here hn hkind
  · apply HoldsBreak.inBlock hn hkind (holdsBreak_of_breaksAny hinner)
  termination_by sizeOf body
  decreasing_by
    have hlt := List.sizeOf_lt_of_mem hn
    obtain ⟨id, span, kind⟩ := n
    cases hkind
    simp only [Node.mk.sizeOf_spec, Kind.blockStatement.sizeOf_spec] at hlt
    omega

theorem breaksAny_iff {body : List Node} :
  breaksAny body = true ↔ HoldsBreak body
  := by
  constructor
  · apply holdsBreak_of_breaksAny
  · intro h
    induction h with
    | here hn hkind =>
        rw [breaksAny_eq_any, List.any_eq_true]
        exact ⟨_, hn, Node.breaks_iff.mpr (.inl ⟨_, hkind⟩)⟩
    | inBlock hn hkind _ ih =>
        rw [breaksAny_eq_any, List.any_eq_true]
        exact ⟨_, hn, Node.breaks_iff.mpr (.inr ⟨_, hkind, ih⟩)⟩

instance HoldsBreak.decidable (body : List Node) : Decidable (HoldsBreak body) :=
  decidable_of_iff _ breaksAny_iff

end Script

/-! ### Where groups begin -/

namespace Switch

variable {isOpen : Bool} {cases before after rest : List Node} {m k : Node} {starts : List Nat}
  {stop : Nat}

/-- The groups can be told if all the nodes are cases. -/
theorem isCase_of_groupStarts (h : groupStarts isOpen cases = .ok starts) :
  ∀ m ∈ cases, m.IsCase
  := by
  induction cases generalizing isOpen starts with
  | nil => simp
  | cons m rest ih =>
      obtain ⟨test, body, later, hkind, hlater, -⟩ := of_groupStarts_cons h
      exact List.forall_mem_cons.mpr ⟨⟨test, body, hkind⟩, ih hlater⟩

/-- If the groups cannot be told, this is because of the first node that is not a case. -/
theorem exists_of_groupStarts_eq_error {e : BranchError}
    (h : groupStarts isOpen cases = .error e) :
  ∃ before m after, cases = before ++ m :: after ∧ (∀ k ∈ before, k.IsCase) ∧ ¬ m.IsCase
    ∧ e = .switchCase m.span
  := by
  induction cases generalizing isOpen with
  | nil => cases h
  | cons m rest ih =>
      rw [groupStarts] at h
      split at h
      · next test body hkind =>
          cases hrest : groupStarts (!breaksAny body) rest with
          | ok later =>
              rw [hrest] at h
              cases h
          | error e' =>
              rw [hrest] at h
              cases h
              obtain ⟨before, k, after, rfl, hbefore, hk, rfl⟩ := ih hrest
              use m :: before, k, after, rfl
              exact ⟨List.forall_mem_cons.mpr ⟨⟨test, body, hkind⟩, hbefore⟩, hk, rfl⟩
      · next hkind =>
          cases h
          refine ⟨[], m, rest, rfl, by simp, ?_, rfl⟩
          rintro ⟨test, body, hcase⟩
          exact hkind test body hcase

theorem exists_groupStarts (isOpen : Bool) (hcases : ∀ m ∈ cases, m.IsCase) :
  ∃ starts, groupStarts isOpen cases = .ok starts
  := by
  cases h : groupStarts isOpen cases with
  | ok starts => exact ⟨starts, rfl⟩
  | error e =>
      obtain ⟨before, m, after, rfl, -, hm, -⟩ := exists_of_groupStarts_eq_error h
      exact absurd (hcases m (by simp)) hm

/-- A case begins a group exactly if there is a `break` in the case before it, provided that the
cases begin one after the other. -/
theorem start_mem_groupStarts_iff (h : groupStarts isOpen (before ++ m :: k :: after) = .ok starts)
    (hascending : ((before ++ m :: k :: after).map (·.span.start)).Pairwise (· < ·))
    {test : Option Node} {body : List Node} (hkind : m.kind = .switchCase test body) :
  k.span.start ∈ starts ↔ HoldsBreak body
  := by
  induction before generalizing isOpen starts with
  | nil =>
      obtain ⟨_, _, later, hm, hlater, rfl⟩ := of_groupStarts_cons h
      cases hkind.symm.trans hm
      obtain ⟨_, _, last, -, hlast, rfl⟩ := of_groupStarts_cons hlater
      rw [List.nil_append, List.map_cons, List.map_cons, List.pairwise_cons, List.pairwise_cons]
        at hascending
      obtain ⟨hm, hk, -⟩ := hascending
      have hmk : k.span.start ≠ m.span.start := Nat.ne_of_gt (hm _ List.mem_cons_self)
      have hnot : k.span.start ∉ last := fun hmem =>
        Nat.lt_irrefl _ (hk _ ((sublist_of_groupStarts hlast).subset hmem))
      rw [← breaksAny_iff]
      cases isOpen <;> cases breaksAny body <;> simp [hmk, hnot]
  | cons n before ih =>
      obtain ⟨_, _, later, -, hlater, rfl⟩ := of_groupStarts_cons h
      rw [List.cons_append, List.map_cons, List.pairwise_cons] at hascending
      obtain ⟨hn, hrest⟩ := hascending
      have hnk : k.span.start ≠ n.span.start := Nat.ne_of_gt (hn _ (by simp))
      rw [← ih hlater hrest]
      cases isOpen <;> simp [hnk]

/-! ### From beginnings to groups -/

/-- Groups are consecutive if their beginnings ascend. -/
theorem consecutive_groupsOf {start : Nat} (h : (start :: starts ++ [stop]).Pairwise (· < ·)) :
  Span.Consecutive start stop (groupsOf stop (start :: starts))
  := by
  induction starts generalizing start with
  | nil =>
      apply Span.Consecutive.cons _ .nil
      simpa using h
  | cons next rest ih =>
      obtain ⟨hstart, hrest⟩ := List.pairwise_cons.mp h
      apply Span.Consecutive.cons (hstart next List.mem_cons_self) (ih hrest)

/-- No group begins within another one. -/
theorem le_or_le_of_mem_groupsOf (h : starts.Pairwise (· < ·)) {g : Span}
    (hg : g ∈ groupsOf stop starts) :
  ∀ n ∈ starts, n ≤ g.start ∨ g.stop ≤ n
  := by
  fun_induction groupsOf stop starts with
  | case1 => simp
  | case2 start =>
      obtain rfl := List.mem_singleton.mp hg
      simp
  | case3 start next rest ih =>
      obtain ⟨hstart, hrest⟩ := List.pairwise_cons.mp h
      intro n hn
      rcases List.mem_cons.mp hg with rfl | hlater
      · rcases List.mem_cons.mp hn with rfl | hn
        · exact .inl (Nat.le_refl _)
        · rcases List.mem_cons.mp hn with rfl | hn
          · exact .inr (Nat.le_refl _)
          · exact .inr (Nat.le_of_lt ((List.pairwise_cons.mp hrest).1 n hn))
      · rcases List.mem_cons.mp hn with rfl | hn
        · exact .inl (Nat.le_of_lt (hstart _ (ends_of_mem_groupsOf hlater).1))
        · apply ih hrest hlater n hn

/-- Two neighbouring cases stand in the same group exactly if the second one does not begin a
group. -/
theorem exists_group_iff {start : Nat}
    (hstarts : (start :: starts).Sublist ((before ++ m :: k :: after).map (·.span.start)))
    (hascending : ((before ++ m :: k :: after).map (·.span.start) ++ [stop]).Pairwise (· < ·))
    (hm : start ≤ m.span.start) :
  (∃ g ∈ groupsOf stop (start :: starts), g.contains m.span.start = true
      ∧ g.contains k.span.start = true)
    ↔ k.span.start ∉ start :: starts
  := by
  have hsub := hascending.sublist (hstarts.append (List.Sublist.refl [stop]))
  simp only [List.map_append, List.map_cons, List.append_assoc, List.cons_append,
    List.pairwise_append, List.pairwise_cons] at hascending
  obtain ⟨-, ⟨hmk, hk, -⟩, hbefore⟩ := hascending
  have hmk := hmk k.span.start List.mem_cons_self
  have hstop := hk stop (by simp)
  constructor
  · rintro ⟨g, hg, hgm, hgk⟩ hmem
    have hcut := le_or_le_of_mem_groupsOf (List.pairwise_append.mp hsub).1 hg _ hmem
    rw [Span.contains_iff] at hgm hgk
    omega
  · intro hnot
    obtain ⟨g, hg, hgm⟩ := (consecutive_groupsOf hsub).exists_contains hm (by omega)
    use g, hg, hgm
    rw [Span.contains_iff] at hgm ⊢
    refine ⟨by omega, ?_⟩
    -- the group ends behind `m`, where a case begins or the switch ends, but not with `k`
    obtain ⟨-, hend⟩ := ends_of_mem_groupsOf hg
    rcases List.mem_append.mp hend with hend | hend
    · have hne : g.stop ≠ k.span.start := by
        rintro heq
        rw [heq] at hend
        exact hnot hend
      have hcase := hstarts.subset hend
      rw [List.map_append, List.mem_append, List.map_cons, List.map_cons, List.mem_cons,
        List.mem_cons] at hcase
      rcases hcase with hcase | hcase | hcase | hcase
      · have := hbefore _ hcase m.span.start List.mem_cons_self
        omega
      · omega
      · exact absurd hcase hne
      · exact hk _ (List.mem_append_left _ hcase)
    · rw [List.mem_singleton.mp hend]
      exact hstop

/-- The groups of a switch with at least two cases, which begin one after the other before the end
of the switch, are consecutive ranges from the beginning of the first case to the end of the
switch.  Each of them begins where a case begins, and two neighbouring cases stand in the same
group exactly if there is no `break` in the first one, neither directly nor within nested
blocks. -/
theorem groups_ofCases? {span : Span} (hmany : 2 ≤ cases.length) (hcases : ∀ m ∈ cases, m.IsCase)
    (hascending : (cases.map (·.span.start)).Pairwise (· < ·))
    (hinside : ∀ m ∈ cases, m.span.start < span.stop) :
  ∃ s, ofCases? span cases = .ok (some s) ∧ s.span = span
    ∧ (∀ first ∈ cases.head?, Span.Consecutive first.span.start span.stop s.groups)
    ∧ (∀ g ∈ s.groups, ∃ m ∈ cases, g.start = m.span.start)
    ∧ ∀ before m k after test body, cases = before ++ m :: k :: after →
      m.kind = .switchCase test body →
      ((∃ g ∈ s.groups, g.contains m.span.start = true ∧ g.contains k.span.start = true)
        ↔ ¬ HoldsBreak body)
  := by
  have hends : (cases.map (·.span.start) ++ [span.stop]).Pairwise (· < ·) := by
    rw [List.pairwise_append]
    refine ⟨hascending, List.pairwise_singleton _ _, ?_⟩
    simpa using hinside
  obtain ⟨starts, hstarts⟩ := exists_groupStarts false hcases
  have hsub := sublist_of_groupStarts hstarts
  obtain ⟨first, rest, rfl⟩ := List.exists_cons_of_length_pos (Nat.lt_of_lt_of_le Nat.two_pos hmany)
  obtain ⟨_, _, later, -, -, rfl⟩ := of_groupStarts_cons hstarts
  rw [if_neg Bool.false_ne_true] at hstarts hsub
  refine ⟨⟨span, groupsOf span.stop (first.span.start :: later)⟩, ?_, rfl, ?consecutive,
    ?beginnings, ?neighbours⟩
  · rw [ofCases?, hstarts]
    simp only [bind, Except.bind, pure, Except.pure, Nat.not_lt.mpr hmany, if_false]
  case consecutive =>
    intro n hn
    obtain rfl := Option.some.inj hn
    apply consecutive_groupsOf
    exact hends.sublist (hsub.append (List.Sublist.refl _))
  case beginnings =>
    intro g hg
    obtain ⟨m, hm, heq⟩ := List.mem_map.mp (hsub.subset (ends_of_mem_groupsOf hg).1)
    exact ⟨m, hm, heq.symm⟩
  case neighbours =>
    intro before m k after test body hsplit hkind
    have hfirst : first.span.start ≤ m.span.start := by
      have hm : m ∈ first :: rest := by simp [hsplit]
      rcases List.mem_cons.mp hm with rfl | hm
      · apply Nat.le_refl
      · exact Nat.le_of_lt ((List.pairwise_cons.mp hascending).1 _ (List.mem_map_of_mem hm))
    rw [hsplit] at hstarts hsub hends hascending
    rw [exists_group_iff hsub hends hfirst, start_mem_groupStarts_iff hstarts hascending hkind]

/-- A case with the given beginning and body. -/
def caseAt (start : Nat) (body : List Node) : Node :=
  .mk 0 ⟨start, start + 10⟩ (.switchCase none body)

/-- A block. -/
def blockOf (body : List Node) : Node := .mk 0 ⟨0, 0⟩ (.blockStatement body)

/-- A `break`. -/
def leave : Node := .mk 0 ⟨0, 0⟩ (.breakStatement none)

/-- A loop that is left at once. -/
def loop : Node := .mk 0 ⟨0, 0⟩ (.forStatement none none none leave)

/-- A body with a `break` in a block in a block. -/
def breaking : List Node := [blockOf [blockOf [], blockOf [loop, leave]]]

/-- A body in which a `break` leaves nothing but loops. -/
def looping : List Node := [loop, blockOf [loop]]

/-- Four cases, of which only the second one does not run on into the next one. -/
def fourCases : List Node := [caseAt 10 [], caseAt 20 breaking, caseAt 30 looping, caseAt 40 []]

theorem groups_ofCases?_fourCases :
  2 ≤ fourCases.length ∧ (∀ m ∈ fourCases, m.IsCase)
    ∧ (fourCases.map (·.span.start)).Pairwise (· < ·) ∧ (∀ m ∈ fourCases, m.span.start < 50)
    ∧ ∃ s, ofCases? ⟨0, 50⟩ fourCases = .ok (some s) ∧ s.groups = [⟨10, 30⟩, ⟨30, 50⟩]
      ∧ Span.Consecutive 10 50 s.groups
      ∧ HoldsBreak breaking
      ∧ ((∃ g ∈ s.groups, g.contains 20 = true ∧ g.contains 30 = true) ↔ ¬ HoldsBreak breaking)
      ∧ ¬ HoldsBreak looping
      ∧ ((∃ g ∈ s.groups, g.contains 30 = true ∧ g.contains 40 = true) ↔ ¬ HoldsBreak looping)
  := by
  have hcases : ∀ m ∈ fourCases, m.IsCase := by
    simp only [fourCases, List.forall_mem_cons, List.not_mem_nil, false_implies, implies_true,
      and_true]
    exact ⟨⟨_, _, rfl⟩, ⟨_, _, rfl⟩, ⟨_, _, rfl⟩, ⟨_, _, rfl⟩⟩
  have hascending : (fourCases.map (·.span.start)).Pairwise (· < ·) := by decide
  have hinside : ∀ m ∈ fourCases, m.span.start < 50 := by simp [fourCases, caseAt, Node.span]
  have hgroups : (ofCases? ⟨0, 50⟩ fourCases).toOption.map (·.map (·.groups))
      = some (some [⟨10, 30⟩, ⟨30, 50⟩]) := by
    decide
  obtain ⟨s, hs, -, hconsecutive, -, hneighbours⟩ :=
    @groups_ofCases? fourCases ⟨0, 50⟩ (by decide) hcases hascending hinside
  rw [hs] at hgroups
  refine ⟨by decide, hcases, hascending, hinside, s, hs,
    Option.some.inj (Option.some.inj hgroups), hconsecutive _ rfl, by decide, ?_, by decide, ?_⟩
  · exact hneighbours [_] _ _ [_] none _ rfl rfl
  · exact hneighbours [_, _] _ _ [] none _ rfl rfl

end Switch

end Stencil
