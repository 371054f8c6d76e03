import Stencil.Proofs.Branch.Fork
import Stencil.Proofs.Script.Nesting

/-!
# The branches of a nested script

The branches that are collected from a tree with nested spans are laminar.  A node of the tree lies
in a part of an earlier node or after its end, and each part of a choice or a switch lies in one of
its branches or outside all of them.
-/

namespace Stencil

open Script

/-! ### Groups of cases -/

namespace Switch

/-- The first of some cases begins a group unless one is open, and the group ends with it exactly
if there is a `break` in it. -/
theorem of_groupStarts_cons {isOpen : Bool} {n : Node} {rest : List Node} {starts : List Nat}
    (h : groupStarts isOpen (n :: rest) = .ok starts) :
  ∃ test body later, n.kind = .switchCase test body
    ∧ groupStarts (!breaksAny body) rest = .ok later
    ∧ starts = if isOpen then later else n.span.start :: later
  := by
  rw [groupStarts] at h
  split at h
  · next test body hkind =>
      cases hrest : groupStarts (!breaksAny body) rest with
      | error e =>
          rw [hrest] at h
          cases h
      | ok later =>
          rw [hrest] at h
          cases h
          exact ⟨test, body, later, hkind, hrest, rfl⟩
  · cases h

/-- Groups begin where cases begin, in the order of the cases. -/
theorem sublist_of_groupStarts {isOpen : Bool} {cases : List Node} {starts : List Nat}
    (h : groupStarts isOpen cases = .ok starts) :
  starts.Sublist (cases.map (·.span.start))
  := by
  induction cases generalizing isOpen starts with
  | nil =>
      cases h
      apply List.Sublist.refl
  | cons n rest ih =>
      obtain ⟨_, _, later, -, hlater, rfl⟩ := of_groupStarts_cons h
      split
      · apply (ih hlater).cons _
      · apply (ih hlater).cons_cons _

/-- The first case begins a group. -/
theorem ne_nil_of_groupStarts {n : Node} {rest : List Node} {starts : List Nat}
    (h : groupStarts false (n :: rest) = .ok starts) :
  starts ≠ []
  := by
  obtain ⟨_, _, later, -, -, rfl⟩ := of_groupStarts_cons h
  simp

theorem groupsOf_ne_nil {stop : Nat} {starts : List Nat} (h : starts ≠ []) :
  groupsOf stop starts ≠ []
  := by
  fun_cases groupsOf stop starts <;> simp at h ⊢

/-- A group begins at one of the given beginnings and ends at another one or at the end of the
last group. -/
theorem ends_of_mem_groupsOf {stop : Nat} {starts : List Nat} {g : Span}
    (h : g ∈ groupsOf stop starts) :
  g.start ∈ starts ∧ g.stop ∈ starts ++ [stop]
  := by
  fun_induction groupsOf stop starts with
  | case1 => simp at h
  | case2 start =>
      rw [List.mem_singleton] at h
      simp [h]
  | case3 start next rest ih =>
      rcases List.mem_cons.mp h with rfl | h
      · simp
      · obtain ⟨hstart, hstop⟩ := ih h
        exact ⟨List.mem_cons_of_mem _ hstart, List.mem_cons_of_mem _ hstop⟩

/-- Groups cover something and follow each other if their beginnings ascend. -/
theorem groupsOf_inOrder {stop : Nat} {starts : List Nat}
    (h : (starts ++ [stop]).Pairwise (· < ·)) :
  (∀ g ∈ groupsOf stop starts, g.start < g.stop)
    ∧ (groupsOf stop starts).Pairwise fun f g => f.stop ≤ g.start
  := by
  fun_induction groupsOf stop starts with
  | case1 => simp
  | case2 start => simpa using h
  | case3 start next rest ih =>
      obtain ⟨hstart, hrest⟩ := List.pairwise_cons.mp h
      obtain ⟨hnonempty, hordered⟩ := ih hrest
      constructor
      · simpa using ⟨hstart next (by simp), hnonempty⟩
      · rw [List.pairwise_cons]
        refine ⟨?_, hordered⟩
        intro g hg
        have hmem := (ends_of_mem_groupsOf hg).1
        rcases List.mem_cons.mp hmem with heq | hmem
        · simp [heq]
        · have := (List.pairwise_cons.mp hrest).1 g.start (by simp [hmem])
          simp only
          omega

end Switch
/-! ### Nodes that branch -/

namespace Script.Node

/-- The fork that a node is. -/
def fork? (n : Node) : Option Fork :=
  match n.kind with
  | .ifStatement _ consequent (some alternate) => some ⟨n.span, [consequent.span, alternate.span]⟩
  | .switchStatement _ cases =>
    match Switch.ofCases? n.span cases with
    | .ok switch => switch.map Switch.fork
    | .error _ => none
  | _ => none

/-- A fork with the span of a node that has proper branches, and none of them cuts through a part
of the node. -/
structure Splits (n : Node) (x : Fork) : Prop where
  span_eq : x.span = n.span
  proper : x.Proper
  inOrOut : ∀ k ∈ n.parts, ∀ s ∈ x.branches, s.encloses k.span = true ∨ s.Apart k.span

variable {n : Node}

theorem Nested.nonempty (h : n.Nested) :
  ∀ m ∈ n.parts, m.span.start < m.span.stop
  := fun _ hm => (h.of_mem_parts hm).fits.nonempty

theorem Nested.splits_choice (h : n.Nested) {test consequent alternate : Node}
    (hkind : n.kind = .ifStatement test consequent (some alternate)) :
  n.Splits ⟨n.span, [consequent.span, alternate.span]⟩
  := by
  have hparts : n.parts = [test, consequent, alternate] := parts_of_kind hkind
  have hnonempty := h.nonempty
  have hinside := h.fits.inside
  have horder := h.fits.inOrder (by simp [isShorthand, hkind])
  simp only [hparts, List.pairwise_cons, List.forall_mem_cons, Span.encloses_iff]
    at hnonempty hinside horder
  constructor
  · rfl
  · constructor
    · simp
    · simp only [List.mem_cons, List.not_mem_nil, or_false, forall_eq_or_imp, forall_eq]
      omega
    · rw [List.pairwise_pair, Span.apart_iff]
      omega
  · simp only [hparts, List.mem_cons, List.not_mem_nil, or_false, forall_eq_or_imp, forall_eq,
      Span.encloses_iff, Span.apart_iff]
    omega

/-- Of two parts in order, the beginning of one does not cut through the other. -/
theorem Nested.start_cuts (h : n.Nested) (hshort : n.isShorthand = false) {m k : Node}
    (hm : m ∈ n.parts) (hk : k ∈ n.parts) :
  k.span.stop ≤ m.span.start ∨ m.span.start ≤ k.span.start
  := by
  have hnonempty := h.nonempty m hm
  have horder := List.pairwise_iff_getElem.mp (h.fits.inOrder hshort)
  obtain ⟨i, hi, rfl⟩ := List.getElem_of_mem hm
  obtain ⟨j, hj, rfl⟩ := List.getElem_of_mem hk
  rcases Nat.lt_trichotomy i j with hij | rfl | hji
  · have := horder i j hi hj hij
    omega
  · omega
  · exact Or.inl (horder j i hj hi hji)

/-! ### Switches -/

section Switch

variable {discriminant : Node} {cases : List Node} {starts : List Nat}
  (hkind : n.kind = .switchStatement discriminant cases)

include hkind

theorem parts_of_switch :
  n.parts = discriminant :: cases
  := by
  rw [parts_of_kind hkind]
  change [discriminant] ++ ((cases.map some).filterMap (fun k => k) ++ []) = discriminant :: cases
  simp

theorem isShorthand_of_switch :
  n.isShorthand = false
  := by
  simp [isShorthand, hkind]

theorem mem_parts_of_case {m : Node} (hm : m ∈ cases) :
  m ∈ n.parts
  := by
  rw [parts_of_switch hkind]
  apply List.mem_cons_of_mem _ hm

/-- A switch begins before its cases. -/
theorem Nested.start_lt_case (h : n.Nested) {m : Node} (hm : m ∈ cases) :
  n.span.start < m.span.start
  := by
  have hnonempty := h.nonempty
  have hinside := h.fits.inside
  have horder := h.fits.inOrder (isShorthand_of_switch hkind)
  rw [parts_of_switch hkind, List.forall_mem_cons] at hnonempty hinside
  rw [parts_of_switch hkind, List.pairwise_cons] at horder
  have hdiscriminant := hinside.1
  have hbefore := horder.1 m hm
  rw [Span.encloses_iff] at hdiscriminant
  omega

/-- The beginnings of the cases ascend up to the end of the switch. -/
theorem Nested.ascending_cases (h : n.Nested) :
  (cases.map (·.span.start) ++ [n.span.stop]).Pairwise (· < ·)
  := by
  have horder := h.fits.inOrder (isShorthand_of_switch hkind)
  rw [parts_of_switch hkind, List.pairwise_cons] at horder
  rw [List.pairwise_append, List.pairwise_map]
  refine ⟨?_, List.pairwise_singleton _ _, ?_⟩
  · apply horder.2.imp_of_mem
    intro m k hm _ hmk
    apply Nat.lt_of_lt_of_le (h.nonempty m (mem_parts_of_case hkind hm)) hmk
  · intro start hstart stop hstop
    obtain ⟨m, hm, rfl⟩ := List.mem_map.mp hstart
    rw [List.mem_singleton] at hstop
    have hnonempty := h.nonempty m (mem_parts_of_case hkind hm)
    have hinside := h.fits.inside m (mem_parts_of_case hkind hm)
    rw [Span.encloses_iff] at hinside
    omega

/-- Neither the beginning of a case nor the end of the switch cuts through a part. -/
theorem Nested.cuts (h : n.Nested) {cut : Nat}
    (hcut : cut ∈ cases.map (·.span.start) ++ [n.span.stop]) {k : Node} (hk : k ∈ n.parts) :
  k.span.stop ≤ cut ∨ cut ≤ k.span.start
  := by
  rcases List.mem_append.mp hcut with hcut | hcut
  · obtain ⟨m, hm, rfl⟩ := List.mem_map.mp hcut
    apply h.start_cuts (isShorthand_of_switch hkind) (mem_parts_of_case hkind hm) hk
  · rw [List.mem_singleton] at hcut
    have hinside := h.fits.inside k hk
    rw [Span.encloses_iff] at hinside
    omega

theorem Nested.splits_switch (h : n.Nested) (hne : cases ≠ [])
    (hstarts : Switch.groupStarts false cases = .ok starts) :
  n.Splits ⟨n.span, Switch.groupsOf n.span.stop starts⟩
  := by
  have hsub := Switch.sublist_of_groupStarts hstarts
  have hcuts := hsub.append (List.Sublist.refl [n.span.stop])
  have hascending := (h.ascending_cases hkind).sublist hcuts
  obtain ⟨hnonempty, horder⟩ := Switch.groupsOf_inOrder hascending
  constructor
  · rfl
  · constructor
    · apply Switch.groupsOf_ne_nil
      obtain ⟨m, rest, rfl⟩ := List.exists_cons_of_ne_nil hne
      apply Switch.ne_nil_of_groupStarts hstarts
    · intro g hg
      obtain ⟨hstart, hstop⟩ := Switch.ends_of_mem_groupsOf hg
      obtain ⟨m, hm, heq⟩ := List.mem_map.mp (hsub.subset hstart)
      have hlt := h.start_lt_case hkind hm
      dsimp only
      refine ⟨by omega, hnonempty g hg, ?_⟩
      rcases List.mem_append.mp hstop with hstop | hstop
      · have := (List.pairwise_append.mp hascending).2.2 _ hstop n.span.stop (by simp)
        omega
      · apply Nat.le_of_eq (List.mem_singleton.mp hstop)
    · apply horder.imp Span.apart_of_stop_le_start
  · intro k hk g hg
    obtain ⟨hstart, hstop⟩ := Switch.ends_of_mem_groupsOf hg
    have hcutStart := h.cuts hkind (hcuts.subset (List.mem_append_left _ hstart)) hk
    have hcutStop := h.cuts hkind (hcuts.subset hstop) hk
    rw [Span.encloses_iff, Span.apart_iff]
    omega

end Switch

/-! ### The forks of a nested tree -/

/-- A fork is a choice with an alternative or a switch with at least two cases. -/
theorem fork?_eq_some {x : Fork} (hx : n.fork? = some x) :
  (∃ test consequent alternate : Node, n.kind = .ifStatement test consequent (some alternate)
      ∧ x = ⟨n.span, [consequent.span, alternate.span]⟩)
    ∨ ∃ (discriminant : Node) (cases : List Node) (starts : List Nat),
        n.kind = .switchStatement discriminant cases ∧ cases ≠ []
          ∧ Switch.groupStarts false cases = .ok starts
          ∧ x = ⟨n.span, Switch.groupsOf n.span.stop starts⟩
  := by
  unfold fork? at hx
  split at hx
  · next test consequent alternate hkind =>
      cases hx
      exact Or.inl ⟨test, consequent, alternate, hkind, rfl⟩
  · next discriminant cases hkind =>
      unfold Switch.ofCases? at hx
      cases hstarts : Switch.groupStarts false cases with
      | error e =>
          rw [hstarts] at hx
          cases hx
      | ok starts =>
          rw [hstarts] at hx
          by_cases hfew : cases.length < 2
          · simp [bind, Except.bind, pure, Except.pure, hfew] at hx
          · have hne : cases ≠ [] := by
              rintro rfl
              simp at hfew
            simp only [bind, Except.bind, pure, Except.pure, hfew, if_false, Option.map_some,
              Option.some.injEq] at hx
            exact Or.inr ⟨discriminant, cases, starts, hkind, hne, hstarts, hx.symm⟩
  · cases hx

/-- The fork of a node splits it. -/
theorem Nested.splits (h : n.Nested) {x : Fork} (hx : n.fork? = some x) :
  n.Splits x
  := by
  rcases fork?_eq_some hx with ⟨_, _, _, hkind, rfl⟩ | ⟨_, _, _, hkind, hne, hstarts, rfl⟩
  · apply h.splits_choice hkind
  · apply h.splits_switch hkind hne hstarts

/-- An identifier is not a fork. -/
theorem fork?_of_name? (h : n.name?.isSome = true) :
  n.fork? = none
  := by
  obtain ⟨id, span, kind⟩ := n
  cases kind with
  | identifier name => rfl
  | _ => simp [name?, kind] at h

/-- The fork of a node is before the forks of the nodes that stand in their places after it. -/
theorem Splits.before {m : Node} {x y : Fork} (hx : n.Splits x) (hy : m.Splits y)
    (hinside : n.Fits) (hname : n.name?.isSome = false) (h : n.Precedes m) :
  x.Before y
  := by
  have hnonempty := hy.proper.nonempty
  rw [hy.span_eq] at hnonempty
  rcases h with hafter | ⟨k, hk, henc⟩ | hidentifier
  · have hlt := hinside.nonempty
    constructor
    · rw [hx.span_eq, hy.span_eq]
      omega
    · intro s hs
      have hwithin := hx.proper.within s hs
      rw [hx.span_eq] at hwithin
      rw [hy.span_eq]
      exact Or.inr (Span.apart_of_stop_le_start (by omega))
  · constructor
    · have hpart := hinside.inside k hk
      rw [hx.span_eq, hy.span_eq]
      rw [Span.encloses_iff] at hpart henc
      omega
    · intro s hs
      rw [hy.span_eq]
      rcases hx.inOrOut k hk s hs with hin | hout
      · exact Or.inl (Span.encloses_trans hin henc)
      · exact Or.inr (hout.mono (Span.encloses_refl s) henc)
  · rw [hidentifier] at hname
    contradiction

/-- The forks of the nodes of a nested tree are proper and in order. -/
theorem Nested.forks_inOrder {tree : Node} (h : tree.Nested) :
  (∀ x ∈ tree.preorder.filterMap fork?, x.Proper)
    ∧ (tree.preorder.filterMap fork?).Pairwise Fork.Before
  := by
  have hsplits (n : Node) (hn : n ∈ tree.preorder) (x : Fork) (hx : n.fork? = some x) :
      n.Splits x :=
    (h.of_mem_preorder hn).splits hx
  constructor
  · intro x hx
    obtain ⟨n, hn, hfork⟩ := List.mem_filterMap.mp hx
    exact (hsplits n hn x hfork).proper
  · rw [List.pairwise_filterMap]
    apply h.pairwise_precedes.imp_of_mem
    intro n m hn hm hprecedes x hx y hy
    have hname : n.name?.isSome = false := by
      by_contra hname
      rw [Bool.not_eq_false] at hname
      rw [fork?_of_name? hname] at hx
      cases hx
    exact (hsplits n hn x hx).before (hsplits m hm y hy) (h n hn) hname hprecedes

end Script.Node

/-! ### Collecting branches -/

namespace Branches

/-- A sequence of two computations succeeds only if both do, one after the other. -/
theorem run_bind_eq_ok {α β : Type} {x : Collect α} {f : α → Collect β}
    {cache cache' : ConditionCache} {b : β}
    (h : (x >>= f).run.run cache = (.ok b, cache')) :
  ∃ a between, x.run.run cache = (.ok a, between) ∧ (f a).run.run between = (.ok b, cache')
  := by
  rw [ExceptT.run_bind, StateT.run_bind] at h
  cases hx : x.run.run cache with
  | mk result between =>
      rw [hx] at h
      cases result with
      | ok a => exact ⟨a, between, rfl, h⟩
      | error e => cases h

/-- Whether a choice is made depends on its parts, and it has their spans. -/
theorem run_choice? {source : Text} {span : Span} {test consequent : Node}
    {alternate : Option Node} {cache : ConditionCache}
    {result : Except BranchError (Option Choice)}
    (h : ((choice? source span test consequent alternate).run.run cache).1 = result) :
  (consequent.isStatement = false ∧ result = .error (.consequent consequent.span))
    ∨ (consequent.isStatement = true ∧ alternate = none ∧ result = .ok none)
    ∨ ∃ a, consequent.isStatement = true ∧ alternate = some a
      ∧ (a.isStatement = false ∧ result = .error (.alternate a.span)
        ∨ a.isStatement = true ∧ ∃ choice : Choice, result = .ok (some choice)
          ∧ choice.fork = ⟨span, [consequent.span, a.span]⟩)
  := by
  unfold choice? at h
  cases hconsequent : consequent.isStatement with
  | false =>
      rw [hconsequent] at h
      cases h
      exact .inl ⟨rfl, rfl⟩
  | true =>
      right
      rw [hconsequent] at h
      cases alternate with
      | none =>
          cases h
          exact .inl ⟨rfl, rfl, rfl⟩
      | some a =>
          right
          use a, rfl, rfl
          cases ha : a.isStatement with
          | false =>
              simp only [ha] at h
              cases h
              exact .inl ⟨rfl, rfl⟩
          | true =>
              simp only [ha] at h
              cases h
              exact .inr ⟨rfl, _, rfl, rfl⟩

/-- A choice that is collected has the spans of the parts of its statement. -/
theorem fork_of_run_choice? {source : Text} {span : Span} {test consequent : Node}
    {alternate : Option Node} {cache cache' : ConditionCache} {choice : Option Choice}
    (h : (choice? source span test consequent alternate).run.run cache = (.ok choice, cache')) :
  choice.map Choice.fork
    = alternate.map fun a => ⟨span, [consequent.span, a.span]⟩
  := by
  rcases run_choice? (congrArg Prod.fst h) with
    ⟨-, hchoice⟩ | ⟨-, rfl, hchoice⟩ | ⟨a, -, rfl, ⟨-, hchoice⟩ | ⟨-, c, hchoice, hfork⟩⟩
  · cases hchoice
  · cases hchoice
    rfl
  · cases hchoice
  · cases hchoice
    exact congrArg some hfork

/-- A computation that asks for no conditions leaves the cache alone. -/
theorem run_liftM {α : Type} (x : Except BranchError α) (cache : ConditionCache) :
  (liftM x : Collect α).run.run cache = (x, cache)
  := by cases x <;> rfl

/-- The branches are the given forks, and the choices among them are in their order. -/
structure Collects (b : Branches) (forks : List Fork) : Prop where
  perm : b.forks.Perm forks
  sublist : (b.choices.map Choice.fork).Sublist forks

namespace Collects

variable {b : Branches} {forks : List Fork}

theorem addChoice (h : b.Collects forks) (choice : Option Choice) :
  Collects { b with choices := choice.toList ++ b.choices }
    ((choice.map Choice.fork).toList ++ forks)
  := by
  have hlist : (choice.toList ++ b.choices).map Choice.fork
      = (choice.map Choice.fork).toList ++ b.choices.map Choice.fork := by
    cases choice <;> rfl
  constructor
  · rw [Branches.forks, hlist, List.append_assoc]
    apply h.perm.append_left
  · rw [hlist]
    apply h.sublist.append_left

theorem addSwitch (h : b.Collects forks) (switch : Option Switch) :
  Collects { b with switches := switch.toList ++ b.switches }
    ((switch.map Switch.fork).toList ++ forks)
  := by
  have hlist : (switch.toList ++ b.switches).map Switch.fork
      = (switch.map Switch.fork).toList ++ b.switches.map Switch.fork := by
    cases switch <;> rfl
  constructor
  · rw [Branches.forks, hlist]
    apply (List.perm_append_comm_assoc _ _ _).trans
    apply h.perm.append_left
  · apply h.sublist.trans
    apply List.sublist_append_right

end Collects

/-- The branches that are collected are the forks of the nodes, and the choices among them are in
the order of the nodes. -/
theorem collects_of_run_ofNodes {source : Text} {nodes : List Node} {cache cache' : ConditionCache}
    {b : Branches} (h : (ofNodes source nodes).run.run cache = (.ok b, cache')) :
  b.Collects (nodes.filterMap Node.fork?)
  := by
  induction nodes generalizing cache b with
  | nil =>
      cases h
      exact ⟨List.Perm.refl _, List.Sublist.refl _⟩
  | cons n rest ih =>
      have hcons : (n :: rest).filterMap Node.fork?
          = n.fork?.toList ++ rest.filterMap Node.fork? := by
        cases hfork : n.fork? <;> simp [hfork]
      rw [hcons]
      unfold ofNodes at h
      split at h
      · next test consequent alternate hkind =>
          obtain ⟨choice, _, hchoice, h⟩ := run_bind_eq_ok h
          obtain ⟨later, _, hlater, h⟩ := run_bind_eq_ok h
          cases h
          have hfork : n.fork? = choice.map Choice.fork := by
            rw [fork_of_run_choice? hchoice]
            cases alternate <;> simp [Node.fork?, hkind]
          rw [hfork]
          apply (ih hlater).addChoice
      · next discriminant cases hkind =>
          obtain ⟨switch, _, hswitch, h⟩ := run_bind_eq_ok h
          obtain ⟨later, _, hlater, h⟩ := run_bind_eq_ok h
          cases h
          rw [run_liftM] at hswitch
          have hfork : n.fork? = switch.map Switch.fork := by
            simp [Node.fork?, hkind, (Prod.mk.inj hswitch).1]
          rw [hfork]
          apply (ih hlater).addSwitch
      · next hif hswitch =>
          have hnone : n.fork? = none := by
            unfold Node.fork?
            split <;> simp_all
          rw [hnone]
          apply ih h

/-- The branches of a tree are the forks of its nodes, and the choices among them are in their
order. -/
theorem collects_of_ofTree {source : Text} {tree : Node} {b : Branches}
    (h : ofTree source tree = .ok b) :
  b.Collects (tree.preorder.filterMap Node.fork?)
  := by
  have hrun : (ofNodes source tree.preorder).run.run {}
      = (.ok b, ((ofNodes source tree.preorder).run.run {}).2) := by
    rw [← h]
    rfl
  apply collects_of_run_ofNodes hrun

/-- The branches of a nested tree are laminar. -/
theorem laminar_of_ofTree {source : Text} {tree : Node} {b : Branches} (hnested : tree.Nested)
    (h : ofTree source tree = .ok b) :
  b.Laminar
  := by
  obtain ⟨hproper, hbefore⟩ := hnested.forks_inOrder
  obtain ⟨hperm, hsub⟩ := collects_of_ofTree h
  constructor
  · intro x hx
    apply hproper x (hperm.subset hx)
  · apply hperm.symm.pairwise (hbefore.imp Or.inl) Or.symm
  · apply List.pairwise_map.mp (hbefore.sublist hsub)

end Branches

end Stencil
