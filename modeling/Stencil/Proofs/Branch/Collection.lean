import Mathlib.Data.List.Forall2
import Stencil.Proofs.Branch.Groups
import Stencil.Proofs.Script.Numbering

/-!
# The collection of branches

Branches are collected node by node.  What one node adds is told by its kind: a choice with an
alternative adds itself, a switch with at least two cases adds itself, and any other node adds
nothing; but a choice with a part that is not a statement and a switch with a part that is not a
case, whether they would add something or not, are malformed, and there the collection ends.  So
the outcome for a tree is that of its first malformed node, or else one entry for each node that
adds something.  A walk through the tree comes to the same outcome.
-/

namespace Stencil

open Script

namespace Script.Node

variable {n : Node}

/-! ### Kinds of nodes -/

/-- The node lies in the tree: it is the node at the top or lies in one of the fields of a node
that does. -/
inductive Contains : Node → Node → Prop where
  | top {n : Node} : Contains n n
  | inPart {n m k : Node} (hm : m ∈ n.kind.parts) (h : Contains m k) : Contains n k

/-- The nodes that are visited are all the nodes of a tree. -/
theorem mem_preorder_iff {tree : Node} :
  n ∈ tree.preorder ↔ tree.Contains n
  := by
  constructor
  · intro h
    induction tree using inductionOnParts with
    | step tree ih =>
        rw [preorder_eq, List.mem_cons, List.mem_flatMap] at h
        rcases h with rfl | ⟨m, hm, h⟩
        · exact .top
        · have hpart := ih m hm h
          rw [parts_eq] at hm
          exact .inPart hm hpart
  · intro h
    induction h with
    | @top n => apply self_mem_preorder
    | @inPart n m k hm _ ih =>
        rw [← parts_eq] at hm
        apply preorder_subset_of_mem_parts hm ih

/-- The node is a choice with an alternative. -/
def isChoice (n : Node) : Bool :=
  match n.kind with
  | .ifStatement _ _ (some _) => true
  | _ => false

/-- The node is a switch with at least two cases. -/
def isSwitch (n : Node) : Bool :=
  match n.kind with
  | .switchStatement _ cases => 2 ≤ cases.length
  | _ => false

/-- The node is a choice between parts that are not all statements, or a switch between parts that
are not all cases. -/
def IsMalformed (n : Node) : Prop :=
  match n.kind with
  | .ifStatement _ consequent alternate =>
    consequent.isStatement = false ∨ ∃ a ∈ alternate, a.isStatement = false
  | .switchStatement _ cases => ∃ m ∈ cases, ¬ m.IsCase
  | _ => False

/-- What is wrong with a node.  Of the parts of a choice the consequent counts first, and of the
parts of a switch the first one that is not a case. -/
inductive HasError : Node → BranchError → Prop where
  | consequent {n test consequent : Node} {alternate : Option Node}
      (hkind : n.kind = .ifStatement test consequent alternate)
      (h : consequent.isStatement = false) : HasError n (.consequent consequent.span)
  | alternate {n test consequent alternate : Node}
      (hkind : n.kind = .ifStatement test consequent (some alternate))
      (hconsequent : consequent.isStatement = true) (h : alternate.isStatement = false) :
      HasError n (.alternate alternate.span)
  | switchCase {n discriminant m : Node} {before after : List Node}
      (hkind : n.kind = .switchStatement discriminant (before ++ m :: after))
      (hbefore : ∀ k ∈ before, k.IsCase) (h : ¬ m.IsCase) : HasError n (.switchCase m.span)

theorem HasError.isMalformed {e : BranchError} (h : n.HasError e) :
  n.IsMalformed
  := by
  cases h with
  | consequent hkind h => simp [IsMalformed, hkind, h]
  | alternate hkind _ h => simp [IsMalformed, hkind, h]
  | @switchCase discriminant m before after hkind _ h =>
      rw [IsMalformed, hkind]
      use m, by simp

end Script.Node

/-- The choice has the spans of a node with an alternative. -/
def Choice.IsOf (n : Node) (c : Choice) : Prop :=
  ∃ test consequent alternate, n.kind = .ifStatement test consequent (some alternate)
    ∧ c.span = n.span ∧ c.consequent = consequent.span ∧ c.alternate = alternate.span

/-- The switch has the span of a node and the groups of its cases. -/
def Switch.IsOf (n : Node) (s : Switch) : Prop :=
  ∃ discriminant cases, n.kind = .switchStatement discriminant cases ∧ s.span = n.span
    ∧ Switch.ofCases? n.span cases = .ok (some s)

namespace Switch

variable {span : Span} {cases : List Node}

theorem exists_of_ofCases?_eq_error {e : BranchError} (h : ofCases? span cases = .error e) :
  ∃ before m after, cases = before ++ m :: after ∧ (∀ k ∈ before, k.IsCase) ∧ ¬ m.IsCase
    ∧ e = .switchCase m.span
  := by
  cases hstarts : groupStarts false cases with
  | ok starts =>
      rw [ofCases?, hstarts] at h
      cases h
  | error e' =>
      rw [ofCases?, hstarts] at h
      cases h
      apply exists_of_groupStarts_eq_error hstarts

/-- A switch is made of cases only, and only if there are two of them. -/
theorem of_ofCases? {switch : Option Switch} (h : ofCases? span cases = .ok switch) :
  (∀ m ∈ cases, m.IsCase)
    ∧ (cases.length < 2 ∧ switch = none ∨ 2 ≤ cases.length ∧ ∃ s, switch = some s ∧ s.span = span)
  := by
  cases hstarts : groupStarts false cases with
  | error e =>
      rw [ofCases?, hstarts] at h
      cases h
  | ok starts =>
      rw [ofCases?, hstarts] at h
      simp only [bind, Except.bind, pure, Except.pure, Except.ok.injEq] at h
      refine ⟨isCase_of_groupStarts hstarts, ?_⟩
      split at h
      · next hfew => exact .inl ⟨hfew, h.symm⟩
      · next hmany => exact .inr ⟨Nat.not_lt.mp hmany, _, h.symm, rfl⟩

end Switch

namespace Branches

/-- The branches are those of some nodes, none of which is malformed. -/
structure AreOf (nodes : List Node) (b : Branches) : Prop where
  wellFormed : ∀ n ∈ nodes, ¬ n.IsMalformed
  choices : (nodes.filter Node.isChoice).Forall₂ Choice.IsOf b.choices
  switches : (nodes.filter Node.isSwitch).Forall₂ Switch.IsOf b.switches

/-- What comes of some nodes: their branches, or what is wrong with the first malformed node. -/
def IsOutcome (nodes : List Node) : Except BranchError Branches → Prop
  | .ok b => AreOf nodes b
  | .error e => ∃ before n after, nodes = before ++ n :: after
      ∧ (∀ m ∈ before, ¬ m.IsMalformed) ∧ n.HasError e

/-- Branches and further ones. -/
def append (b later : Branches) : Branches where
  choices := b.choices ++ later.choices
  switches := b.switches ++ later.switches

variable {source : Text} {nodes later : List Node} {n : Node} {b : Branches}
  {cache cache' : ConditionCache} {result : Except BranchError Branches}

theorem AreOf.append {c : Branches} (hb : AreOf nodes b) (hc : AreOf later c) :
  AreOf (nodes ++ later) (b.append c)
  := by
  constructor
  · exact List.forall_mem_append.mpr ⟨hb.wellFormed, hc.wellFormed⟩
  · rw [List.filter_append]
    exact List.rel_append hb.choices hc.choices
  · rw [List.filter_append]
    exact List.rel_append hb.switches hc.switches

theorem IsOutcome.of_error {e : BranchError} (h : n.HasError e) :
  IsOutcome [n] (.error e)
  := ⟨[], n, [], rfl, by simp, h⟩

/-- What is wrong with the first malformed node does not depend on the nodes behind it. -/
theorem IsOutcome.append_of_error {e : BranchError} (h : IsOutcome nodes (.error e))
    (later : List Node) :
  IsOutcome (nodes ++ later) (.error e)
  := by
  obtain ⟨before, n, after, rfl, hbefore, hn⟩ := h
  use before, n, after ++ later, by simp

/-- Nodes that are not malformed add their branches to what comes of the nodes behind them. -/
theorem AreOf.append_outcome (hb : AreOf nodes b) (h : IsOutcome later result) :
  IsOutcome (nodes ++ later) (result.map b.append)
  := by
  cases result with
  | ok c => exact hb.append h
  | error e =>
      obtain ⟨before, n, after, rfl, hbefore, hn⟩ := h
      use nodes ++ before, n, after, by simp
      exact ⟨List.forall_mem_append.mpr ⟨hb.wellFormed, hbefore⟩, hn⟩

/-! ### What one node adds -/

theorem ofNodes_of_choice {test consequent : Node} {alternate : Option Node}
    (hkind : n.kind = .ifStatement test consequent alternate) :
  ofNodes source [n]
    = (fun choice => { choices := choice.toList })
      <$> choice? source n.span test consequent alternate
  := by
  rw [ofNodes, hkind]
  simp [ofNodes]

theorem ofNodes_of_switch {discriminant : Node} {cases : List Node}
    (hkind : n.kind = .switchStatement discriminant cases) :
  ofNodes source [n]
    = (fun switch => { switches := switch.toList }) <$> liftM (Switch.ofCases? n.span cases)
  := by
  rw [ofNodes, hkind]
  simp [ofNodes]

theorem run_map {α β : Type} (f : α → β) (x : Collect α) (cache : ConditionCache) :
  ((f <$> x).run.run cache).1 = (x.run.run cache).1.map f
  := by
  rw [ExceptT.run_map, StateT.run_map]
  rfl

/-- Most nodes add nothing. -/
theorem areOf_nothing (hwell : ¬ n.IsMalformed) (hchoice : n.isChoice = false)
    (hswitch : n.isSwitch = false) :
  AreOf [n] {}
  := by constructor <;> simp [hwell, hchoice, hswitch]

/-- What comes of one node. -/
theorem isOutcome_ofNode (n : Node) (cache : ConditionCache) :
  IsOutcome [n] ((ofNodes source [n]).run.run cache).1
  := by
  cases hkind : n.kind with
  | ifStatement test consequent alternate =>
      rw [ofNodes_of_choice hkind, run_map]
      generalize hresult : ((choice? source n.span test consequent alternate).run.run cache).1
        = result
      rcases run_choice? hresult with ⟨hconsequent, rfl⟩ | ⟨hconsequent, rfl, rfl⟩
        | ⟨a, hconsequent, rfl, ⟨ha, rfl⟩ | ⟨ha, choice, rfl, hfork⟩⟩
      · exact .of_error (.consequent hkind hconsequent)
      · apply areOf_nothing <;>
          simp [Node.IsMalformed, Node.isChoice, Node.isSwitch, hkind, hconsequent]
      · exact .of_error (.alternate hkind hconsequent ha)
      · have hspans : choice.span = n.span ∧ choice.consequent = consequent.span
            ∧ choice.alternate = a.span := by
          simpa [Choice.fork] using hfork
        constructor <;>
          simp [Node.IsMalformed, Node.isChoice, Node.isSwitch, hkind, hconsequent, ha,
            Choice.IsOf, hspans]
  | switchStatement discriminant cases =>
      rw [ofNodes_of_switch hkind, run_map, run_liftM]
      cases hswitch : Switch.ofCases? n.span cases with
      | error e =>
          obtain ⟨before, m, after, rfl, hbefore, hm, rfl⟩ :=
            Switch.exists_of_ofCases?_eq_error hswitch
          exact .of_error (.switchCase hkind hbefore hm)
      | ok switch =>
          obtain ⟨hcases, hadded⟩ := Switch.of_ofCases? hswitch
          have hwell : ¬ n.IsMalformed := by
            rw [Node.IsMalformed, hkind]
            simpa using hcases
          rcases hadded with ⟨hfew, rfl⟩ | ⟨hmany, s, rfl, hspan⟩
          · apply areOf_nothing hwell <;> simp [Node.isChoice, Node.isSwitch, hkind, hfew]
          · constructor <;>
              simp [hwell, Node.isChoice, Node.isSwitch, hkind, hmany, Switch.IsOf, hspan, hswitch]
  | _ =>
      have hnone : ofNodes source [n] = pure {} := by
        rw [ofNodes, hkind]
        rfl
      rw [hnone]
      apply areOf_nothing
      · rw [Node.IsMalformed, hkind]
        exact not_false
      · rw [Node.isChoice, hkind]
      · rw [Node.isSwitch, hkind]

/-! ### What nodes add one by one -/

/-- The nodes are gone through one by one. -/
theorem ofNodes_cons (n : Node) (rest : List Node) :
  ofNodes source (n :: rest)
    = ofNodes source [n] >>= fun own => own.append <$> ofNodes source rest
  := by
  rw [ofNodes, ofNodes]
  split
  · simp only [ofNodes, bind_assoc, pure_bind, map_eq_pure_bind, List.append_nil]
    rfl
  · simp only [ofNodes, bind_assoc, pure_bind, map_eq_pure_bind, List.append_nil]
    rfl
  · rw [ofNodes, pure_bind]
    exact (id_map _).symm

/-- What comes of nodes, whatever the cache knows. -/
theorem isOutcome_ofNodes (nodes : List Node) (cache : ConditionCache) :
  IsOutcome nodes ((ofNodes source nodes).run.run cache).1
  := by
  induction nodes generalizing cache with
  | nil => exact ⟨by simp, .nil, .nil⟩
  | cons n rest ih =>
      have hn : IsOutcome [n] ((ofNodes source [n]).run.run cache).1 := isOutcome_ofNode n cache
      rw [ofNodes_cons, ExceptT.run_bind, StateT.run_bind]
      rcases hrun : (ofNodes source [n]).run.run cache with ⟨own | own, between⟩ <;> rw [hrun] at hn
      · exact hn.append_of_error rest
      · have hrest := AreOf.append_outcome hn (ih between)
        rw [← run_map] at hrest
        exact hrest

end Branches

/-! ### Walks on which nothing is done but entering -/

namespace Outline

variable {α σ : Type}

/-- The values that a step enters if the visitor goes on, with the values above them. -/
def Step.entered : Step α → List (α × Option α)
  | .enter t parent => t.withParents parent
  | .leave _ _ => []

/-- A visitor enters values one after the other until it stops. -/
def enterEach (v : Visitor α σ) : List (α × Option α) → σ → Bool × σ
  | [], s => (true, s)
  | (a, parent) :: rest, s =>
    match v.enter a parent s with
    | (.stop, s) => (false, s)
    | (_, s) => enterEach v rest s

theorem flatMap_entered_enterAll (parent : Option α) (ts : List (Outline α)) :
  (enterAll parent ts).flatMap Step.entered = withParentsAll parent ts
  := by
  induction ts with
  | nil => rfl
  | cons t ts ih => rw [enterAll, List.flatMap_cons, ih, withParentsAll, Step.entered]

/-- A visitor that skips nothing and does nothing on leaving enters the values one after the
other. -/
theorem run_eq_enterEach {v : Visitor α σ} (hleave : ∀ a parent s, v.leave a parent s = s)
    (hskip : ∀ a parent s, (v.enter a parent s).1 ≠ .skip) (steps : List (Step α)) (s : σ) :
  run v steps s = enterEach v (steps.flatMap Step.entered) s
  := by
  fun_induction run v steps s with
  | case1 s => rfl
  | case2 s a parent rest ih => rw [ih, hleave, List.flatMap_cons, Step.entered, List.nil_append]
  | case3 s a below parent rest s' h =>
      rw [List.flatMap_cons, Step.entered, withParents, List.cons_append, enterEach, h]
  | case4 s a below parent rest s' h ih =>
      have := hskip a parent s
      simp [h] at this
  | case5 s a below parent rest s' h ih =>
      rw [ih, List.flatMap_append, flatMap_entered_enterAll, List.flatMap_cons, List.flatMap_cons,
        Step.entered, Step.entered, withParents, List.cons_append, enterEach, h, List.nil_append]

end Outline

namespace Branches

/-- What is known on a walk: the branches so far, what was found to be wrong, and the cache. -/
structure Progress where
  branches : Branches := {}
  failure : Option BranchError := none
  cache : ConditionCache := {}

/-- What comes of a walk. -/
def Progress.outcome (p : Progress) : Except BranchError Branches :=
  match p.failure with
  | some e => .error e
  | none => .ok p.branches

/-- The visitor that collects branches and stops where something is wrong. -/
def collector (source : Text) : Visitor Node Progress where
  enter n _ p :=
    match (ofNodes source [n]).run.run p.cache with
    | (.ok own, cache) => (.continue, { p with branches := p.branches.append own, cache := cache })
    | (.error e, cache) => (.stop, { p with failure := some e, cache := cache })
  leave _ _ p := p

variable {source : Text}

theorem map_append_append (a b : Branches) (result : Except BranchError Branches) :
  result.map (a.append b).append = (result.map b.append).map a.append
  := by cases result <;> simp [Except.map, append]

/-- The collector adds to its progress what comes of the nodes that it enters. -/
theorem outcome_enterEach (nodes : List (Node × Option Node)) (p : Progress)
    (hp : p.failure = none) :
  (Outline.enterEach (collector source) nodes p).2.outcome
    = ((ofNodes source (nodes.map (·.1))).run.run p.cache).1.map p.branches.append
  := by
  induction nodes generalizing p with
  | nil =>
      simp only [Outline.enterEach, Progress.outcome, hp]
      exact congrArg Except.ok (by simp [append])
  | cons n rest ih =>
      obtain ⟨n, parent⟩ := n
      rw [List.map_cons, ofNodes_cons, ExceptT.run_bind, StateT.run_bind, Outline.enterEach,
        collector]
      dsimp only
      rcases (ofNodes source [n]).run.run p.cache with ⟨e | own, between⟩
      · rfl
      · have hrest := ih { p with branches := p.branches.append own, cache := between } hp
        rw [map_append_append, ← run_map] at hrest
        exact hrest

/-- A walk with the collector comes to the same as going through the nodes one by one. -/
theorem outcome_walk (source : Text) (tree : Node) (cache : ConditionCache) :
  ((tree.outline visitorKeys).walk (collector source) { cache := cache }).2.outcome
    = ((ofNodes source tree.preorder).run.run cache).1
  := by
  have hskip (n : Node) (parent : Option Node) (p : Progress) :
      ((collector source).enter n parent p).1 ≠ .skip := by
    rw [collector]
    dsimp only
    split <;> simp
  have hempty (result : Except BranchError Branches) : result.map (append {}) = result := by
    cases result <;> rfl
  rw [Outline.walk, Outline.run_eq_enterEach (fun _ _ _ => rfl) hskip, List.flatMap_singleton,
    Outline.Step.entered, outcome_enterEach _ _ rfl, hempty]
  rfl

/-- Branches are collected from a tree as on a walk that stops where something is wrong, whatever
the cache knows; for `ofTree` it knows nothing.  The collection fails exactly if some node of the
tree is malformed, and then with what is wrong with the first one in preorder.  Otherwise the
choices are those of the nodes with an alternative and the switches those of the nodes with at
least two cases, one for each and in preorder, with the spans of the nodes and their parts. -/
theorem collected_branches (source : Text) (tree : Node) (cache : ConditionCache) :
  let outcome := ((ofNodes source tree.preorder).run.run cache).1
  outcome = ((tree.outline visitorKeys).walk (collector source) { cache := cache }).2.outcome
    ∧ ((∃ e, outcome = .error e) ↔ ∃ n, tree.Contains n ∧ n.IsMalformed)
    ∧ (∀ e, outcome = .error e → ∃ before n after, tree.preorder = before ++ n :: after
      ∧ (∀ m ∈ before, ¬ m.IsMalformed) ∧ n.HasError e)
    ∧ ∀ b, outcome = .ok b →
      (tree.preorder.filter Node.isChoice).Forall₂ Choice.IsOf b.choices
        ∧ (tree.preorder.filter Node.isSwitch).Forall₂ Switch.IsOf b.switches
  := by
  have hspec : IsOutcome tree.preorder ((ofNodes source tree.preorder).run.run cache).1 :=
    isOutcome_ofNodes tree.preorder cache
  refine ⟨(outcome_walk source tree cache).symm, ?_⟩
  generalize ((ofNodes source tree.preorder).run.run cache).1 = outcome at hspec
  cases outcome with
  | error e =>
      obtain ⟨before, n, after, hpreorder, hbefore, hn⟩ := hspec
      have hmem : tree.Contains n := by
        rw [← Node.mem_preorder_iff, hpreorder]
        simp
      refine ⟨⟨fun _ => ⟨n, hmem, hn.isMalformed⟩, fun _ => ⟨e, rfl⟩⟩, ?_, by simp⟩
      rintro _ ⟨⟩
      exact ⟨before, n, after, hpreorder, hbefore, hn⟩
  | ok b =>
      have houtcome : AreOf tree.preorder b := hspec
      refine ⟨⟨by simp, ?_⟩, by simp, ?_⟩
      · rintro ⟨n, hn, hmalformed⟩
        exact absurd hmalformed (houtcome.wellFormed n (Node.mem_preorder_iff.mpr hn))
      · rintro _ ⟨⟩
        exact ⟨houtcome.choices, houtcome.switches⟩

end Branches

end Stencil
