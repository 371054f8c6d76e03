import Stencil.Proofs.Condition.Cache

/-!
# What is known where a test is true or false

An assignment of truth values to the nodes of a test is lawful if negation, the conversion
`Boolean(x)`, conjunction and disjunction have their meaning.  Where a test is true under a lawful
assignment, so are the nodes that `Node.known` lists for it, and the conditions that are assumed
there are the conditions of these nodes.
-/

namespace Stencil

open Script

namespace Script.Node

/-- Truth values for the nodes of a test under which the operators have their meaning. -/
structure Lawful (V : Node → Bool) (n : Node) : Prop where
  negation : ∀ id span argument, mk id span (.unary "!" argument) ∈ n.preorder →
    V (mk id span (.unary "!" argument)) = !V argument
  conversion : ∀ id span callee argument optional,
    mk id span (.call callee [argument] optional) ∈ n.preorder →
    callee.isBooleanName = true → argument.isSpread = false →
    V (mk id span (.call callee [argument] optional)) = V argument
  conjunction : ∀ id span left right, mk id span (.logical "&&" left right) ∈ n.preorder →
    V (mk id span (.logical "&&" left right)) = (V left && V right)
  disjunction : ∀ id span left right, mk id span (.logical "||" left right) ∈ n.preorder →
    V (mk id span (.logical "||" left right)) = (V left || V right)

/-- What is lawful for a test is lawful for its parts. -/
theorem Lawful.of_mem_parts {V : Node → Bool} {n m : Node} (h : n.Lawful V) (hm : m ∈ n.parts) :
  m.Lawful V
  := by
  have hsubset := preorder_subset_of_mem_parts hm
  constructor
  · exact fun id span argument hin => h.negation id span argument (hsubset hin)
  · exact fun id span callee argument optional hin =>
      h.conversion id span callee argument optional (hsubset hin)
  · exact fun id span left right hin => h.conjunction id span left right (hsubset hin)
  · exact fun id span left right hin => h.disjunction id span left right (hsubset hin)

/-- The nodes whose truth is known where a test is true, or where it is false, each with the truth
value that it has then. -/
def known (truth : Bool) : Node → List (Node × Bool)
  | .mk id span (.unary operator argument) =>
    if operator = "!" then argument.known !truth
    else [(.mk id span (.unary operator argument), truth)]
  | .mk id span (.call callee [argument] optional) =>
    if callee.isBooleanName && !argument.isSpread then argument.known truth
    else [(.mk id span (.call callee [argument] optional), truth)]
  | .mk id span (.logical operator left right) =>
    (if operator = splitOperator truth then left.known truth ++ right.known truth else [])
      ++ [(.mk id span (.logical operator left right), truth)]
  | n => [(n, truth)]

/-- The conditions that are assumed are those of the nodes whose truth is known. -/
theorem assumptions_eq_map_known (source : Text) (truth : Bool) (n : Node) :
  n.assumptions source truth = (n.known truth).map fun a => a.1.ownCondition source a.2
  := by
  induction truth, n using known.induct with
  | case1 truth id span argument ih => rw [assumptions, known, if_pos rfl, if_pos rfl, ih]
  | case2 truth id span operator argument hother =>
      rw [assumptions, known, if_neg hother, if_neg hother, List.map_singleton]
  | case3 truth id span callee argument optional hboolean ih =>
      rw [assumptions, known, if_pos hboolean, if_pos hboolean, ih]
  | case4 truth id span callee argument optional hother =>
      rw [assumptions, known, if_neg hother, if_neg hother, List.map_singleton]
  | case5 truth id span operator left right ihLeft ihRight =>
      rw [assumptions, known, List.map_append, List.map_singleton, ihLeft, ihRight,
        ← List.map_append]
      split <;> rfl
  | case6 truth n hunary hcall hlogical =>
      rw [assumptions.eq_4 source truth n hunary hcall hlogical,
        known.eq_4 truth n hunary hcall hlogical, List.map_singleton]

/-- The nodes whose truth is known are nodes of the test. -/
theorem mem_preorder_of_mem_known (truth : Bool) (n : Node) :
  ∀ a ∈ n.known truth, a.1 ∈ n.preorder
  := by
  induction truth, n using known.induct with
  | case1 truth id span argument ih =>
      intro a ha
      rw [known, if_pos rfl] at ha
      exact preorder_subset_of_mem_parts (by simp) (ih a ha)
  | case2 truth id span operator argument hother =>
      intro a ha
      rw [known, if_neg hother, List.mem_singleton] at ha
      rw [ha]
      apply self_mem_preorder
  | case3 truth id span callee argument optional hboolean ih =>
      intro a ha
      rw [known, if_pos hboolean] at ha
      exact preorder_subset_of_mem_parts (by simp) (ih a ha)
  | case4 truth id span callee argument optional hother =>
      intro a ha
      rw [known, if_neg hother, List.mem_singleton] at ha
      rw [ha]
      apply self_mem_preorder
  | case5 truth id span operator left right ihLeft ihRight =>
      intro a ha
      rw [known, List.mem_append, List.mem_singleton] at ha
      rcases ha with ha | rfl
      · split at ha
        · rcases List.mem_append.mp ha with ha | ha
          · exact preorder_subset_of_mem_parts (by simp) (ihLeft a ha)
          · exact preorder_subset_of_mem_parts (by simp) (ihRight a ha)
        · cases ha
      · apply self_mem_preorder
  | case6 truth n hunary hcall hlogical =>
      intro a ha
      rw [known.eq_4 truth n hunary hcall hlogical, List.mem_singleton] at ha
      rw [ha]
      apply self_mem_preorder

/-- Where an operation of two truth values has the value that says most, so have its operands. -/
theorem Lawful.operands {V : Node → Bool} {truth : Bool} {id : Nat} {span : Span}
    {left right : Node}
    (h : (Node.mk id span (.logical (splitOperator truth) left right)).Lawful V)
    (hn : V (Node.mk id span (.logical (splitOperator truth) left right)) = truth) :
  V left = truth ∧ V right = truth
  := by
  cases truth with
  | true =>
      have hand := h.conjunction id span left right (self_mem_preorder _)
      rw [splitOperator, if_pos rfl] at hn
      rw [hn, eq_comm, Bool.and_eq_true] at hand
      exact hand
  | false =>
      have hor := h.disjunction id span left right (self_mem_preorder _)
      rw [splitOperator, if_neg Bool.false_ne_true] at hn
      rw [hn, eq_comm, Bool.or_eq_false_iff] at hor
      exact hor

/-- What is known where a test is true, or where it is false, is so under every lawful assignment
that makes it true, or false. -/
theorem truth_of_mem_known {V : Node → Bool} (truth : Bool) (n : Node) :
    n.Lawful V → V n = truth → ∀ a ∈ n.known truth, V a.1 = a.2
  := by
  induction truth, n using known.induct with
  | case1 truth id span argument ih =>
      intro h hn a ha
      rw [known, if_pos rfl] at ha
      rw [h.negation id span argument (self_mem_preorder _)] at hn
      apply ih (h.of_mem_parts (by simp)) _ a ha
      rw [← hn, Bool.not_not]
  | case2 truth id span operator argument hother =>
      intro _ hn a ha
      rw [known, if_neg hother, List.mem_singleton] at ha
      rw [ha, hn]
  | case3 truth id span callee argument optional hboolean ih =>
      intro h hn a ha
      rw [known, if_pos hboolean] at ha
      rw [Bool.and_eq_true, Bool.not_eq_true'] at hboolean
      rw [h.conversion id span callee argument optional (self_mem_preorder _) hboolean.1
        hboolean.2] at hn
      exact ih (h.of_mem_parts (by simp)) hn a ha
  | case4 truth id span callee argument optional hother =>
      intro _ hn a ha
      rw [known, if_neg hother, List.mem_singleton] at ha
      rw [ha, hn]
  | case5 truth id span operator left right ihLeft ihRight =>
      intro h hn a ha
      rw [known, List.mem_append, List.mem_singleton] at ha
      rcases ha with ha | rfl
      · split at ha
        · next hsplit =>
            subst hsplit
            obtain ⟨hleft, hright⟩ := h.operands hn
            rcases List.mem_append.mp ha with ha | ha
            · exact ihLeft (h.of_mem_parts (by simp)) hleft a ha
            · exact ihRight (h.of_mem_parts (by simp)) hright a ha
        · cases ha
      · exact hn
  | case6 truth n hunary hcall hlogical =>
      intro _ hn a ha
      rw [known.eq_4 truth n hunary hcall hlogical, List.mem_singleton] at ha
      rw [ha, hn]

/-- The condition of a test, or its opposite, is one of those that are assumed where it is true, or
where it is false. -/
theorem ownCondition_mem_assumptions (source : Text) (truth : Bool) (n : Node) :
  n.ownCondition source truth ∈ n.assumptions source truth
  := by
  induction truth, n using known.induct with
  | case1 truth id span argument ih =>
      rw [assumptions, if_pos rfl]
      -- the own condition of a negation is that of its operand with the opposite truth
      have hown : (mk id span (.unary "!" argument)).ownCondition source truth
          = argument.ownCondition source !truth := by
        cases truth <;> simp [ownCondition, condition]
      rwa [hown]
  | case2 truth id span operator argument hother =>
      rw [assumptions, if_neg hother]
      apply List.mem_singleton_self
  | case3 truth id span callee argument optional hboolean ih =>
      rw [assumptions, if_pos hboolean]
      have hown : (mk id span (.call callee [argument] optional)).ownCondition source truth
          = argument.ownCondition source truth := by
        rw [ownCondition, condition, if_pos hboolean, ownCondition]
      rwa [hown]
  | case4 truth id span callee argument optional hother =>
      rw [assumptions, if_neg hother]
      apply List.mem_singleton_self
  | case5 truth id span operator left right _ _ =>
      rw [assumptions]
      apply List.mem_append_right
      apply List.mem_singleton_self
  | case6 truth n hunary hcall hlogical =>
      rw [assumptions.eq_4 source truth n hunary hcall hlogical]
      apply List.mem_singleton_self

end Script.Node

namespace ConditionCache

/-- Whatever a cache was asked for nodes of a tree whose nodes have different identities, the
conditions that it says to hold where a node is true, or where it is false, are the conditions or
opposites of conditions of nodes within that node.  Under every lawful assignment that makes the
node true, or false, the former nodes are true and the latter ones false.  The condition of the node
itself, or its opposite, is among them. -/
theorem assumed_hold {tree : Node} (hids : (tree.preorder.map Node.id).Nodup) (source : Text)
    {requests : List Request} (hrequests : ∀ r ∈ requests, r.node ∈ tree.preorder) {n : Node}
    (hn : n ∈ tree.preorder) (truth : Bool) :
  (∃ labels : List (Node × Bool),
      assumedAfter source requests truth n
        = labels.map (fun a => conditionAfter source requests a.2 a.1)
      ∧ (∀ a ∈ labels, a.1 ∈ n.preorder)
      ∧ ∀ V, n.Lawful V → V n = truth → ∀ a ∈ labels, V a.1 = a.2)
    ∧ conditionAfter source requests truth n ∈ assumedAfter source requests truth n
  := by
  have hwithin := Node.mem_preorder_of_mem_known truth n
  rw [assumedAfter_eq hids hrequests truth hn]
  constructor
  · use n.known truth
    refine ⟨?_, hwithin, fun V hV htruth => Node.truth_of_mem_known truth n hV htruth⟩
    rw [Node.assumptions_eq_map_known]
    apply List.map_congr_left
    intro a ha
    rw [conditionAfter_eq hids hrequests a.2 (Node.preorder_subset hn (hwithin a ha))]
  · rw [conditionAfter_eq hids hrequests truth hn]
    apply Node.ownCondition_mem_assumptions

/-- The source of `sampleTest`. -/
def sampleSource : Text := Text.ofString "a && !(b || Boolean(c))"

/-- A conjunction with the negation of a disjunction. -/
def sampleTest : Node :=
  let a : Node := .mk 1 ⟨0, 1⟩ (.identifier ['a'])
  let b : Node := .mk 4 ⟨7, 8⟩ (.identifier ['b'])
  let c : Node := .mk 7 ⟨20, 21⟩ (.identifier ['c'])
  let boolean : Node := .mk 6 ⟨12, 19⟩ (.identifier (Text.ofString "Boolean"))
  let disjunction : Node :=
    .mk 3 ⟨7, 22⟩ (.logical "||" b (.mk 5 ⟨12, 22⟩ (.call boolean [c] false)))
  .mk 0 ⟨0, 23⟩ (.logical "&&" a (.mk 2 ⟨5, 23⟩ (.unary "!" disjunction)))

/-- The conjunction and its operands are true, and the operands of the disjunction are false. -/
def sampleTruth (n : Node) : Bool := n.id < 3

theorem assumed_hold_sample :
  assumedAfter sampleSource [.condition false sampleTest] true sampleTest
      = [.simple ['a'], (Condition.simple ['b']).negate, (Condition.simple ['c']).negate,
        (Condition.simple (Text.ofString "b||Boolean(c)")).negate, .simple sampleSource]
    ∧ sampleTest.Lawful sampleTruth ∧ sampleTruth sampleTest = true
    ∧ ∃ labels : List (Node × Bool),
      assumedAfter sampleSource [.condition false sampleTest] true sampleTest
        = labels.map (fun a =>
            conditionAfter sampleSource [.condition false sampleTest] a.2 a.1)
      ∧ ∀ a ∈ labels, sampleTruth a.1 = a.2
  := by
  have hids : (sampleTest.preorder.map Node.id).Nodup := by
    simp [sampleTest, Node.preorder_eq, Node.id]
  have hrequests : ∀ r ∈ [Request.condition false sampleTest], r.node ∈ sampleTest.preorder := by
    simp [Request.node, Node.self_mem_preorder]
  have hn := Node.self_mem_preorder sampleTest
  have hlawful : sampleTest.Lawful sampleTruth := by
    constructor <;> simp [sampleTest, Node.preorder_eq]
    · rintro _ _ _ rfl rfl rfl
      rfl
    · rintro _ _ _ _ rfl rfl rfl rfl _ _
      rfl
    · rintro _ _ _ _ rfl rfl rfl rfl
      rfl
    · rintro _ _ _ _ rfl rfl rfl rfl
      rfl
  obtain ⟨⟨labels, heq, -, htruth⟩, -⟩ := assumed_hold hids sampleSource hrequests hn true
  refine ⟨?_, hlawful, rfl, labels, heq, htruth sampleTruth hlawful rfl⟩
  rw [assumedAfter_eq hids hrequests true hn]
  simp only [sampleTest, Node.assumptions]
  decide +kernel

end ConditionCache

end Stencil
