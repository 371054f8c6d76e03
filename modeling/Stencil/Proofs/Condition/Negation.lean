import Stencil.Proofs.Condition.Cache

/-!
# The laws of negation

The opposite of a condition is never the same constraint, whatever stands in its texts.  The texts
of a comparison are its operands with an operator, in one order or the other, and the operator of
the opposite has another length or another number of exclamation marks.  So no text of a comparison
is a text of its opposite, even where the operands have operators in them.

A pool keeps the opposites that it has made, so that the laws are stated for the pools that can be
reached by making conditions and asking for opposites.
-/

namespace Stencil

namespace Comparator

/-- An operator is as long as the one for the operands on the other sides, with as many exclamation
marks. -/
theorem measure_swapped (op : Comparator) :
  op.swapped.text.toList.length = op.text.toList.length
    ∧ op.swapped.text.toList.count '!' = op.text.toList.count '!'
  := by
  cases op <;> decide

/-- An operator differs from its opposite in length or in the number of exclamation marks. -/
theorem measure_opposite (op : Comparator) :
  op.opposite.text.toList.length ≠ op.text.toList.length
    ∨ op.opposite.text.toList.count '!' ≠ op.text.toList.count '!'
  := by
  cases op <;> decide

end Comparator

namespace Condition

/-! ### Texts of opposite conditions -/

theorem expressions_comparison (l : Text) (op : Comparator) (r : Text) (b : Bool) :
  expressions ⟨.comparison l op r, b⟩ = comparisonTexts l (if b then op.opposite else op) r
  := by
  cases b <;> rfl

/-- The texts of a comparison have the characters of the operands and as many more as the operator
has, and as many exclamation marks. -/
theorem measure_of_mem_comparison {l r e : Text} {op : Comparator} {b : Bool}
    (he : e ∈ expressions ⟨.comparison l op r, b⟩) :
  let shown := (if b then op.opposite else op).text.toList
  e.length = l.length + r.length + shown.length
    ∧ e.count '!' = l.count '!' + r.count '!' + shown.count '!'
  := by
  obtain ⟨hlength, hcount⟩ := (if b then op.opposite else op).measure_swapped
  rw [expressions_comparison, comparisonTexts] at he
  simp only [List.mem_cons, List.not_mem_nil, or_false] at he
  rcases he with rfl | rfl
  · simp only [List.length_append, List.count_append]
    omega
  · simp only [List.length_append, List.count_append]
    omega

/-- No text expresses both a condition and its opposite. -/
theorem notMem_expressions_negate {c : Condition} {e : Text} (he : e ∈ c.expressions) :
  e ∉ c.negate.expressions
  := by
  intro he'
  obtain ⟨form, b⟩ := c
  cases form with
  | simple t =>
      cases b with
      | false =>
          simp only [negate, Bool.not_false, expressions, List.mem_singleton] at he he'
          have hlength := congrArg List.length (he.symm.trans he')
          simp only [List.length_append, List.length_cons, List.length_nil] at hlength
          omega
      | true =>
          simp only [negate, Bool.not_true, expressions, List.mem_singleton] at he he'
          have hlength := congrArg List.length (he.symm.trans he')
          simp only [List.length_append, List.length_cons, List.length_nil] at hlength
          omega
  | comparison l op r =>
      obtain ⟨hlength, hcount⟩ := measure_of_mem_comparison he
      obtain ⟨hlength', hcount'⟩ := measure_of_mem_comparison he'
      have hdiffer := op.measure_opposite
      cases b <;> simp at hlength hcount hlength' hcount' <;> omega

/-- A condition is never the same constraint as its opposite. -/
theorem sameConstraint_negate (c : Condition) :
  c.sameConstraint c.negate = false
  := by
  rw [sameConstraint, List.any_eq_false]
  intro e he
  rw [List.contains_iff_mem]
  exact notMem_expressions_negate he

/-- A comparison and the one with the operands on the other sides have the same texts, and so have
their opposites. -/
theorem perm_expressions_swapped (l : Text) (op : Comparator) (r : Text) (b : Bool) :
  (expressions ⟨.comparison r op.swapped l, b⟩).Perm (expressions ⟨.comparison l op r, b⟩)
  := by
  cases b with
  | false =>
      simp only [expressions, comparisonTexts, Comparator.swapped_swapped]
      apply List.Perm.swap
  | true =>
      simp only [expressions, comparisonTexts, Comparator.opposite_swapped,
        Comparator.swapped_swapped]
      apply List.Perm.swap

end Condition

/-! ### Conditions in a pool -/

namespace ConditionPool

/-- The pools that can be reached by making conditions and asking for opposites. -/
inductive Grown : ConditionPool → Prop where
  | empty : Grown {}
  | simple {p : ConditionPool} (h : Grown p) (t : Text) : Grown (p.add (.simple t)).2
  | comparison {p : ConditionPool} (h : Grown p) (l : Text) (op : Comparator) (r : Text) :
      Grown (p.add (.comparison l op r)).2
  | negate {p : ConditionPool} (h : Grown p) {k : ConditionKey} (hk : k < p.made.length) :
      Grown (p.negate k).2

variable {p : ConditionPool} {k : ConditionKey}

/-- Making a condition leaves the opposites right. -/
theorem Sound.add (h : p.Sound) (c : Condition) :
  (p.add c).2.Sound
  := by
  have hmade : p.made <+: p.made ++ [c] := List.prefix_append _ _
  intro k o ho
  obtain ⟨d, hk, ho⟩ := h k o ho
  exact ⟨d, hk.mono hmade, ho.mono hmade⟩

theorem Grown.sound (h : Grown p) :
  p.Sound
  := by
  induction h with
  | empty => exact fun k o ho => by cases ho
  | simple _ t ih => exact ih.add _
  | comparison _ l op r ih => exact ih.add _
  | negate _ hk ih => exact (ih.negate (holds_get hk)).1

/-- Of a condition in a pool, however it was made, the opposite is never the same constraint.  The
opposite of the opposite has its form, its polarity and its texts.  A comparison has the same texts
as the one with the mirrored operator between the operands on the other sides, and so have their
opposites. -/
theorem negation_laws (h : Grown p) (hk : k < p.made.length) :
  (let (o, p') := p.negate k
    let (d, p'') := p'.negate o
    p''.get k = p.get k
      ∧ (p''.get d).form = (p.get k).form ∧ (p''.get d).isNegated = (p.get k).isNegated
      ∧ (p''.get d).expressions = (p.get k).expressions
      ∧ (p.get k).sameConstraint (p''.get o) = false
      ∧ (p''.get o).sameConstraint (p.get k) = false)
    ∧ ∀ (l : Text) (op : Comparator) (r e : Text),
      (e ∈ (Condition.comparison l op r).expressions
        ↔ e ∈ (Condition.comparison r op.swapped l).expressions)
      ∧ (e ∈ (Condition.comparison l op r).negate.expressions
        ↔ e ∈ (Condition.comparison r op.swapped l).negate.expressions)
  := by
  constructor
  · rcases ho : p.negate k with ⟨o, p'⟩
    dsimp only
    rcases hd : p'.negate o with ⟨d, p''⟩
    obtain ⟨hsound, hmade, hopposite⟩ := h.sound.negate (holds_get hk)
    simp only [ho] at hsound hmade hopposite
    obtain ⟨-, hmade', hagain⟩ := hsound.negate hopposite
    simp only [hd, Condition.negate_negate] at hmade' hagain
    have hfirst := ((holds_get hk).mono hmade).mono hmade'
    have hsame := (p.get k).sameConstraint_negate
    have hback := (p.get k).negate.sameConstraint_negate
    rw [Condition.negate_negate] at hback
    rw [hfirst.get_eq, hagain.get_eq, (hopposite.mono hmade').get_eq]
    exact ⟨rfl, rfl, rfl, rfl, hsame, hback⟩
  · intro l op r e
    exact ⟨(Condition.perm_expressions_swapped _ op _ false).mem_iff.symm,
      (Condition.perm_expressions_swapped _ op _ true).mem_iff.symm⟩

/-- A pool with a comparison whose operands have characters of operators in them, and with its
opposite. -/
def contrary : ConditionPool :=
  let p : ConditionPool := {}
  ((p.add (.comparison (Text.ofString "a !") .equal (Text.ofString "= !b"))).2.negate 0).2

theorem negation_laws_contrary :
  (contrary.get 1).expressions = [Text.ofString "a!!==!b", Text.ofString "=!b!=a!"]
    ∧ (let (o, p) := contrary.negate 1
      let (d, q) := p.negate o
      (q.get o).expressions = [Text.ofString "a!===!b", Text.ofString "=!b==a!"]
        ∧ (q.get d).expressions = (contrary.get 1).expressions
        ∧ (contrary.get 1).sameConstraint (q.get o) = false)
  := by
  have hgrown : Grown contrary := .negate (.comparison .empty _ _ _) (by decide)
  obtain ⟨⟨-, -, -, hagain, hsame, -⟩, -⟩ := negation_laws (k := 1) hgrown (by decide)
  exact ⟨by decide, by decide, hagain, hsame⟩

end ConditionPool

end Stencil
