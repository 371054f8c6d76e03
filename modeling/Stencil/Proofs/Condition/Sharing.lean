import Stencil.Proofs.Condition.Assumptions

/-!
# Answers that are shared

A cache may be called again and again, in any order, for the condition of a node, for the conditions
that are known to hold where a node is true or false, and for the opposite of a condition that was
made before.  Each answer stands for what is found without a cache.  What a call has found is
remembered, and what is remembered is never given up, so that a call that is repeated has the same
answer: the same condition or the same list, and not only an equal one.
-/

namespace Stencil.ConditionCache

open Script

/-- What a cache may be called for. -/
inductive Call where
  | condition (n : Node)
  | assumptions (truth : Bool) (n : Node)
  | opposite (k : ConditionKey)

namespace Call

/-- The answer to a call, as the number of a condition or of a list of conditions. -/
def answer (source : Text) : Call → StateM ConditionCache Nat
  | condition n => ConditionCache.condition source n
  | assumptions truth n => ConditionCache.assumptions source truth n
  | opposite k => negate k

/-- The call is about a node of the tree, or about a condition that was made before. -/
def Fits (tree : Node) (s : ConditionCache) : Call → Prop
  | condition n => n ∈ tree.preorder
  | assumptions _ n => n ∈ tree.preorder
  | opposite k => k < s.pool.made.length

/-- The answer to a call stands for what is found without a cache. -/
def IsRight (source : Text) (s : ConditionCache) : Call → Nat → Prop
  | condition n, k => s.pool.Holds k (n.condition source)
  | assumptions truth n, l => s.HoldsList l (n.assumptions source truth)
  | opposite k, o => ∃ c, s.pool.Holds k c ∧ s.pool.Holds o c.negate

/-- The answer to a call that a cache remembers. -/
def known (s : ConditionCache) : Call → Option Nat
  | condition n => s.conditions.lookup n.id
  | assumptions truth n => s.assumed.lookup (n.id, truth)
  | opposite k => s.pool.opposites.lookup k

end Call

/-! ### What is remembered stays -/

/-- What the first cache remembers, the second one remembers too. -/
def Keeps (s s' : ConditionCache) : Prop :=
  ∀ (c : Call) (a : Nat), c.known s = some a → c.known s' = some a

/-- The action gives up nothing that a cache remembers. -/
def Keeping {α : Type} (action : StateM ConditionCache α) : Prop :=
  ∀ s, Keeps s (action.run s).2

/-- An entry for a key that was not in a table leaves the entries that were. -/
theorem lookup_cons_of_lookup {α : Type} [BEq α] [LawfulBEq α] {old table : List (α × Nat)}
    {key k : α} {a b : Nat} (hnew : old.lookup key = none) (hold : old.lookup k = some a)
    (h : table.lookup k = some a) :
  ((key, b) :: table).lookup k = some a
  := by
  have hne : k ≠ key := by
    rintro rfl
    rw [hnew] at hold
    cases hold
  rw [List.lookup_cons, beq_false_of_ne hne]
  exact h

namespace Keeping

variable {α β : Type}

theorem pure (a : α) :
  Keeping (pure a)
  := fun _ _ _ h => h

theorem bind {action : StateM ConditionCache α} {next : α → StateM ConditionCache β}
    (h : Keeping action) (hnext : ∀ a, Keeping (next a)) :
  Keeping (action >>= next)
  := fun s c a hc => hnext _ _ c a (h s c a hc)

theorem make (c : Condition) :
  Keeping (make c)
  := by
  intro s call a h
  cases call <;> exact h

theorem makeList (keys : List ConditionKey) :
  Keeping (makeList keys)
  := by
  intro s call a h
  cases call <;> exact h

theorem listAt (l : Nat) :
  Keeping (listAt l)
  := fun _ _ _ h => h

theorem negate (k : ConditionKey) :
  Keeping (negate k)
  := by
  intro s call a h
  have hrun : ((ConditionCache.negate k).run s).2 = { s with pool := (s.pool.negate k).2 } := rfl
  rw [hrun, ConditionPool.negate]
  split
  · exact h
  · next hnew =>
      cases call with
      | opposite j => exact lookup_cons_of_lookup hnew h h
      | _ => exact h

theorem rememberCondition (id : Nat) {find : StateM ConditionCache ConditionKey}
    (hfind : Keeping find) :
  Keeping (rememberCondition id find)
  := by
  intro s call a h
  cases hknown : s.conditions.lookup id with
  | some k =>
      rw [run_rememberCondition_of_some find hknown]
      exact h
  | none =>
      rw [run_rememberCondition_of_none find hknown]
      have hlater := hfind s call a h
      cases call with
      | condition n => exact lookup_cons_of_lookup hknown h hlater
      | _ => exact hlater

theorem rememberList (id : Nat) (truth : Bool) {find : StateM ConditionCache Nat}
    (hfind : Keeping find) :
  Keeping (rememberList id truth find)
  := by
  intro s call a h
  cases hknown : s.assumed.lookup (id, truth) with
  | some l =>
      rw [run_rememberList_of_some find hknown]
      exact h
  | none =>
      rw [run_rememberList_of_none find hknown]
      have hlater := hfind s call a h
      cases call with
      | assumptions b n => exact lookup_cons_of_lookup hknown h hlater
      | _ => exact hlater

variable {source : Text}

theorem condition (n : Node) :
  Keeping (condition source n)
  := by
  induction n using condition.induct with
  | case1 id span operator argument ih =>
      rw [ConditionCache.condition]
      apply rememberCondition
      split
      · exact bind ih negate
      · apply make
  | case2 id span callee argument optional ih =>
      rw [ConditionCache.condition]
      apply rememberCondition
      split
      · exact ih
      · apply make
  | case3 id span kind hunary hcall =>
      rw [ConditionCache.condition]
      · exact rememberCondition id (make _)
      · exact hunary
      · exact hcall

theorem ownCondition (truth : Bool) (n : Node) :
  Keeping (ownCondition source truth n)
  := by
  apply bind (condition n)
  intro k
  split
  · apply pure
  · apply negate

/-- The own condition of a node, as a list. -/
theorem makeList_ownCondition (truth : Bool) (n : Node) :
  Keeping (do ConditionCache.makeList [← ConditionCache.ownCondition source truth n])
  := bind (ownCondition truth n) fun _ => makeList _

theorem assumptions (truth : Bool) (n : Node) :
  Keeping (assumptions source truth n)
  := by
  induction truth, n using assumptions.induct with
  | case1 truth id span operator argument ih =>
      rw [ConditionCache.assumptions]
      apply rememberList
      split
      · exact ih
      · apply makeList_ownCondition
  | case2 truth id span callee argument optional ih =>
      rw [ConditionCache.assumptions]
      apply rememberList
      split
      · exact ih
      · apply makeList_ownCondition
  | case3 truth id span operator left right ihLeft ihRight =>
      rw [ConditionCache.assumptions]
      apply rememberList
      split
      · apply bind ihLeft
        intro l
        apply bind (listAt l)
        intro leftKeys
        apply bind ihRight
        intro r
        apply bind (listAt r)
        intro rightKeys
        apply bind (ownCondition truth _)
        intro own
        apply makeList
      · apply makeList_ownCondition
  | case4 truth id span kind hunary hcall hlogical =>
      rw [ConditionCache.assumptions]
      · exact rememberList id truth (makeList_ownCondition truth _)
      · exact hunary
      · exact hcall
      · exact hlogical

end Keeping

/-- No call makes a cache give up what it remembers. -/
theorem keeping_answer (source : Text) (c : Call) :
  Keeping (c.answer source)
  := by
  cases c with
  | condition n => exact .condition n
  | assumptions truth n => exact .assumptions truth n
  | opposite k => exact .negate k

/-! ### What was found is remembered -/

variable {source : Text} {tree : Node} {s : ConditionCache}

theorem lookup_rememberCondition (id : Nat) (find : StateM ConditionCache ConditionKey) :
  ((rememberCondition id find).run s).2.conditions.lookup id
    = some ((rememberCondition id find).run s).1
  := by
  cases h : s.conditions.lookup id with
  | some k => rw [run_rememberCondition_of_some find h, h]
  | none => rw [run_rememberCondition_of_none find h, List.lookup_cons_self]

theorem lookup_rememberList (id : Nat) (truth : Bool) (find : StateM ConditionCache Nat) :
  ((rememberList id truth find).run s).2.assumed.lookup (id, truth)
    = some ((rememberList id truth find).run s).1
  := by
  cases h : s.assumed.lookup (id, truth) with
  | some l => rw [run_rememberList_of_some find h, h]
  | none => rw [run_rememberList_of_none find h, List.lookup_cons_self]

/-- The condition of every node is remembered, whatever its kind. -/
theorem exists_rememberCondition (source : Text) (n : Node) :
  ∃ find, condition source n = rememberCondition n.id find
  := by
  unfold condition
  split <;> exact ⟨_, rfl⟩

/-- The lists of every node are remembered, whatever its kind. -/
theorem exists_rememberList (source : Text) (truth : Bool) (n : Node) :
  ∃ find, assumptions source truth n = rememberList n.id truth find
  := by
  unfold assumptions
  split <;> exact ⟨_, rfl⟩

/-- A cache remembers its answer. -/
theorem known_answer (c : Call) :
  c.known ((c.answer source).run s).2 = some ((c.answer source).run s).1
  := by
  cases c with
  | condition n =>
      obtain ⟨find, hfind⟩ := exists_rememberCondition source n
      rw [Call.answer, hfind]
      exact lookup_rememberCondition n.id find
  | assumptions truth n =>
      obtain ⟨find, hfind⟩ := exists_rememberList source truth n
      rw [Call.answer, hfind]
      exact lookup_rememberList n.id truth find
  | opposite k =>
      change (s.pool.negate k).2.opposites.lookup k = some (s.pool.negate k).1
      rw [ConditionPool.negate]
      split
      · assumption
      · apply List.lookup_cons_self

/-! ### Runs of calls -/

/-- The calls that were made of a cache one after the other, each with its answer, and the cache
that results.  The latest call stands first. -/
inductive Run (source : Text) (tree : Node) : List (Call × Nat) → ConditionCache → Prop where
  | start : Run source tree [] {}
  | call {log : List (Call × Nat)} {s : ConditionCache} (h : Run source tree log s) (c : Call)
      (hc : c.Fits tree s) :
      Run source tree ((c, ((c.answer source).run s).1) :: log) ((c.answer source).run s).2

/-- A right answer stays right. -/
theorem Call.IsRight.extend {c : Call} {a : Nat} {s' : ConditionCache} (h : c.IsRight source s a)
    (hs : s.Extends s') :
  c.IsRight source s' a
  := by
  cases c with
  | condition n => exact hs.holds h
  | assumptions truth n => exact hs.holdsList h
  | opposite k =>
      obtain ⟨d, hk, ho⟩ := h
      exact ⟨d, hs.holds hk, hs.holds ho⟩

/-- A call has a right answer, and leaves the cache faithful. -/
theorem runs_answer (hids : (tree.preorder.map Node.id).Nodup) (hs : Faithful source tree s)
    {c : Call} (hc : c.Fits tree s) :
  Runs source tree (c.answer source) (fun a s' => c.IsRight source s' a) s
  := by
  cases c with
  | condition n => exact runs_condition hids n hc hs
  | assumptions truth n => exact runs_assumptions hids truth n hc hs
  | opposite k =>
      have hk := s.pool.holds_get hc
      obtain ⟨hfaithful, hextends, hopposite⟩ := runs_negate hs hk
      exact ⟨hfaithful, hextends, _, hextends.holds hk, hopposite⟩

/-- What a cache keeps over a run of calls: it is faithful, all answers are right, and it remembers
them. -/
theorem Run.keeps (hids : (tree.preorder.map Node.id).Nodup) {log : List (Call × Nat)}
    (h : Run source tree log s) :
  Faithful source tree s ∧ ∀ e ∈ log, e.1.IsRight source s e.2 ∧ e.1.known s = some e.2
  := by
  induction h with
  | start => exact ⟨faithful_empty source tree, by simp⟩
  | @call log s _ c hc ih =>
      obtain ⟨hfaithful, hlog⟩ := ih
      obtain ⟨hfaithful', hextends, hright⟩ := runs_answer hids hfaithful hc
      refine ⟨hfaithful', List.forall_mem_cons.mpr ⟨⟨hright, known_answer c⟩, ?_⟩⟩
      intro e he
      obtain ⟨hold, hknown⟩ := hlog e he
      exact ⟨hold.extend hextends, keeping_answer source c s e.1 e.2 hknown⟩

/-- A cache may be called for the opposite of every condition that it has answered. -/
theorem Run.fits_opposite (hids : (tree.preorder.map Node.id).Nodup) {log : List (Call × Nat)}
    (h : Run source tree log s) {n : Node} {k : ConditionKey} (hk : (Call.condition n, k) ∈ log) :
  (Call.opposite k).Fits tree s
  := by
  have hright : s.pool.Holds k (n.condition source) := ((h.keeps hids).2 _ hk).1
  exact (List.getElem?_eq_some_iff.mp hright).1

/-- Whatever a cache was called for, if the nodes of the tree have different identities, each answer
stands for what is found without a cache, and calls that were the same had the same answer. -/
theorem answers_shared (hids : (tree.preorder.map Node.id).Nodup) {log : List (Call × Nat)}
    (h : Run source tree log s) :
  (∀ e ∈ log, e.1.IsRight source s e.2) ∧ ∀ e ∈ log, ∀ e' ∈ log, e.1 = e'.1 → e.2 = e'.2
  := by
  obtain ⟨-, hlog⟩ := h.keeps hids
  constructor
  · exact fun e he => (hlog e he).1
  · intro e he e' he' hcall
    have hknown := (hlog e he).2
    rw [hcall, (hlog e' he').2] at hknown
    exact (Option.some.inj hknown).symm

/-- Three calls that are made twice: for what holds where the sample is true, for its condition and
for the opposite of that. -/
theorem answers_shared_sample :
  ∃ l k o s, Run sampleSource sampleTest
      [(.opposite k, o), (.condition sampleTest, k), (.assumptions true sampleTest, l),
        (.opposite k, o), (.condition sampleTest, k), (.assumptions true sampleTest, l)] s
    ∧ s.HoldsList l [.simple ['a'], (Condition.simple ['b']).negate,
        (Condition.simple ['c']).negate,
        (Condition.simple (Text.ofString "b||Boolean(c)")).negate, .simple sampleSource]
    ∧ ∃ c, s.pool.Holds k c ∧ s.pool.Holds o c.negate
  := by
  have hids : (sampleTest.preorder.map Node.id).Nodup := by
    simp [sampleTest, Node.preorder_eq, Node.id]
  have hn := Node.self_mem_preorder sampleTest
  have next {log s} (h : Run sampleSource sampleTest log s) (c : Call) (hc : c.Fits sampleTest s) :
      ∃ a s', Run sampleSource sampleTest ((c, a) :: log) s' := ⟨_, _, h.call c hc⟩
  obtain ⟨l, s₁, h₁⟩ := next .start (.assumptions true sampleTest) hn
  obtain ⟨k, s₂, h₂⟩ := next h₁ (.condition sampleTest) hn
  obtain ⟨o, s₃, h₃⟩ := next h₂ (.opposite k) (h₂.fits_opposite hids (n := sampleTest) (by simp))
  obtain ⟨l', s₄, h₄⟩ := next h₃ (.assumptions true sampleTest) hn
  obtain ⟨k', s₅, h₅⟩ := next h₄ (.condition sampleTest) hn
  obtain ⟨o', s₆, h₆⟩ := next h₅ (.opposite k) (h₅.fits_opposite hids (n := sampleTest) (by simp))
  obtain ⟨hright, hshared⟩ := answers_shared hids h₆
  obtain rfl : l' = l := hshared (.assumptions true sampleTest, l') (by simp) (_, l) (by simp) rfl
  obtain rfl : k' = k := hshared (.condition sampleTest, k') (by simp) (_, k) (by simp) rfl
  obtain rfl : o' = o := hshared (.opposite k', o') (by simp) (_, o) (by simp) rfl
  refine ⟨l', k', o', s₆, h₆, ?_, hright (.opposite k', o') (by simp)⟩
  have hlist : s₆.HoldsList l' _ := hright (.assumptions true sampleTest, l') (by simp)
  convert hlist using 1
  simp only [sampleTest, Node.assumptions]
  decide +kernel

end Stencil.ConditionCache
