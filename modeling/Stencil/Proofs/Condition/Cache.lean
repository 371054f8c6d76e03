import Mathlib.Data.List.Forall2
import Mathlib.Data.List.Nodup
import Stencil.Condition.Cache
import Stencil.Proofs.Script.Nesting

/-!
# What a cache remembers is right

A cache is faithful to a tree if what it remembers for a node of the tree is what would be found for
the node anew.  Conditions and lists are only ever added to a cache, so a key keeps its meaning.
Where the nodes of the tree have different identities, each request keeps the cache faithful, and
its answer is the one that is found without a cache.
-/

namespace Stencil

open Script

namespace Script.Node

variable {id : Nat} {span : Span}

/-! ### The parts of tests -/

@[simp]
theorem parts_identifier (name : Text) :
  (mk id span (.identifier name)).parts = []
  := by
  rfl

@[simp]
theorem parts_unary (operator : String) (argument : Node) :
  (mk id span (.unary operator argument)).parts = [argument]
  := by
  rfl

@[simp]
theorem parts_call (callee argument : Node) (optional : Bool) :
  (mk id span (.call callee [argument] optional)).parts = [callee, argument]
  := by
  rfl

@[simp]
theorem parts_binary (operator : String) (left right : Node) :
  (mk id span (.binary operator left right)).parts = [left, right]
  := by
  rfl

@[simp]
theorem parts_logical (operator : String) (left right : Node) :
  (mk id span (.logical operator left right)).parts = [left, right]
  := by
  rfl

end Script.Node

/-! ### Keys -/

/-- The pool has the condition at the key. -/
def ConditionPool.Holds (p : ConditionPool) (k : ConditionKey) (c : Condition) : Prop :=
  p.made[k]? = some c

namespace ConditionPool

variable {p p' : ConditionPool} {k : ConditionKey} {c : Condition}

theorem Holds.get_eq (h : p.Holds k c) :
  p.get k = c
  := by
  rw [get, List.getD_eq_getElem?_getD, h, Option.getD_some]

theorem holds_get (hk : k < p.made.length) :
  p.Holds k (p.get k)
  := by
  rw [Holds, get, List.getD_eq_getElem?_getD, List.getElem?_eq_getElem hk, Option.getD_some]

/-- A key keeps its meaning where conditions were added. -/
theorem Holds.mono (h : p.Holds k c) (hmade : p.made <+: p'.made) :
  p'.Holds k c
  := by
  obtain ⟨added, hadded⟩ := hmade
  obtain ⟨hlt, -⟩ := List.getElem?_eq_some_iff.mp h
  rw [Holds, ← hadded, List.getElem?_append_left hlt]
  exact h

/-- The opposites that a pool remembers are opposites. -/
def Sound (p : ConditionPool) : Prop :=
  ∀ k o, p.opposites.lookup k = some o → ∃ c, p.Holds k c ∧ p.Holds o c.negate

/-- The opposite of a condition that is remembered is the right one, and so is one that is made. -/
theorem Sound.negate (h : p.Sound) (hk : p.Holds k c) :
  (p.negate k).2.Sound ∧ p.made <+: (p.negate k).2.made
    ∧ (p.negate k).2.Holds (p.negate k).1 c.negate
  := by
  rw [ConditionPool.negate]
  split
  · next o ho =>
      obtain ⟨d, hkd, hod⟩ := h k o ho
      obtain rfl : c = d := Option.some.inj (hk.symm.trans hkd)
      exact ⟨h, List.prefix_refl _, hod⟩
  · have hmade : p.made <+: p.made ++ [(p.get k).negate] := List.prefix_append _ _
    refine ⟨?_, hmade, hk.get_eq ▸ List.getElem?_concat_length⟩
    intro j o ho
    rw [List.lookup_cons] at ho
    split at ho
    · next heq =>
        obtain rfl := eq_of_beq heq
        obtain rfl := Option.some.inj ho
        exact ⟨c, hk.mono hmade, hk.get_eq ▸ List.getElem?_concat_length⟩
    · obtain ⟨d, hj, ho⟩ := h j o ho
      exact ⟨d, hj.mono hmade, ho.mono hmade⟩

end ConditionPool

namespace ConditionCache

/-- The cache has a list with the given conditions. -/
def HoldsList (s : ConditionCache) (l : Nat) (conditions : List Condition) : Prop :=
  ∃ keys, s.lists[l]? = some keys ∧ List.Forall₂ s.pool.Holds keys conditions

/-- Conditions and lists were added to a cache. -/
structure Extends (s s' : ConditionCache) : Prop where
  made : s.pool.made <+: s'.pool.made
  lists : s.lists <+: s'.lists

namespace Extends

variable {s s' s'' : ConditionCache}

theorem refl (s : ConditionCache) :
  s.Extends s
  := ⟨List.prefix_refl _, List.prefix_refl _⟩

theorem trans (h : s.Extends s') (h' : s'.Extends s'') :
  s.Extends s''
  := ⟨h.made.trans h'.made, h.lists.trans h'.lists⟩

/-- A key keeps its meaning. -/
theorem holds (h : s.Extends s') {k : ConditionKey} {c : Condition} (hk : s.pool.Holds k c) :
  s'.pool.Holds k c
  := hk.mono h.made

theorem holdsAll (h : s.Extends s') {keys : List ConditionKey} {conditions : List Condition}
    (hkeys : List.Forall₂ s.pool.Holds keys conditions) :
  List.Forall₂ s'.pool.Holds keys conditions
  := hkeys.imp fun _ _ => h.holds

/-- A list keeps its meaning. -/
theorem holdsList (h : s.Extends s') {l : Nat} {conditions : List Condition}
    (hl : s.HoldsList l conditions) :
  s'.HoldsList l conditions
  := by
  obtain ⟨keys, hlists, hkeys⟩ := hl
  obtain ⟨added, hadded⟩ := h.lists
  obtain ⟨hlt, -⟩ := List.getElem?_eq_some_iff.mp hlists
  use keys
  constructor
  · rwa [← hadded, List.getElem?_append_left hlt]
  · apply h.holdsAll hkeys

end Extends

/-! ### Faithful caches -/

/-- What the cache remembers for the nodes of a tree is what is found for them without a cache, and
the opposites in its pool are opposites. -/
structure Faithful (source : Text) (tree : Node) (s : ConditionCache) : Prop where
  conditions : ∀ n ∈ tree.preorder, ∀ k, s.conditions.lookup n.id = some k →
    s.pool.Holds k (n.condition source)
  assumed : ∀ n ∈ tree.preorder, ∀ truth l, s.assumed.lookup (n.id, truth) = some l →
    s.HoldsList l (n.assumptions source truth)
  opposites : ∀ k o, s.pool.opposites.lookup k = some o →
    ∃ c, s.pool.Holds k c ∧ s.pool.Holds o c.negate

variable {source : Text} {tree : Node} {s : ConditionCache}

/-- A cache that remembers nothing is faithful. -/
theorem faithful_empty (source : Text) (tree : Node) :
  Faithful source tree {}
  where
  conditions _ _ _ h := by cases h
  assumed _ _ _ _ h := by cases h
  opposites _ _ h := by cases h

/-- A cache to which conditions and lists were added stays faithful. -/
theorem Faithful.extend {s' : ConditionCache} (h : Faithful source tree s) (hs : s.Extends s')
    (hconditions : s'.conditions = s.conditions) (hassumed : s'.assumed = s.assumed)
    (hopposites : s'.pool.opposites = s.pool.opposites) :
  Faithful source tree s'
  where
  conditions n hn k hk := hs.holds (h.conditions n hn k (by rwa [hconditions] at hk))
  assumed n hn truth l hl := hs.holdsList (h.assumed n hn truth l (by rwa [hassumed] at hl))
  opposites k o ho := by
    obtain ⟨c, hk, ho⟩ := h.opposites k o (by rwa [hopposites] at ho)
    exact ⟨c, hs.holds hk, hs.holds ho⟩

/-- From the cache the action leads to a faithful cache to which something may have been added, and
to a good answer. -/
structure Runs {α : Type} (source : Text) (tree : Node) (action : StateM ConditionCache α)
    (good : α → ConditionCache → Prop) (s : ConditionCache) : Prop where
  faithful : Faithful source tree (action.run s).2
  extended : s.Extends (action.run s).2
  answer : good (action.run s).1 (action.run s).2

namespace Runs

variable {α β : Type}

theorem pure {a : α} {good : α → ConditionCache → Prop} (hs : Faithful source tree s)
    (h : good a s) :
  Runs source tree (pure a) good s
  := ⟨hs, Extends.refl s, h⟩

/-- An action that is followed by another one. -/
theorem bind {action : StateM ConditionCache α} {next : α → StateM ConditionCache β}
    {good : α → ConditionCache → Prop} {better : β → ConditionCache → Prop}
    (h : Runs source tree action good s)
    (hnext : ∀ a s', Faithful source tree s' → s.Extends s' → good a s' →
      Runs source tree (next a) better s') :
  Runs source tree (action >>= next) better s
  := by
  have hthen := hnext _ _ h.faithful h.extended h.answer
  exact ⟨hthen.faithful, h.extended.trans hthen.extended, hthen.answer⟩

/-- An action that gives the answer that is known, or else finds one and adds it to the cache. -/
theorem remember {action find : StateM ConditionCache α} {good : α → ConditionCache → Prop}
    (known : Option α) (add : α → ConditionCache → ConditionCache)
    (hhit : ∀ a, known = some a → action.run s = (a, s))
    (hmiss : known = none → action.run s = ((find.run s).1, add (find.run s).1 (find.run s).2))
    (hs : Faithful source tree s) (hknown : ∀ a, known = some a → good a s)
    (hfind : Runs source tree find good s)
    (hadd : ∀ a s', Faithful source tree s' → s.Extends s' → good a s' →
      Faithful source tree (add a s') ∧ s'.Extends (add a s') ∧ good a (add a s')) :
  Runs source tree action good s
  := by
  cases h : known with
  | some a =>
      constructor <;> rw [hhit a h]
      · exact hs
      · apply Extends.refl
      · exact hknown a h
  | none =>
      obtain ⟨hfaithful, hextends, hgood⟩ :=
        hadd _ _ hfind.faithful hfind.extended hfind.answer
      constructor <;> rw [hmiss h]
      · exact hfaithful
      · exact hfind.extended.trans hextends
      · exact hgood

end Runs

/-! ### Making conditions and lists -/

theorem runs_make (hs : Faithful source tree s) (c : Condition) :
  Runs source tree (make c) (fun k s' => s'.pool.Holds k c) s
  := by
  have hextends : s.Extends ((make c).run s).2 := ⟨List.prefix_append _ _, List.prefix_refl _⟩
  exact ⟨hs.extend hextends rfl rfl rfl, hextends, List.getElem?_concat_length⟩

/-- The opposite of a condition is remembered, or it is made. -/
theorem runs_negate (hs : Faithful source tree s) {k : ConditionKey} {c : Condition}
    (hk : s.pool.Holds k c) :
  Runs source tree (negate k) (fun o s' => s'.pool.Holds o c.negate) s
  := by
  have hsound : s.pool.Sound := hs.opposites
  obtain ⟨hopposites, hmade, hopposite⟩ := hsound.negate hk
  have hextends : s.Extends ((negate k).run s).2 := ⟨hmade, List.prefix_refl _⟩
  refine ⟨⟨?_, ?_, hopposites⟩, hextends, hopposite⟩
  · exact fun n hn j hj => hextends.holds (hs.conditions n hn j hj)
  · exact fun n hn truth l hl => hextends.holdsList (hs.assumed n hn truth l hl)

theorem runs_makeList (hs : Faithful source tree s) {keys : List ConditionKey}
    {conditions : List Condition} (hkeys : List.Forall₂ s.pool.Holds keys conditions) :
  Runs source tree (makeList keys) (fun l s' => s'.HoldsList l conditions) s
  := by
  have hextends : s.Extends ((makeList keys).run s).2 :=
    ⟨List.prefix_refl _, List.prefix_append _ _⟩
  exact ⟨hs.extend hextends rfl rfl rfl, hextends, keys, List.getElem?_concat_length, hkeys⟩

theorem runs_listAt (hs : Faithful source tree s) {l : Nat} {conditions : List Condition}
    (hl : s.HoldsList l conditions) :
  Runs source tree (listAt l) (fun keys s' => List.Forall₂ s'.pool.Holds keys conditions) s
  := by
  obtain ⟨keys, hlists, hkeys⟩ := hl
  have hrun : (listAt l).run s = (keys, s) := by
    have hget : s.lists.getD l [] = keys := by
      rw [List.getD_eq_getElem?_getD, hlists, Option.getD_some]
    rw [← hget]
    rfl
  constructor <;> rw [hrun]
  · exact hs
  · apply Extends.refl
  · exact hkeys

/-! ### Remembering -/

/-- Nodes of the same identity are the same where the nodes of the tree have different ones. -/
theorem eq_of_id_eq (hids : (tree.preorder.map Node.id).Nodup) {n m : Node}
    (hn : n ∈ tree.preorder) (hm : m ∈ tree.preorder) (h : n.id = m.id) :
  n = m
  := List.inj_on_of_nodup_map hids hn hm h

theorem run_rememberCondition_of_some {id : Nat} {k : ConditionKey}
    (find : StateM ConditionCache ConditionKey) (h : s.conditions.lookup id = some k) :
  (rememberCondition id find).run s = (k, s)
  := by
  simp only [rememberCondition, StateT.run_bind, StateT.run_get, pure_bind, h]
  rfl

theorem run_rememberCondition_of_none {id : Nat} (find : StateM ConditionCache ConditionKey)
    (h : s.conditions.lookup id = none) :
  (rememberCondition id find).run s
    = ((find.run s).1, { (find.run s).2 with
        conditions := (id, (find.run s).1) :: (find.run s).2.conditions })
  := by
  simp only [rememberCondition, StateT.run_bind, StateT.run_get, pure_bind, h]
  rfl

theorem run_rememberList_of_some {id : Nat} {truth : Bool} {l : Nat}
    (find : StateM ConditionCache Nat) (h : s.assumed.lookup (id, truth) = some l) :
  (rememberList id truth find).run s = (l, s)
  := by
  simp only [rememberList, StateT.run_bind, StateT.run_get, pure_bind, h]
  rfl

theorem run_rememberList_of_none {id : Nat} {truth : Bool} (find : StateM ConditionCache Nat)
    (h : s.assumed.lookup (id, truth) = none) :
  (rememberList id truth find).run s
    = ((find.run s).1, { (find.run s).2 with
        assumed := ((id, truth), (find.run s).1) :: (find.run s).2.assumed })
  := by
  simp only [rememberList, StateT.run_bind, StateT.run_get, pure_bind, h]
  rfl

/-- A condition that is remembered is the right one, and one that is found will be. -/
theorem runs_rememberCondition (hids : (tree.preorder.map Node.id).Nodup) {n : Node}
    (hn : n ∈ tree.preorder) (hs : Faithful source tree s)
    {find : StateM ConditionCache ConditionKey}
    (hfind : Runs source tree find (fun k s' => s'.pool.Holds k (n.condition source)) s) :
  Runs source tree (rememberCondition n.id find)
    (fun k s' => s'.pool.Holds k (n.condition source)) s
  := by
  refine Runs.remember (s.conditions.lookup n.id)
    (fun k s' => { s' with conditions := (n.id, k) :: s'.conditions })
    (fun _ => run_rememberCondition_of_some find) (run_rememberCondition_of_none find) hs
    (hs.conditions n hn) hfind ?_
  intro k s' hs' _ hk
  refine ⟨⟨?_, hs'.assumed, hs'.opposites⟩, ⟨List.prefix_refl _, List.prefix_refl _⟩, hk⟩
  intro m hm j hj
  rw [List.lookup_cons] at hj
  split at hj
  · next heq =>
      obtain rfl := eq_of_id_eq hids hm hn (eq_of_beq heq)
      obtain rfl := Option.some.inj hj
      exact hk
  · exact hs'.conditions m hm j hj

/-- A list that is remembered is the right one, and one that is found will be. -/
theorem runs_rememberList (hids : (tree.preorder.map Node.id).Nodup) {n : Node}
    (hn : n ∈ tree.preorder) {truth : Bool} (hs : Faithful source tree s)
    {find : StateM ConditionCache Nat}
    (hfind : Runs source tree find (fun l s' => s'.HoldsList l (n.assumptions source truth)) s) :
  Runs source tree (rememberList n.id truth find)
    (fun l s' => s'.HoldsList l (n.assumptions source truth)) s
  := by
  refine Runs.remember (s.assumed.lookup (n.id, truth))
    (fun l s' => { s' with assumed := ((n.id, truth), l) :: s'.assumed })
    (fun _ => run_rememberList_of_some find) (run_rememberList_of_none find) hs
    (hs.assumed n hn truth) hfind ?_
  intro l s' hs' _ hl
  refine ⟨⟨hs'.conditions, ?_, hs'.opposites⟩, ⟨List.prefix_refl _, List.prefix_refl _⟩, hl⟩
  intro m hm b j hj
  rw [List.lookup_cons] at hj
  split at hj
  · next heq =>
      obtain ⟨hid, rfl⟩ := Prod.mk.inj (eq_of_beq heq)
      obtain rfl := eq_of_id_eq hids hm hn hid
      obtain rfl := Option.some.inj hj
      exact hl
  · exact hs'.assumed m hm b j hj

/-! ### The requests -/

/-- The condition of a node is the one that is found without a cache. -/
theorem runs_condition (hids : (tree.preorder.map Node.id).Nodup) (n : Node) :
    ∀ {s : ConditionCache}, n ∈ tree.preorder → Faithful source tree s →
      Runs source tree (condition source n) (fun k s' => s'.pool.Holds k (n.condition source)) s
  := by
  induction n using condition.induct with
  | case1 id span operator argument ih =>
      intro s hn hs
      have hargument : argument ∈ tree.preorder := Node.mem_preorder_of_mem_parts hn (by simp)
      rw [condition]
      apply runs_rememberCondition hids hn hs
      rw [Node.condition]
      split
      · apply (ih hargument hs).bind
        intro k s' hs' _ hk
        apply runs_negate hs' hk
      · apply runs_make hs
  | case2 id span callee argument optional ih =>
      intro s hn hs
      have hargument : argument ∈ tree.preorder := Node.mem_preorder_of_mem_parts hn (by simp)
      rw [condition]
      apply runs_rememberCondition hids hn hs
      rw [Node.condition]
      split
      · apply ih hargument hs
      · apply runs_make hs
  | case3 id span kind hunary hcall =>
      intro s hn hs
      rw [condition]
      · apply runs_rememberCondition hids hn hs (runs_make hs _)
      · exact hunary
      · exact hcall

theorem runs_ownCondition (hids : (tree.preorder.map Node.id).Nodup) (truth : Bool) {n : Node}
    (hn : n ∈ tree.preorder) (hs : Faithful source tree s) :
  Runs source tree (ownCondition source truth n)
    (fun k s' => s'.pool.Holds k (n.ownCondition source truth)) s
  := by
  apply (runs_condition hids n hn hs).bind
  intro k s' hs' _ hk
  cases truth with
  | true => exact .pure hs' hk
  | false => exact runs_negate hs' hk

/-- The list of the own condition of a node alone. -/
theorem runs_makeList_ownCondition (hids : (tree.preorder.map Node.id).Nodup) (truth : Bool)
    {n : Node} (hn : n ∈ tree.preorder) (hs : Faithful source tree s) :
  Runs source tree (do makeList [← ownCondition source truth n])
    (fun l s' => s'.HoldsList l [n.ownCondition source truth]) s
  := by
  apply (runs_ownCondition hids truth hn hs).bind
  intro k s' hs' _ hk
  exact runs_makeList hs' (.cons hk .nil)

/-- The conditions that are known to hold are the ones that are found without a cache. -/
theorem runs_assumptions (hids : (tree.preorder.map Node.id).Nodup) (truth : Bool) (n : Node) :
    ∀ {s : ConditionCache}, n ∈ tree.preorder → Faithful source tree s →
      Runs source tree (assumptions source truth n)
        (fun l s' => s'.HoldsList l (n.assumptions source truth)) s
  := by
  induction truth, n using assumptions.induct with
  | case1 truth id span operator argument ih =>
      intro s hn hs
      have hargument : argument ∈ tree.preorder := Node.mem_preorder_of_mem_parts hn (by simp)
      rw [assumptions]
      apply runs_rememberList hids hn hs
      rw [Node.assumptions]
      split
      · apply ih hargument hs
      · apply runs_makeList_ownCondition hids truth hn hs
  | case2 truth id span callee argument optional ih =>
      intro s hn hs
      have hargument : argument ∈ tree.preorder := Node.mem_preorder_of_mem_parts hn (by simp)
      rw [assumptions]
      apply runs_rememberList hids hn hs
      rw [Node.assumptions]
      split
      · apply ih hargument hs
      · apply runs_makeList_ownCondition hids truth hn hs
  | case3 truth id span operator left right ihLeft ihRight =>
      intro s hn hs
      have hleft : left ∈ tree.preorder := Node.mem_preorder_of_mem_parts hn (by simp)
      have hright : right ∈ tree.preorder := Node.mem_preorder_of_mem_parts hn (by simp)
      rw [assumptions]
      apply runs_rememberList hids hn hs
      rw [Node.assumptions]
      split
      · apply (ihLeft hleft hs).bind
        intro l s₁ hs₁ _ hl
        apply (runs_listAt hs₁ hl).bind
        intro leftKeys s₂ hs₂ _ hleftKeys
        apply (ihRight hright hs₂).bind
        intro r s₃ hs₃ hext₃ hr
        apply (runs_listAt hs₃ hr).bind
        intro rightKeys s₄ hs₄ hext₄ hrightKeys
        apply (runs_ownCondition hids truth hn hs₄).bind
        intro own s₅ hs₅ hext₅ hown
        have hleftKeys := ((hext₃.trans hext₄).trans hext₅).holdsAll hleftKeys
        have hrightKeys := hext₅.holdsAll hrightKeys
        apply runs_makeList hs₅
        exact List.rel_append (List.rel_append hleftKeys hrightKeys) (.cons hown .nil)
      · apply runs_makeList_ownCondition hids truth hn hs
  | case4 truth id span kind hunary hcall hlogical =>
      intro s hn hs
      rw [assumptions]
      · apply runs_rememberList hids hn hs
        rw [Node.assumptions]
        · apply runs_makeList_ownCondition hids truth hn hs
        · rintro _ _ operator argument ⟨⟩
          apply hunary operator argument rfl
        · rintro _ _ callee argument optional ⟨⟩
          apply hcall callee argument optional rfl
        · rintro _ _ operator left right ⟨⟩
          apply hlogical operator left right rfl
      · exact hunary
      · exact hcall
      · exact hlogical

/-- The values of the conditions that are known to hold. -/
theorem runs_assumptionValues (hids : (tree.preorder.map Node.id).Nodup) (truth : Bool) {n : Node}
    (hn : n ∈ tree.preorder) (hs : Faithful source tree s) :
  Runs source tree (assumptionValues source truth n)
    (fun conditions _ => conditions = n.assumptions source truth) s
  := by
  apply (runs_assumptions hids truth n hn hs).bind
  intro l s₁ hs₁ _ hl
  apply (runs_listAt hs₁ hl).bind
  intro keys s₂ hs₂ _ hkeys
  have hvalues : keys.map s₂.pool.get = n.assumptions source truth := by
    rw [← List.forall₂_eq_eq_eq, List.forall₂_map_left_iff]
    exact hkeys.imp fun _ _ => ConditionPool.Holds.get_eq
  exact ⟨hs₂, Extends.refl s₂, hvalues⟩

/-! ### Answers after other requests -/

/-- What a cache may be asked for: the condition that a node is true or that it is false, or the
conditions that are known to hold then. -/
inductive Request where
  | condition (truth : Bool) (n : Node)
  | assumptions (truth : Bool) (n : Node)

/-- The node that a request is about. -/
def Request.node : Request → Node
  | condition _ n => n
  | assumptions _ n => n

/-- The cache after it was asked. -/
def ask (source : Text) (s : ConditionCache) : Request → ConditionCache
  | .condition truth n => ((ownCondition source truth n).run s).2
  | .assumptions truth n => ((ConditionCache.assumptions source truth n).run s).2

/-- The cache after it was asked for the given requests, from the first on. -/
def after (source : Text) (requests : List Request) : ConditionCache :=
  requests.foldl (ask source) {}

/-- The condition that a node is true, or that it is false, after the given requests. -/
def conditionAfter (source : Text) (requests : List Request) (truth : Bool) (n : Node) :
    Condition :=
  let (k, s) := (ownCondition source truth n).run (after source requests)
  s.pool.get k

/-- The conditions that are known to hold where a node is true, or where it is false, after the
given requests. -/
def assumedAfter (source : Text) (requests : List Request) (truth : Bool) (n : Node) :
    List Condition :=
  ((assumptionValues source truth n).run (after source requests)).1

/-- A cache stays faithful while it is asked for nodes of the tree. -/
theorem faithful_after (hids : (tree.preorder.map Node.id).Nodup) {requests : List Request}
    (hrequests : ∀ r ∈ requests, r.node ∈ tree.preorder) :
  Faithful source tree (after source requests)
  := by
  apply List.foldlRecOn (motive := Faithful source tree) _ _ (faithful_empty source tree)
  intro s hs request hrequest
  have hnode := hrequests request hrequest
  cases request with
  | condition truth n => exact (runs_ownCondition hids truth hnode hs).faithful
  | assumptions truth n => exact (runs_assumptions hids truth n hnode hs).faithful

theorem conditionAfter_eq (hids : (tree.preorder.map Node.id).Nodup) {requests : List Request}
    (hrequests : ∀ r ∈ requests, r.node ∈ tree.preorder) (truth : Bool) {n : Node}
    (hn : n ∈ tree.preorder) :
  conditionAfter source requests truth n = n.ownCondition source truth
  := (runs_ownCondition hids truth hn (faithful_after hids hrequests)).answer.get_eq

theorem assumedAfter_eq (hids : (tree.preorder.map Node.id).Nodup) {requests : List Request}
    (hrequests : ∀ r ∈ requests, r.node ∈ tree.preorder) (truth : Bool) {n : Node}
    (hn : n ∈ tree.preorder) :
  assumedAfter source requests truth n = n.assumptions source truth
  := (runs_assumptionValues hids truth hn (faithful_after hids hrequests)).answer

end ConditionCache

end Stencil
