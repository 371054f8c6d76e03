import Stencil.Proofs.Branch.Path

/-!
# A store over time

A store of views is asked for the view of a target, or for all views, any number of times and in
any order.  It only grows, by views that are made for a target which all the views before hide.
So an answer that was given once is given again: for a target the same view under the same index,
and for all views the same list.
-/

namespace Stencil

/-- What a store can be asked for. -/
inductive Query where
  | cover (target : Nat)
  | all
  deriving DecidableEq, Repr

namespace ViewStore

/-- The store after it was asked. -/
def ask (o : Outlined) (views : ViewStore) : Query → ViewStore
  | .cover target => ((cover o target).run views).2
  | .all => ((all o).run views).2

/-- The store after it was asked a number of times, one after the other. -/
def after (o : Outlined) (queries : List Query) : ViewStore := queries.foldl (ask o) []

/-- The answer for a target, after the given queries. -/
def answer (o : Outlined) (queries : List Query) (target : Nat) : Nat × View :=
  ((cover o target).run (after o queries)).1

/-- The answer for all views, after the given queries. -/
def listing (o : Outlined) (queries : List Query) : List (Nat × View) :=
  ((all o).run (after o queries)).1

theorem after_append (o : Outlined) (queries later : List Query) :
  after o (queries ++ later) = later.foldl (ask o) (after o queries)
  := List.foldl_append

theorem after_concat (o : Outlined) (queries : List Query) (q : Query) :
  after o (queries ++ [q]) = ask o (after o queries) q
  := after_append o queries [q]

variable {o : Outlined}

/-! ### Asking for one target -/

/-- A store answers with the first view that shows the target, or makes one if all hide it. -/
theorem run_cover (o : Outlined) (target : Nat) (views : ViewStore) :
  (cover o target).run views
    = match views.zipIdx.find? (!·.1.isStriped target) with
      | some (v, i) => ((i, v), views)
      | none => ((views.length, o.viewFor target), views ++ [o.viewFor target])
  := rfl

/-- If no view of the store shows a target, all hide it. -/
theorem isStriped_of_find?_eq_none {views : ViewStore} {target : Nat}
    (h : views.zipIdx.find? (!·.1.isStriped target) = none) :
  ∀ v ∈ views, v.isStriped target = true
  := by
  intro v hv
  obtain ⟨i, hi, rfl⟩ := List.getElem_of_mem hv
  have hmem : (views[i], i) ∈ views.zipIdx := by
    rw [List.mem_zipIdx_iff_getElem?]
    apply List.getElem?_eq_getElem hi
  simpa using List.find?_eq_none.mp h _ hmem

/-- Asking for a target leaves the store as it is, or adds the view for a target that all the
views before hide. -/
theorem ask_cover (o : Outlined) (views : ViewStore) (target : Nat) :
  ask o views (.cover target) = views
    ∨ (∀ v ∈ views, v.isStriped target = true)
      ∧ ask o views (.cover target) = views ++ [o.viewFor target]
  := by
  simp only [ask, run_cover]
  cases h : views.zipIdx.find? (!·.1.isStriped target) with
  | some a => exact Or.inl rfl
  | none =>
      right
      constructor
      · apply isStriped_of_find?_eq_none h
      · rfl

/-- The store keeps the views it has when it is asked for a target. -/
theorem isPrefix_ask_cover (o : Outlined) (views : ViewStore) (target : Nat) :
  views <+: ask o views (.cover target)
  := by
  rcases ask_cover o views target with h | ⟨-, h⟩
  · rewrite [h]
    apply List.prefix_refl
  · rw [h]
    apply List.prefix_append

/-- The view that is the answer for a target shows it. -/
theorem isStriped_run_cover (h : o.branches.Apart) (target : Nat) (views : ViewStore) :
  ((cover o target).run views).1.2.isStriped target = false
  := by
  rw [run_cover]
  cases hfind : views.zipIdx.find? (!·.1.isStriped target) with
  | some a => simpa using List.find?_some hfind
  | none => apply Outlined.isStriped_viewFor h target

/-- The view that is the answer for a target is in the store, under its index. -/
theorem getElem?_run_cover (o : Outlined) (target : Nat) (views : ViewStore) :
  (ask o views (.cover target))[((cover o target).run views).1.1]?
    = some ((cover o target).run views).1.2
  := by
  simp only [ask, run_cover]
  cases hfind : views.zipIdx.find? (!·.1.isStriped target) with
  | some a =>
      have hmem := List.mem_of_find?_eq_some hfind
      rwa [List.mem_zipIdx_iff_getElem?] at hmem
  | none => simp

/-- Once a target was asked for, the answer stays and the store is left as it is. -/
theorem run_cover_of_isPrefix (h : o.branches.Apart) {target : Nat} {views views' : ViewStore}
    (hle : ask o views (.cover target) <+: views') :
  (cover o target).run views' = (((cover o target).run views).1, views')
  := by
  have hshown := isStriped_run_cover h target views
  obtain ⟨more, rfl⟩ := hle
  simp only [ask, run_cover] at hshown ⊢
  cases hfind : views.zipIdx.find? (!·.1.isStriped target) with
  | some a => simp [List.zipIdx_append, hfind]
  | none =>
      rw [hfind] at hshown
      simp [List.zipIdx_append, hfind, hshown]

/-! ### Asking for all views -/

/-- Adds an answer unless an answer with the same text is there. -/
def addDistinct (found : List (Nat × View)) (a : Nat × View) : List (Nat × View) :=
  if found.any (·.2.text == a.2.text) then found else found ++ [a]

/-- The views from an offset on are the view for the offset and those from the next beginning of a
hidden range on. -/
theorem run_collect_succ (o : Outlined) (limit offset : Nat) (found : List (Nat × View))
    (views : ViewStore) :
  (collect o (limit + 1) offset found).run views
    = match nextStart? ((cover o offset).run views).1.2 offset with
      | some next =>
        (collect o limit next (addDistinct found ((cover o offset).run views).1)).run
          (ask o views (.cover offset))
      | none =>
        (addDistinct found ((cover o offset).run views).1, ask o views (.cover offset))
  := by
  rw [collect, StateT.run_bind]
  dsimp only [ask, addDistinct]
  cases h : nextStart? ((cover o offset).run views).1.2 offset with
  | some next => simp [h, bind]
  | none =>
      simp only [h, bind]
      rfl

/-- All views are found by asking for targets one after the other. -/
theorem run_collect_eq_foldl (o : Outlined) (limit : Nat) :
    ∀ (offset : Nat) (found : List (Nat × View)) (views : ViewStore), ∃ targets : List Nat,
      ((collect o limit offset found).run views).2
        = (targets.map Query.cover).foldl (ask o) views
  := by
  induction limit with
  | zero =>
      intro offset found views
      use []
      rfl
  | succ limit ih =>
      intro offset found views
      rw [run_collect_succ]
      cases h : nextStart? ((cover o offset).run views).1.2 offset with
      | some next =>
          obtain ⟨targets, htargets⟩ := ih next
            (addDistinct found ((cover o offset).run views).1) (ask o views (.cover offset))
          use offset :: targets
          exact htargets
      | none => use [offset]; rfl

/-- Asking for all views is asking for some targets one after the other. -/
theorem exists_after_all (o : Outlined) (queries : List Query) :
  ∃ targets : List Nat, after o (queries ++ [.all]) = after o (queries ++ targets.map .cover)
  := by
  obtain ⟨targets, h⟩ := run_collect_eq_foldl o _ 0 [] (after o queries)
  use targets
  rw [after_concat, after_append]
  exact h

/-- The store keeps the views it has when it is asked for targets. -/
theorem isPrefix_foldl_ask_cover (o : Outlined) (targets : List Nat) :
    ∀ views : ViewStore, views <+: (targets.map Query.cover).foldl (ask o) views
  := by
  induction targets with
  | nil =>
      intro views
      apply List.prefix_refl
  | cons target targets ih =>
      intro views
      apply List.IsPrefix.trans (isPrefix_ask_cover o views target)
      apply ih

/-- The store keeps the views it has when it is asked for anything. -/
theorem isPrefix_ask (o : Outlined) (views : ViewStore) (q : Query) :
  views <+: ask o views q
  := by
  cases q with
  | cover target => apply isPrefix_ask_cover o views target
  | all =>
      obtain ⟨targets, h⟩ := run_collect_eq_foldl o _ 0 [] views
      rw [ask, all, h]
      apply isPrefix_foldl_ask_cover

/-- The store keeps its views. -/
theorem isPrefix_after (o : Outlined) (queries later : List Query) :
  after o queries <+: after o (queries ++ later)
  := by
  rw [after_append]
  apply List.foldlRecOn (motive := fun views : ViewStore => after o queries <+: views)
  · apply List.prefix_refl
  · intro views hviews q _
    apply hviews.trans (isPrefix_ask o views q)

/-- Every view of the store was made for some target. -/
def Made (o : Outlined) (views : ViewStore) : Prop :=
  ∀ v ∈ views, ∃ target, v = o.viewFor target

theorem Made.ask_cover {views : ViewStore} (h : Made o views) (target : Nat) :
  Made o (ask o views (.cover target))
  := by
  rcases ViewStore.ask_cover o views target with hask | ⟨-, hask⟩
  · rwa [hask]
  · rw [hask]
    intro v hv
    rcases List.mem_append.mp hv with hv | hv
    · apply h v hv
    · use target
      simpa using hv

theorem Made.ask {views : ViewStore} (h : Made o views) (q : Query) :
  Made o (ask o views q)
  := by
  cases q with
  | cover target => apply h.ask_cover target
  | all =>
      obtain ⟨targets, htargets⟩ := run_collect_eq_foldl o _ 0 [] views
      rw [ViewStore.ask, all, htargets, List.foldl_map]
      apply List.foldlRecOn (motive := Made o) _ _ h
      intro views hviews target _
      apply hviews.ask_cover target

theorem made_after (o : Outlined) (queries : List Query) :
  Made o (after o queries)
  := by
  apply List.foldlRecOn (motive := Made o)
  · intro v hv
    simp at hv
  · intro views hviews q _
    apply hviews.ask q

/-- Once all views were asked for, the answer stays and the store is left as it is. -/
theorem run_collect_of_isPrefix (h : o.branches.Apart) (limit : Nat) :
    ∀ (offset : Nat) (found : List (Nat × View)) {views views' : ViewStore},
      ((collect o limit offset found).run views).2 <+: views' →
      (collect o limit offset found).run views'
        = (((collect o limit offset found).run views).1, views')
  := by
  induction limit with
  | zero =>
      intro offset found views views' _
      rfl
  | succ limit ih =>
      intro offset found views views' hle
      -- the first answer is unchanged as soon as the store extends the one right after it
      have hcover : ask o views (.cover offset) <+: views' →
          (cover o offset).run views' = (((cover o offset).run views).1, views') :=
        run_cover_of_isPrefix h
      rw [run_collect_succ] at hle ⊢
      rw [run_collect_succ]
      cases hnext : nextStart? ((cover o offset).run views).1.2 offset with
      | some next =>
          simp only [hnext] at hle ⊢
          have hkept : ask o views (.cover offset) <+: views' := by
            obtain ⟨targets, htargets⟩ := run_collect_eq_foldl o limit next
              (addDistinct found ((cover o offset).run views).1) (ask o views (.cover offset))
            apply List.IsPrefix.trans _ hle
            rw [htargets]
            apply isPrefix_foldl_ask_cover
          have hask : ask o views' (.cover offset) = views' := congrArg Prod.snd (hcover hkept)
          rw [hcover hkept]
          simp only [hnext, hask]
          apply ih next _ hle
      | none =>
          simp only [hnext] at hle ⊢
          have hask : ask o views' (.cover offset) = views' := congrArg Prod.snd (hcover hle)
          rw [hcover hle]
          simp only [hnext, hask]

/-! ### Answers stay -/

/-- A target that was asked for is shown by the answer, which is kept under its index and is given
again, whatever the store is asked for in between; a view is added only if all the views before
hide the target, and asking for all views adds views in no other way; and the list of all views
stays as it was when it was first asked for. -/
theorem answers_stay (h : o.branches.Apart) (queries later : List Query) :
  (∀ target : Nat,
      (answer o queries target).2.isStriped target = false
      ∧ (after o (queries ++ [.cover target]))[(answer o queries target).1]?
          = some (answer o queries target).2
      ∧ answer o (queries ++ .cover target :: later) target = answer o queries target
      ∧ (after o (queries ++ [.cover target]) = after o queries
          ∨ (∀ v ∈ after o queries, v.isStriped target = true)
            ∧ after o (queries ++ [.cover target]) = after o queries ++ [o.viewFor target]))
    ∧ (∃ targets : List Nat,
        after o (queries ++ [.all]) = after o (queries ++ targets.map .cover))
    ∧ listing o (queries ++ .all :: later) = listing o queries
  := by
  have hlater (q : Query) : ask o (after o queries) q <+: after o (queries ++ q :: later) := by
    have hle := isPrefix_after o (queries ++ [q]) later
    rwa [after_concat, List.append_assoc] at hle
  refine ⟨fun target => ⟨?_, ?_, ?_, ?_⟩, ?_, ?_⟩
  · apply isStriped_run_cover h
  · rw [after_concat]
    apply getElem?_run_cover
  · rw [answer, run_cover_of_isPrefix h (hlater (.cover target)), answer]
  · rw [after_concat]
    apply ask_cover
  · apply exists_after_all
  · rw [listing, all, run_collect_of_isPrefix h _ 0 [] (hlater .all), listing, all]

end ViewStore

/-- The choice between `A` and `B` in `Outlined.sample`. -/
def Choice.sample : Choice :=
  ⟨⟨3, 34⟩, ⟨10, 19⟩, ⟨25, 34⟩, [.simple ['a']], [(Condition.simple ['a']).negate]⟩

/-- The choice between `C` and the switch in `Outlined.sample`, whose test is the opposite. -/
def Choice.opposite : Choice :=
  ⟨⟨35, 111⟩, ⟨43, 52⟩, ⟨58, 111⟩, [(Condition.simple ['a']).negate], [.simple ['a']]⟩

/-- A document with two choices and a switch within one of them. -/
def Outlined.sample : Outlined where
  document :=
    Text.ofString "<% if (a) \x7b %>A<% \x7d else \x7b %>B<% \x7d "
      ++ Text.ofString "if (!a) \x7b %>C<% \x7d else \x7b "
      ++ Text.ofString "switch (b) \x7b case 1: %>D<% break; case 2: %>E<% \x7d \x7d %>"
  tags :=
    [
      .ofCode .evaluate ⟨0, 14⟩ ⟨2, 12⟩,
      .ofCode .evaluate ⟨15, 29⟩ ⟨17, 27⟩,
      .ofCode .evaluate ⟨30, 47⟩ ⟨32, 45⟩,
      .ofCode .evaluate ⟨48, 83⟩ ⟨50, 81⟩,
      .ofCode .evaluate ⟨84, 104⟩ ⟨86, 102⟩,
      .ofCode .evaluate ⟨105, 114⟩ ⟨107, 112⟩
    ]
  branches :=
    {
      choices := [.sample, .opposite]
      switches := [⟨⟨60, 109⟩, [⟨73, 94⟩, ⟨94, 109⟩]⟩]
    }

namespace ViewStore

theorem answers_stay_sample :
  Outlined.sample.branches.Apart
    ∧ (answer .sample [.cover 47] 83).2.isStriped 83 = false
    ∧ answer .sample ([.cover 47] ++ .cover 83 :: [.all, .cover 500]) 83
      = answer .sample [.cover 47] 83
    ∧ listing .sample ([.cover 83] ++ .all :: [.cover 104, .cover 29, .all])
      = listing .sample [.cover 83]
  := by
  have h : Outlined.sample.branches.Apart := ⟨by decide, by decide⟩
  obtain ⟨htargets, -, -⟩ := answers_stay h [.cover 47] [.all, .cover 500]
  obtain ⟨-, -, hlisting⟩ := answers_stay h [.cover 83] [.cover 104, .cover 29, .all]
  exact ⟨h, (htargets 83).1, (htargets 83).2.2.1, hlisting⟩

end ViewStore

end Stencil
