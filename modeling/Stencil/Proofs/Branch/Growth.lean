import Mathlib.Data.Finset.Card
import Stencil.Proofs.Branch.Coverage

/-!
# How many views there are

The search for all views asks for one view after the other until no hidden range begins after the
target of the last one.  Each further target is the beginning of a hidden range, and hidden ranges
begin only where branches do.  So the search comes to an end, and however the branches are nested,
it asks for no more views than there are beginnings of branches, and for one at the top of the
document.
-/

namespace Stencil

namespace ViewStore

/-- The search from a target on asks for the views of the given targets, with what it has found and
the store before it and after it.  It goes on with the next beginning of a hidden range and is over
where there is none. -/
inductive Searches (o : Outlined) :
    (target : Nat) → (found : List (Nat × View)) → (views : ViewStore) → (targets : List Nat) →
      (result : List (Nat × View) × ViewStore) → Prop where
  | last {target : Nat} {found : List (Nat × View)} {views : ViewStore}
      (h : nextStart? ((cover o target).run views).1.2 target = none) :
      Searches o target found views [target]
        (addDistinct found ((cover o target).run views).1, ask o views (.cover target))
  | next {target next : Nat} {found : List (Nat × View)} {views : ViewStore} {targets : List Nat}
      {result : List (Nat × View) × ViewStore}
      (h : nextStart? ((cover o target).run views).1.2 target = some next)
      (later : Searches o next (addDistinct found ((cover o target).run views).1)
        (ask o views (.cover target)) targets result) :
      Searches o target found views (target :: targets) result

variable {o : Outlined}

/-- The search comes to an end within a limit above the number of beginnings of branches that are
left. -/
theorem searches_collect (limit : Nat) :
    ∀ {offset : Nat} (found : List (Nat × View)) {views : ViewStore},
      (startsAfter o.branches offset).length < limit → Made o views →
      ∃ targets, Searches o offset found views targets ((collect o limit offset found).run views)
  := by
  induction limit with
  | zero =>
      intro offset found views hlimit
      omega
  | succ limit ih =>
      intro offset found views hlimit hmade
      obtain ⟨target, hview⟩ := hmade.exists_run_cover offset
      rw [run_collect_succ]
      cases hnext : nextStart? ((cover o offset).run views).1.2 offset with
      | some next =>
          have hfewer : (startsAfter o.branches next).length < limit := by
            rw [hview] at hnext
            have := length_startsAfter_lt hnext
            omega
          obtain ⟨targets, hlater⟩ := ih _ hfewer (hmade.ask_cover offset)
          use offset :: targets
          apply Searches.next hnext hlater
      | none =>
          use [offset]
          apply Searches.last hnext

namespace Searches

variable {target : Nat} {found : List (Nat × View)} {views : ViewStore} {targets : List Nat}
  {result : List (Nat × View) × ViewStore}

/-- The targets of a search ascend, and all but the first one are beginnings of branches. -/
theorem ascends (h : Searches o target found views targets result) (hmade : Made o views) :
  ∃ later, targets = target :: later ∧ targets.Pairwise (· < ·)
    ∧ ∀ t ∈ later, t ∈ branchStarts o.branches
  := by
  induction h with
  | last h => exact ⟨[], rfl, List.pairwise_singleton _ _, by simp⟩
  | @next target next found views targets result h _ ih =>
      obtain ⟨later, rfl, hascends, hstarts⟩ := ih (hmade.ask_cover target)
      obtain ⟨made, hview⟩ := hmade.exists_run_cover target
      obtain ⟨hlt, ⟨r, hr, rfl⟩, -⟩ := nextStart?_eq_some h
      rw [hview] at hr
      obtain ⟨⟨s, hs, hstart⟩, -⟩ := Outlined.exists_branch_ends hr
      refine ⟨r.start :: later, rfl, ?_, ?_⟩
      · rw [List.pairwise_cons]
        refine ⟨fun t ht => ?_, hascends⟩
        rcases List.mem_cons.mp ht with rfl | ht
        · exact hlt
        · exact Nat.lt_trans hlt ((List.pairwise_cons.mp hascends).1 t ht)
      · rw [List.forall_mem_cons]
        refine ⟨?_, hstarts⟩
        rw [branchStarts_eq_map, List.mem_map]
        exact ⟨s, hs, hstart⟩

/-- A search has no more targets than there are beginnings of branches, the first target apart. -/
theorem length_le (h : Searches o target found views targets result) (hmade : Made o views) :
  targets.length ≤ 1 + (branchStarts o.branches).toFinset.card
  := by
  obtain ⟨later, rfl, hascends, hstarts⟩ := h.ascends hmade
  have hnodup : later.Nodup := (List.pairwise_cons.mp hascends).2.imp Nat.ne_of_lt
  have hsubset : later.toFinset ⊆ (branchStarts o.branches).toFinset := by
    intro t ht
    rw [List.mem_toFinset] at *
    apply hstarts t ht
  have hcard := Finset.card_le_card hsubset
  rw [List.toFinset_card_of_nodup hnodup] at hcard
  rw [List.length_cons]
  omega

/-- A search asks for its targets and for nothing else. -/
theorem store_eq (h : Searches o target found views targets result) :
  result.2 = (targets.map Query.cover).foldl (ask o) views
  := by
  induction h with
  | last h => rfl
  | next h _ ih => exact ih

theorem length_addDistinct_le (found : List (Nat × View)) (a : Nat × View) :
  (addDistinct found a).length ≤ found.length + 1
  := by
  unfold addDistinct
  split
  · apply Nat.le_succ
  · rw [List.length_append, List.length_singleton]

/-- Each target adds at most one view to those that are found. -/
theorem length_found_le (h : Searches o target found views targets result) :
  result.1.length ≤ found.length + targets.length
  := by
  induction h with
  | last h => apply length_addDistinct_le
  | @next target next found views targets result h _ ih =>
      have := length_addDistinct_le found ((cover o target).run views).1
      rw [List.length_cons]
      omega

/-- The views have different texts. -/
abbrev Distinct (found : List (Nat × View)) : Prop := found.Pairwise (·.2.text ≠ ·.2.text)

theorem distinct_addDistinct (hfound : Distinct found) (a : Nat × View) :
  Distinct (addDistinct found a)
  := by
  unfold addDistinct
  split
  · exact hfound
  · next hnew =>
      rw [Distinct, List.pairwise_append]
      refine ⟨hfound, List.pairwise_singleton _ _, fun b hb c hc => ?_⟩
      rw [List.mem_singleton] at hc
      simp only [List.any_eq_true, beq_iff_eq, not_exists, not_and] at hnew
      rw [hc]
      apply hnew b hb

/-- A search keeps the views that are found different in text. -/
theorem distinct_found (h : Searches o target found views targets result)
    (hfound : Distinct found) :
  Distinct result.1
  := by
  induction h with
  | last h => apply distinct_addDistinct hfound
  | next h _ ih => exact ih (distinct_addDistinct hfound _)

end Searches

/-- Each target adds at most one view to a store. -/
theorem length_foldl_ask_cover_le (o : Outlined) (targets : List Nat) :
    ∀ views : ViewStore,
      ((targets.map Query.cover).foldl (ask o) views).length ≤ views.length + targets.length
  := by
  induction targets with
  | nil =>
      intro views
      apply Nat.le_refl
  | cons target targets ih =>
      intro views
      have hlater := ih (ask o views (.cover target))
      have hfirst : (ask o views (.cover target)).length ≤ views.length + 1 := by
        rcases ask_cover o views target with h | ⟨-, h⟩
        · rw [h]
          apply Nat.le_succ
        · rw [h, List.length_append, List.length_singleton]
      rw [List.map_cons, List.foldl_cons, List.length_cons]
      omega

/-- Whatever a store was asked for before, the search for all views comes to an end.  It asks for
the view at the top of the document and for no more further views than there are offsets at which
branches begin, each of them later in the document than the one before.  So it adds no more views
than that to the store, and no more than that are listed, all of them different in text. -/
theorem exists_searches_all (o : Outlined) (queries : List Query) :
  ∃ targets,
    Searches o 0 [] (after o queries) targets
        (listing o queries, after o (queries ++ [.all]))
      ∧ targets.Pairwise (· < ·)
      ∧ targets.length ≤ 1 + (branchStarts o.branches).toFinset.card
      ∧ (after o (queries ++ [.all])).length
          ≤ (after o queries).length + (1 + (branchStarts o.branches).toFinset.card)
      ∧ (listing o queries).length ≤ 1 + (branchStarts o.branches).toFinset.card
      ∧ (listing o queries).Pairwise (·.2.text ≠ ·.2.text)
  := by
  have hmade := made_after o queries
  have hlimit : (startsAfter o.branches 0).length < (branchStarts o.branches).length + 1 :=
    Nat.lt_succ_of_le (List.length_filter_le _ _)
  obtain ⟨targets, hsearch⟩ := searches_collect _ [] hlimit hmade
  change Searches o 0 [] (after o queries) targets ((all o).run (after o queries)) at hsearch
  have hstore : ((all o).run (after o queries)).2 = after o (queries ++ [.all]) :=
    (after_concat o queries .all).symm
  have hfew := hsearch.length_le hmade
  obtain ⟨-, -, hascends, -⟩ := hsearch.ascends hmade
  refine ⟨targets, ?_, hascends, hfew, ?_, ?_, ?_⟩
  · rw [← hstore]
    exact hsearch
  · rw [← hstore, hsearch.store_eq]
    have := length_foldl_ask_cover_le o targets (after o queries)
    omega
  · apply Nat.le_trans hsearch.length_found_le
    rwa [List.length_nil, Nat.zero_add]
  · apply hsearch.distinct_found List.Pairwise.nil

end ViewStore

end Stencil
