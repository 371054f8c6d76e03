import Mathlib.Data.String.Basic
import Stencil.Json.Basic

/-!
# Entries in the order of their keys

Sorting brings entries into the strict order of their keys, and it leaves entries alone that have
this order.  To add an entry keeps the order, gives its key the new value, and gives no other key a
value that it did not have.
-/

namespace Stencil.Json

variable {α : Type} {key : String} {value : α} {entries : List (String × α)}

/-- The entries have the strict order of their keys. -/
def InKeyOrder (entries : List (String × α)) : Prop :=
  entries.Pairwise (·.1 < ·.1)

/-- The entries that are left after one is added are old ones or that one. -/
theorem mem_insertEntry {entry : String × α} (h : entry ∈ insertEntry key value entries) :
  entry = (key, value) ∨ entry ∈ entries
  := by
  induction entries with
  | nil => exact Or.inl (List.mem_singleton.mp h)
  | cons first rest ih =>
      unfold insertEntry at h
      split at h
      · exact List.mem_cons.mp h
      · split at h
        · exact (List.mem_cons.mp h).imp_right (List.mem_cons_of_mem first)
        · rcases List.mem_cons.mp h with rfl | h
          · exact Or.inr (List.mem_cons_self ..)
          · exact (ih h).imp_right (List.mem_cons_of_mem first)

theorem inKeyOrder_insertEntry (h : InKeyOrder entries) :
  InKeyOrder (insertEntry key value entries)
  := by
  induction entries with
  | nil => exact List.pairwise_singleton _ _
  | cons first rest ih =>
      have hrest : InKeyOrder rest := h.of_cons
      unfold insertEntry
      split
      · next hbefore =>
          refine List.Pairwise.cons ?_ h
          intro entry hentry
          rcases List.mem_cons.mp hentry with rfl | hentry
          · exact hbefore
          · exact hbefore.trans (List.rel_of_pairwise_cons h hentry)
      · next hbefore =>
          split
          · next hsame =>
              rw [beq_iff_eq] at hsame
              subst hsame
              exact hrest.cons fun entry hentry => List.rel_of_pairwise_cons h hentry
          · next hother =>
              rw [beq_iff_eq] at hother
              refine List.Pairwise.cons ?_ (ih hrest)
              intro entry hentry
              rcases mem_insertEntry hentry with rfl | hentry
              · exact lt_of_le_of_ne (not_lt.mp hbefore) (Ne.symm hother)
              · exact List.rel_of_pairwise_cons h hentry

theorem lookup_cons (k : String) :
  ((key, value) :: entries).lookup k = if k = key then some value else entries.lookup k
  := by
  rw [List.lookup_cons]
  split
  · next h => rw [if_pos (beq_iff_eq.mp h)]
  · next h => rw [if_neg (beq_eq_false_iff_ne.mp h)]

/-- After an entry is added its key has the new value, and all other keys have their old ones. -/
theorem lookup_insertEntry (key : String) (value : α) (entries : List (String × α)) (k : String) :
  (insertEntry key value entries).lookup k = if k = key then some value else entries.lookup k
  := by
  induction entries with
  | nil => exact lookup_cons k
  | cons first rest ih =>
      unfold insertEntry
      split
      · exact lookup_cons k
      · split
        · next hsame =>
            rw [beq_iff_eq] at hsame
            subst hsame
            rw [lookup_cons, lookup_cons]
            split <;> rfl
        · next hother =>
            rw [beq_iff_eq] at hother
            rw [lookup_cons, lookup_cons, ih]
            split
            · next h =>
                subst h
                rw [if_neg (Ne.symm hother)]
            · rfl

/-- An entry whose key comes after all others is added at the end. -/
theorem insertEntry_eq_append (h : ∀ entry ∈ entries, entry.1 < key) :
  insertEntry key value entries = entries ++ [(key, value)]
  := by
  induction entries with
  | nil => rfl
  | cons first rest ih =>
      have hfirst : first.1 < key := h first List.mem_cons_self
      rw [insertEntry, if_neg hfirst.not_gt, if_neg (by simpa using hfirst.ne'),
        ih fun entry hentry => h entry (List.mem_cons_of_mem first hentry)]
      rfl

/-- Sorting leaves entries alone that have the order of their keys. -/
theorem sortEntries_eq_self (h : InKeyOrder entries) :
  sortEntries entries = entries
  := by
  have hfold (sorted rest : List (String × α)) (h : InKeyOrder (sorted ++ rest)) :
      rest.foldl (fun sorted entry => insertEntry entry.1 entry.2 sorted) sorted
        = sorted ++ rest := by
    induction rest generalizing sorted with
    | nil => exact (List.append_nil sorted).symm
    | cons first rest ih =>
        have hlast : ∀ entry ∈ sorted, entry.1 < first.1 := fun entry hentry =>
          (List.pairwise_append.mp h).2.2 entry hentry first List.mem_cons_self
        have hnext : sorted ++ first :: rest = (sorted ++ [first]) ++ rest := by
          rw [List.append_assoc, List.singleton_append]
        rw [List.foldl_cons, insertEntry_eq_append hlast, ih _ (by rwa [← hnext]), ← hnext]
  exact hfold [] entries h

end Stencil.Json
