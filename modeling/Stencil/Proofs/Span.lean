import Mathlib.Data.List.Basic
import Stencil.Text.Span

/-!
# Spans and their canonical form

`Span.merge` keeps what a list of spans holds: every span of the list that is not empty lies in
one of the merged ranges, every offset in a merged range lies in a span of the list, and the
ends of a merged range are ends of spans of the list.
-/

namespace Stencil.Span

theorem encloses_iff {s t : Span} :
  s.encloses t = true ↔ s.start ≤ t.start ∧ t.stop ≤ s.stop
  := by
  simp [encloses]

@[simp]
theorem encloses_refl (s : Span) :
  s.encloses s = true
  := by
  simp [encloses]

theorem encloses_trans {s t u : Span} (hst : s.encloses t = true) (htu : t.encloses u = true) :
  s.encloses u = true
  := by
  rw [encloses_iff] at *
  omega

/-- What a span holds, a span that encloses it holds too. -/
theorem contains_of_encloses {s t : Span} {n : Nat} (hst : s.encloses t = true)
    (hn : t.contains n = true) :
  s.contains n = true
  := by
  rw [encloses_iff] at hst
  rw [contains_iff] at *
  omega

/-- A span that is not empty holds its own beginning. -/
theorem contains_start {s : Span} (h : s.start < s.stop) :
  s.contains s.start = true
  := contains_iff.mpr ⟨Nat.le_refl _, h⟩

/-! ### Spans that share no offset -/

/-- No offset lies in both spans. -/
def Apart (s t : Span) : Prop :=
  ∀ n, s.contains n = true → t.contains n = true → False

theorem Apart.symm {s t : Span} (h : Apart s t) :
  Apart t s
  := fun n ht hs => h n hs ht

instance symmApart : Std.Symm Apart := ⟨fun _ _ h => h.symm⟩

/-- Two spans are apart when one of them is empty or ends before the other begins. -/
theorem apart_iff {s t : Span} :
  Apart s t ↔ s.stop ≤ s.start ∨ t.stop ≤ t.start ∨ s.stop ≤ t.start ∨ t.stop ≤ s.start
  := by
  constructor
  · intro h
    by_contra hc
    apply h (max s.start t.start)
    · rw [contains_iff]
      omega
    · rw [contains_iff]
      omega
  · intro h n hs ht
    rw [contains_iff] at hs ht
    omega

instance decidableApart (s t : Span) : Decidable (Apart s t) :=
  decidable_of_iff _ apart_iff.symm

/-- A span that ends before another one begins is apart from it. -/
theorem apart_of_stop_le_start {s t : Span} (h : s.stop ≤ t.start) :
  Apart s t
  := apart_iff.mpr (Or.inr (Or.inr (Or.inl h)))

/-- Spans within spans that are apart are apart. -/
theorem Apart.mono {s s' t t' : Span} (h : Apart s t) (hs : s.encloses s' = true)
    (ht : t.encloses t' = true) :
  Apart s' t'
  := fun n hs' ht' => h n (contains_of_encloses hs hs') (contains_of_encloses ht ht')

/-- Spans that are not empty intersect when some offset lies in both. -/
theorem intersects_iff_exists_contains {s t : Span} (hs : s.start < s.stop)
    (ht : t.start < t.stop) :
  s.intersects t = true ↔ ∃ n, s.contains n = true ∧ t.contains n = true
  := by
  rw [intersects, Bool.and_eq_true, decide_eq_true_eq, decide_eq_true_eq]
  constructor
  · intro h
    use max s.start t.start
    rw [contains_iff, contains_iff]
    omega
  · rintro ⟨n, hsn, htn⟩
    rw [contains_iff] at hsn htn
    omega

/-! ### Consecutive ranges -/

/-- Ranges that lead from one offset to another: none is empty, and each of them begins where the
one before it ends. -/
inductive Consecutive : Nat → Nat → List Span → Prop where
  | nil {n : Nat} : Consecutive n n []
  | cons {start middle stop : Nat} {rest : List Span} (hlt : start < middle)
      (h : Consecutive middle stop rest) : Consecutive start stop (⟨start, middle⟩ :: rest)

namespace Consecutive

variable {start stop : Nat} {ranges : List Span}

/-- Consecutive ranges hold every offset between their ends. -/
theorem exists_contains {n : Nat} (h : Consecutive start stop ranges) (hstart : start ≤ n)
    (hstop : n < stop) :
  ∃ r ∈ ranges, r.contains n = true
  := by
  induction h with
  | nil => omega
  | @cons start middle stop rest _ _ ih =>
      by_cases hn : n < middle
      · use ⟨start, middle⟩, List.mem_cons_self
        rw [contains_iff]
        exact ⟨hstart, hn⟩
      · obtain ⟨r, hr, hcontains⟩ := ih (by omega) hstop
        use r, List.mem_cons_of_mem _ hr

/-- None of consecutive ranges is empty, and none begins before all of them do. -/
theorem lies (h : Consecutive start stop ranges) :
  ∀ r ∈ ranges, start ≤ r.start ∧ r.start < r.stop
  := by
  induction h with
  | nil => simp
  | cons hlt _ ih =>
      rw [List.forall_mem_cons]
      constructor
      · exact ⟨Nat.le_refl _, hlt⟩
      · intro r hr
        obtain ⟨hstart, hstop⟩ := ih r hr
        exact ⟨by omega, hstop⟩

/-- Each of consecutive ranges ends before the later ones begin. -/
theorem pairwise (h : Consecutive start stop ranges) :
  ranges.Pairwise fun r s => r.stop ≤ s.start
  := by
  induction h with
  | nil => exact .nil
  | cons _ hrest ih => exact .cons (fun r hr => (hrest.lies r hr).1) ih

end Consecutive

/-- Ranges that lead from one offset to another, of which some may be empty: each of them begins at
the farthest end of those before it. -/
inductive Leads : Nat → Nat → List Span → Prop where
  | nil {n : Nat} : Leads n n []
  | cons {start stop last : Nat} {rest : List Span} (h : Leads (max start stop) last rest) :
      Leads start last (⟨start, stop⟩ :: rest)

/-- Ranges hold every offset between those from which and to which they lead. -/
theorem Leads.exists_contains {start last n : Nat} {ranges : List Span}
    (h : Leads start last ranges) (hstart : start ≤ n) (hlast : n < last) :
  ∃ r ∈ ranges, r.contains n = true
  := by
  induction h with
  | nil => omega
  | @cons start stop last rest _ ih =>
      by_cases hn : n < stop
      · use ⟨start, stop⟩, List.mem_cons_self
        rw [contains_iff]
        exact ⟨hstart, hn⟩
      · obtain ⟨r, hr, hcontains⟩ := ih (by omega) hlast
        use r, List.mem_cons_of_mem _ hr

/-- Ranges none of which is empty lead on consecutively. -/
theorem Leads.consecutive {start last : Nat} {ranges : List Span} (h : Leads start last ranges)
    (hne : ∀ r ∈ ranges, r.start < r.stop) :
  Consecutive start last ranges
  := by
  induction h with
  | nil => exact .nil
  | @cons start stop last rest _ ih =>
      rw [List.forall_mem_cons] at hne
      have hrest := ih hne.2
      rw [Nat.max_eq_right (Nat.le_of_lt hne.1)] at hrest
      exact .cons hne.1 hrest

/-! ### Joining spans in the order of their beginnings -/

/-- The ranges begin no later than `n`. -/
def StartUpTo (n : Nat) (taken : List Span) : Prop :=
  ∀ r ∈ taken.head?, r.start ≤ n

theorem startUpTo_joinStep (taken : List Span) (s : Span) :
  StartUpTo s.start taken → StartUpTo s.start (joinStep taken s)
  := by
  intro h
  cases taken with
  | nil => simp [StartUpTo, joinStep]
  | cons last rest =>
      have hlast : last.start ≤ s.start := h last (by simp)
      by_cases ht : s.start ≤ last.stop
      · simpa [StartUpTo, joinStep, ht] using hlast
      · simp [StartUpTo, joinStep, ht]

/-- A span that is joined lies in one of the ranges that result. -/
theorem joinStep_encloses_self {taken : List Span} {s : Span} (h : StartUpTo s.start taken) :
  ∃ r ∈ joinStep taken s, r.encloses s = true
  := by
  cases taken with
  | nil => use s; simp [joinStep]
  | cons last rest =>
      have hlast : last.start ≤ s.start := h last (by simp)
      by_cases ht : s.start ≤ last.stop
      · use ⟨last.start, max last.stop s.stop⟩
        constructor
        · simp [joinStep, ht]
        · exact encloses_iff.mpr ⟨hlast, Nat.le_max_right _ _⟩
      · use s
        simp [joinStep, ht]

/-- A range that was taken before lies in one of the ranges that result. -/
theorem joinStep_encloses_taken {taken : List Span} (s : Span) {r : Span} (hr : r ∈ taken) :
  ∃ r' ∈ joinStep taken s, r'.encloses r = true
  := by
  cases taken with
  | nil => simp at hr
  | cons last rest =>
      by_cases ht : s.start ≤ last.stop
      · rcases List.mem_cons.mp hr with rfl | hr
        · use ⟨r.start, max r.stop s.stop⟩
          constructor
          · simp [joinStep, ht]
          · exact encloses_iff.mpr ⟨Nat.le_refl _, Nat.le_max_left _ _⟩
        · use r
          simp [joinStep, ht, hr]
      · use r
        simp only [joinStep, ht, if_false, encloses_refl, and_true]
        apply List.mem_cons_of_mem _ hr

/-- Joining brings in no offset. -/
theorem contains_of_joinStep {taken : List Span} {s r : Span} {n : Nat}
    (hr : r ∈ joinStep taken s) (hn : r.contains n = true) :
  ∃ s' ∈ s :: taken, s'.contains n = true
  := by
  cases taken with
  | nil => exact ⟨r, hr, hn⟩
  | cons last rest =>
      by_cases ht : s.start ≤ last.stop
      · simp only [joinStep, ht, if_true, List.mem_cons] at hr
        rcases hr with rfl | hr
        · simp only [contains_iff] at hn
          by_cases hlast : n < last.stop
          · exact ⟨last, by simp, contains_iff.mpr ⟨hn.1, hlast⟩⟩
          · exact ⟨s, by simp, contains_iff.mpr (by omega)⟩
        · exact ⟨r, by simp [hr], hn⟩
      · simp only [joinStep, ht, if_false] at hr
        exact ⟨r, hr, hn⟩

/-- The ends of the ranges that result are ends of what was joined. -/
theorem ends_of_joinStep {taken : List Span} {s r : Span} (hr : r ∈ joinStep taken s) :
  (∃ s' ∈ s :: taken, s'.start = r.start) ∧ (∃ s' ∈ s :: taken, s'.stop = r.stop)
  := by
  cases taken with
  | nil => exact ⟨⟨r, hr, rfl⟩, ⟨r, hr, rfl⟩⟩
  | cons last rest =>
      by_cases ht : s.start ≤ last.stop
      · simp only [joinStep, ht, if_true, List.mem_cons] at hr
        rcases hr with rfl | hr
        · constructor
          · exact ⟨last, by simp, rfl⟩
          · rcases Nat.le_total last.stop s.stop with h | h
            · exact ⟨s, by simp, (Nat.max_eq_right h).symm⟩
            · exact ⟨last, by simp, (Nat.max_eq_left h).symm⟩
        · exact ⟨⟨r, by simp [hr], rfl⟩, ⟨r, by simp [hr], rfl⟩⟩
      · simp only [joinStep, ht, if_false] at hr
        exact ⟨⟨r, hr, rfl⟩, ⟨r, hr, rfl⟩⟩

/-- Whatever has been taken or is still to be joined lies in one of the ranges that result, when
spans are joined in the order of their beginnings. -/
theorem foldl_joinStep_encloses (spans : List Span) :
    ∀ taken : List Span, (spans.Pairwise fun s t => s.start ≤ t.start) →
      (∀ s ∈ spans, StartUpTo s.start taken) →
      ∀ s ∈ taken ++ spans, ∃ r ∈ spans.foldl joinStep taken, r.encloses s = true
  := by
  induction spans with
  | nil =>
      intro taken _ _ s hs
      rw [List.append_nil] at hs
      exact ⟨s, hs, encloses_refl s⟩
  | cons head rest ih =>
      intro taken hsorted htaken s hs
      obtain ⟨hhead, hrest⟩ := List.pairwise_cons.mp hsorted
      have hup := htaken head (by simp)
      have hnext : ∀ t ∈ rest, StartUpTo t.start (joinStep taken head) := by
        intro t ht r hr
        apply Nat.le_trans (startUpTo_joinStep taken head hup r hr) (hhead t ht)
      have step : ∃ s' ∈ joinStep taken head ++ rest, s'.encloses s = true := by
        rcases List.mem_append.mp hs with hs | hs
        · obtain ⟨r, hr, henc⟩ := joinStep_encloses_taken head hs
          exact ⟨r, List.mem_append_left _ hr, henc⟩
        · rcases List.mem_cons.mp hs with rfl | hs
          · obtain ⟨r, hr, henc⟩ := joinStep_encloses_self hup
            exact ⟨r, List.mem_append_left _ hr, henc⟩
          · exact ⟨s, List.mem_append_right _ hs, encloses_refl s⟩
      obtain ⟨s', hs', henc⟩ := step
      obtain ⟨r, hr, henc'⟩ := ih (joinStep taken head) hrest hnext s' hs'
      exact ⟨r, hr, encloses_trans henc' henc⟩

/-- Joining a list of spans brings in no offset. -/
theorem contains_of_foldl_joinStep (spans : List Span) :
    ∀ (taken : List Span) {r : Span} {n : Nat}, r ∈ spans.foldl joinStep taken →
      r.contains n = true → ∃ s ∈ taken ++ spans, s.contains n = true
  := by
  induction spans with
  | nil =>
      intro taken r n hr hn
      exact ⟨r, by simpa using hr, hn⟩
  | cons head rest ih =>
      intro taken r n hr hn
      obtain ⟨s, hs, hsn⟩ := ih (joinStep taken head) hr hn
      rcases List.mem_append.mp hs with hs | hs
      · obtain ⟨s', hs', hn'⟩ := contains_of_joinStep hs hsn
        exact ⟨s', by grind, hn'⟩
      · exact ⟨s, by simp [hs], hsn⟩

/-- The ends of the ranges that result from a list of spans are ends of what was joined. -/
theorem ends_of_foldl_joinStep (spans : List Span) :
    ∀ (taken : List Span) {r : Span}, r ∈ spans.foldl joinStep taken →
      (∃ s ∈ taken ++ spans, s.start = r.start) ∧ (∃ s ∈ taken ++ spans, s.stop = r.stop)
  := by
  induction spans with
  | nil =>
      intro taken r hr
      exact ⟨⟨r, by simpa using hr, rfl⟩, ⟨r, by simpa using hr, rfl⟩⟩
  | cons head rest ih =>
      intro taken r hr
      -- an end of a range that was just joined is an end of the range before, or of `head`
      have back : ∀ s ∈ joinStep taken head ++ rest,
          (∃ s' ∈ taken ++ head :: rest, s'.start = s.start)
            ∧ (∃ s' ∈ taken ++ head :: rest, s'.stop = s.stop) := by
        intro s hs
        rcases List.mem_append.mp hs with hs | hs
        · obtain ⟨⟨a, ha, hstart⟩, ⟨b, hb, hstop⟩⟩ := ends_of_joinStep hs
          exact ⟨⟨a, by grind, hstart⟩, ⟨b, by grind, hstop⟩⟩
        · exact ⟨⟨s, by simp [hs], rfl⟩, ⟨s, by simp [hs], rfl⟩⟩
      obtain ⟨⟨a, ha, hstart⟩, ⟨b, hb, hstop⟩⟩ := ih (joinStep taken head) hr
      constructor
      · obtain ⟨a', ha', h⟩ := (back a ha).1
        exact ⟨a', ha', h.trans hstart⟩
      · obtain ⟨b', hb', h⟩ := (back b hb).2
        exact ⟨b', hb', h.trans hstop⟩

/-- The ranges are not empty, and each of them ends before the one that was taken after it begins.
The latest one stands first. -/
def Separated (taken : List Span) : Prop :=
  (∀ r ∈ taken, r.start < r.stop) ∧ taken.Pairwise fun r earlier => earlier.stop < r.start

/-- Joining a span that is not empty keeps the ranges separated. -/
theorem separated_joinStep {taken : List Span} {s : Span} (h : Separated taken)
    (hup : StartUpTo s.start taken) (hs : s.start < s.stop) :
  Separated (joinStep taken s)
  := by
  obtain ⟨hnonempty, happart⟩ := h
  cases taken with
  | nil => simpa [Separated, joinStep] using hs
  | cons last rest =>
      have hlast : last.start ≤ s.start := hup last (by simp)
      obtain ⟨hlastStop, hrestStop⟩ := List.forall_mem_cons.mp hnonempty
      obtain ⟨hbefore, hrest⟩ := List.pairwise_cons.mp happart
      by_cases ht : s.start ≤ last.stop
      · simp only [Separated, joinStep, ht, if_true]
        constructor
        · apply List.forall_mem_cons.mpr ⟨_, hrestStop⟩
          exact Nat.lt_of_lt_of_le hlastStop (Nat.le_max_left _ _)
        · exact .cons hbefore hrest
      · simp only [Separated, joinStep, ht, if_false]
        constructor
        · exact List.forall_mem_cons.mpr ⟨hs, hnonempty⟩
        · apply List.Pairwise.cons _ happart
          intro r hr
          rcases List.mem_cons.mp hr with rfl | hr
          · omega
          · have := hbefore r hr
            omega

/-- The ranges that result from spans in the order of their beginnings are separated. -/
theorem separated_foldl_joinStep (spans : List Span) :
    ∀ taken : List Span, Separated taken → (∀ s ∈ spans, s.start < s.stop) →
      (spans.Pairwise fun s t => s.start ≤ t.start) → (∀ s ∈ spans, StartUpTo s.start taken) →
      Separated (spans.foldl joinStep taken)
  := by
  induction spans with
  | nil =>
      intro taken htaken _ _ _
      exact htaken
  | cons head rest ih =>
      intro taken htaken hnonempty hsorted hup
      obtain ⟨hhead, hrest⟩ := List.forall_mem_cons.mp hnonempty
      obtain ⟨hfirst, hsorted⟩ := List.pairwise_cons.mp hsorted
      obtain ⟨hheadUp, -⟩ := List.forall_mem_cons.mp hup
      apply ih _ (separated_joinStep htaken hheadUp hhead) hrest hsorted
      intro t ht r hr
      apply Nat.le_trans (startUpTo_joinStep taken head hheadUp r hr) (hfirst t ht)

/-! ### The canonical form -/

theorem le_iff {s t : Span} :
  s.le t = true ↔ s.start < t.start ∨ (s.start = t.start ∧ s.stop ≤ t.stop)
  := by
  simp only [le, before, Bool.not_eq_true', Bool.or_eq_false_iff, Bool.and_eq_false_iff,
    decide_eq_false_iff_not, beq_eq_false_iff_ne]
  omega

theorem le_transitive (s t u : Span) (hst : s.le t = true) (htu : t.le u = true) :
  s.le u = true
  := by
  rw [le_iff] at *
  omega

theorem le_or_le (s t : Span) :
  (s.le t || t.le s) = true
  := by
  rw [Bool.or_eq_true, le_iff, le_iff]
  omega

theorem le_antisymmetric {s t : Span} (hst : s.le t = true) (hts : t.le s = true) :
  s = t
  := by
  rw [le_iff] at hst hts
  obtain ⟨start, stop⟩ := s
  obtain ⟨start', stop'⟩ := t
  rw [mk.injEq]
  dsimp only at hst hts
  omega

/-- Sorting puts spans into the order of their beginnings. -/
theorem pairwise_start_mergeSort (spans : List Span) :
  (spans.mergeSort le).Pairwise fun s t => s.start ≤ t.start
  := by
  apply (List.pairwise_mergeSort le_transitive le_or_le spans).imp
  intro s t h
  rw [le_iff] at h
  omega

/-- A span that is not empty lies in one of the merged ranges. -/
theorem exists_mem_merge_encloses {spans : List Span} {s : Span} (hs : s ∈ spans)
    (hne : s.start < s.stop) :
  ∃ r ∈ merge spans, r.encloses s = true
  := by
  have hmem : s ∈ (spans.filter (!·.isEmpty)).mergeSort le := by
    rw [List.mem_mergeSort, List.mem_filter]
    exact ⟨hs, by simp [isEmpty, hne]⟩
  obtain ⟨r, hr, henc⟩ := foldl_joinStep_encloses _ [] (pairwise_start_mergeSort _)
    (by simp [StartUpTo]) s hmem
  exact ⟨r, by simpa [merge] using hr, henc⟩

/-- Merged ranges are not empty, and each of them ends before the next one begins. -/
theorem separated_merge (spans : List Span) :
  (∀ r ∈ merge spans, r.start < r.stop) ∧ (merge spans).Pairwise fun r s => r.stop < s.start
  := by
  have hnonempty : ∀ s ∈ (spans.filter (!·.isEmpty)).mergeSort le, s.start < s.stop := by
    intro s hs
    rw [List.mem_mergeSort, List.mem_filter] at hs
    simpa [isEmpty] using hs.2
  obtain ⟨hforward, happart⟩ := separated_foldl_joinStep _ [] (by simp [Separated]) hnonempty
    (pairwise_start_mergeSort _) (by simp [StartUpTo])
  constructor
  · intro r hr
    apply hforward r (List.mem_reverse.mp hr)
  · apply List.pairwise_reverse.mpr happart

/-- What a merged range holds, one of the spans holds. -/
theorem exists_contains_of_mem_merge {spans : List Span} {r : Span} {n : Nat}
    (hr : r ∈ merge spans) (hn : r.contains n = true) :
  ∃ s ∈ spans, s.contains n = true
  := by
  obtain ⟨s, hs, hsn⟩ := contains_of_foldl_joinStep _ [] (by simpa [merge] using hr) hn
  simp only [List.nil_append, List.mem_mergeSort, List.mem_filter] at hs
  exact ⟨s, hs.1, hsn⟩

/-- The merged ranges hold exactly what the spans hold. -/
theorem any_contains_merge (spans : List Span) (n : Nat) :
  (merge spans).any (·.contains n) = spans.any (·.contains n)
  := by
  rw [Bool.eq_iff_iff, List.any_eq_true, List.any_eq_true]
  constructor
  · rintro ⟨r, hr, hn⟩
    apply exists_contains_of_mem_merge hr hn
  · rintro ⟨s, hs, hn⟩
    have hne : s.start < s.stop := by
      rw [contains_iff] at hn
      omega
    obtain ⟨r, hr, henc⟩ := exists_mem_merge_encloses hs hne
    exact ⟨r, hr, contains_of_encloses henc hn⟩

/-- A merged range begins where one of the spans begins, and ends where one of them ends. -/
theorem exists_ends_of_mem_merge {spans : List Span} {r : Span} (hr : r ∈ merge spans) :
  (∃ s ∈ spans, s.start = r.start) ∧ (∃ s ∈ spans, s.stop = r.stop)
  := by
  obtain ⟨⟨a, ha, hstart⟩, ⟨b, hb, hstop⟩⟩ :=
    ends_of_foldl_joinStep _ [] (by simpa [merge] using hr)
  simp only [List.nil_append, List.mem_mergeSort, List.mem_filter] at ha hb
  exact ⟨⟨a, ha.1, hstart⟩, ⟨b, hb.1, hstop⟩⟩

end Stencil.Span
