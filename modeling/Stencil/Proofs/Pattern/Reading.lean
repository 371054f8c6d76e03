import Mathlib.Data.List.Basic
import Stencil.Proofs.Pattern.Escape
import Stencil.Proofs.Pattern.Place

/-!
# What a pattern begins with

In one step the reader of a pattern ends an alternative, takes a further item, or repeats the last
item, and this only before a sign of repetition.  So it never comes back to the items below the last
one, and what it has read in the end begins with them.

A pattern begins with a text if each of its matches does.  A pattern that was read from characters
with no meaning of their own begins with these characters, up to one that a repetition may leave
out, provided that its other alternatives begin with them too.
-/

namespace Stencil.Pattern

open Text

/-! ### The steps of a reader -/

/-- The text begins with a sign that repeats what stands before it. -/
def startsRepetition : Text → Bool
  | [] => false
  | c :: _ => c ∈ ['*', '+', '?', '{']

/-- What a reader may make in one step, where the given text is ahead, of what it has taken. -/
inductive Partial.Step (t : Text) (b : Partial) : Partial → Prop where
  | alternative : Step t b b.nextAlternative
  | item (f : Flags) (i : Option Pattern) : Step t b ⟨f, b.done, i :: b.items⟩
  | again (h : startsRepetition t = true) (r : Pattern → Pattern) {p : Pattern}
      {items : List (Option Pattern)} (hlast : b.items = some p :: items) :
      Step t b ⟨b.flags, b.done, some (r p) :: items⟩

/-- A repetition repeats the last item. -/
theorem Partial.step_of_repeat? {t : Text} {b b' : Partial} {r : Pattern → Pattern}
    (ht : startsRepetition t = true) (h : b.repeat? r = some b') :
  Step t b b'
  := by
  unfold Partial.repeat? at h
  split at h
  · next p items hlast =>
      obtain rfl := Option.some.inj h
      exact .again ht r hlast
  · cases h

/-- A reader ends with the pattern of all that was taken, or it takes a step and goes on. -/
theorem step_of_body? {limit : Nat} {b : Partial} {g g' : Groups} {t rest : Text} {p : Pattern}
    (h : body? (limit + 1) b g t = some (p, g', rest)) :
  p = b.pattern
    ∨ ∃ b' g₁ t₁, Partial.Step (skipSpace b.flags t) b b'
      ∧ body? limit b' g₁ t₁ = some (p, g', rest)
  := by
  rw [body?] at h
  dsimp only at h
  generalize skipSpace b.flags t = t at h ⊢
  split at h
  · left
    exact (congrArg Prod.fst (Option.some.inj h)).symm
  · left
    exact (congrArg Prod.fst (Option.some.inj h)).symm
  · right
    exact ⟨_, _, _, .alternative, h⟩
  · right
    split at h
    · cases h
    · exact ⟨_, _, _, .item _ _, h⟩
    · split at h
      · exact ⟨_, _, _, .item _ _, h⟩
      · cases h
    · split at h
      · cases h
      · split at h
        · exact ⟨_, _, _, .item _ _, h⟩
        · cases h
  · right
    split at h
    · exact ⟨_, _, _, .item _ _, h⟩
    · cases h
  · right
    split at h
    · next hrepeat => exact ⟨_, _, _, Partial.step_of_repeat? rfl hrepeat, h⟩
    · cases h
  · right
    split at h
    · next hrepeat => exact ⟨_, _, _, Partial.step_of_repeat? rfl hrepeat, h⟩
    · cases h
  · right
    split at h
    · next hrepeat => exact ⟨_, _, _, Partial.step_of_repeat? rfl hrepeat, h⟩
    · cases h
  · right
    split at h
    · cases h
    · split at h
      · next hrepeat => exact ⟨_, _, _, Partial.step_of_repeat? rfl hrepeat, h⟩
      · cases h
  · right
    exact ⟨_, _, _, .item _ _, h⟩
  · right
    exact ⟨_, _, _, .item _ _, h⟩
  · right
    exact ⟨_, _, _, .item _ _, h⟩
  · right
    split at h
    · exact ⟨_, _, _, .item _ _, h⟩
    · exact ⟨_, _, _, .item _ _, h⟩
    · exact ⟨_, _, _, .item _ _, h⟩
    · cases h
  · right
    exact ⟨_, _, _, .item _ _, h⟩

/-! ### What is kept -/

/-- The pattern has the alternatives `done`, then one that has the items `items` and goes on with
the items `more`, and then any others. -/
def Continues (done : List Pattern) (items more : List (Option Pattern)) (p : Pattern) : Prop :=
  ∃ others, p = alts (done.reverse ++ seqs ((items.reverse ++ more).filterMap id) :: others)

variable {done : List Pattern} {items : List (Option Pattern)} {p : Pattern}

theorem continues_cons {i : Option Pattern} {more : List (Option Pattern)} :
  Continues done (i :: items) more p ↔ Continues done items (i :: more) p
  := by
  rw [Continues, Continues, List.reverse_cons, List.append_assoc, List.singleton_append]

/-- An alternative that was ended has no more items. -/
theorem Continues.ended {more : List (Option Pattern)}
    (h : Continues (seqs (items.reverse.filterMap id) :: done) [] more p) :
  Continues done items [] p
  := by
  obtain ⟨others, rfl⟩ := h
  use seqs (more.filterMap id) :: others
  rw [List.reverse_cons, List.append_assoc, List.append_nil, List.reverse_nil, List.nil_append,
    List.singleton_append]

theorem continues_pattern (b : Partial) :
  Continues b.done b.items [] b.pattern
  := by
  use []
  rw [Partial.pattern, Partial.nextAlternative, List.reverse_cons, List.append_nil]

/-- What is read keeps the alternatives that were ended, and all items but the last. -/
theorem continues_tail_of_body? {g' : Groups} {rest : Text} (limit : Nat) :
    ∀ {b : Partial} {g : Groups} {t : Text}, body? limit b g t = some (p, g', rest) →
      ∃ more, Continues b.done b.items.tail more p
  := by
  induction limit with
  | zero =>
      intro b g t h
      cases h
  | succ limit ih =>
      intro b g t h
      -- what is kept with the last item is kept without it
      have htail (more : List (Option Pattern)) (h : Continues b.done b.items more p) :
          ∃ more, Continues b.done b.items.tail more p := by
        cases hitems : b.items with
        | nil =>
            rw [hitems] at h
            exact ⟨more, h⟩
        | cons i items =>
            rw [hitems] at h
            exact ⟨i :: more, continues_cons.mp h⟩
      rcases step_of_body? h with rfl | ⟨b', g₁, t₁, hstep, hrest⟩
      · exact htail [] (continues_pattern b)
      · obtain ⟨more, hmore⟩ := ih hrest
        cases hstep with
        | alternative => exact htail [] hmore.ended
        | item f i => exact htail more hmore
        | again _ r hlast => exact ⟨more, by rwa [hlast]⟩

/-- Where no sign of repetition is ahead the last item is kept as well. -/
theorem continues_of_body? {limit : Nat} {b : Partial} {g g' : Groups} {t rest : Text}
    (hb : b.flags.verbose = false) (ht : startsRepetition t = false)
    (h : body? limit b g t = some (p, g', rest)) :
  ∃ more, Continues b.done b.items more p
  := by
  cases limit with
  | zero => cases h
  | succ limit =>
      rcases step_of_body? h with rfl | ⟨b', g₁, t₁, hstep, hrest⟩
      · exact ⟨[], continues_pattern b⟩
      · obtain ⟨more, hmore⟩ := continues_tail_of_body? limit hrest
        cases hstep with
        | alternative => exact ⟨[], hmore.ended⟩
        | item f i => exact ⟨more, hmore⟩
        | again hsign _ _ =>
            rw [skipSpace_eq hb, ht] at hsign
            cases hsign

/-! ### The beginning of matches -/

/-- Every match of the pattern begins with the text. -/
def Begins (o : Text) (p : Pattern) : Prop :=
  ∀ (t : Text) (first : Nat) (s : State), s.Within t first → ∀ e ∈ outcomes p s,
    o <+: s.rest ∧ s.pos + width o ≤ e.pos

theorem begins_nil (p : Pattern) :
  Begins [] p
  := by
  intro t first s hs e he
  exact ⟨List.nil_prefix, (leads_outcomes p s hs e he).2⟩

variable {o : Text}

theorem begins_char (c : Char) :
  Begins [c] (char c)
  := by
  intro t first s hs e he
  obtain ⟨pos, prev, rest, groups⟩ := s
  cases rest with
  | nil => simp [char, outcomes] at he
  | cons d rest =>
      by_cases hd : d = c
      · subst hd
        simp only [char, outcomes, CharSet.mem_single, beq_self_eq_true, if_true,
          List.mem_singleton] at he
        subst he
        exact ⟨by simp, by simp⟩
      · simp [char, outcomes, CharSet.mem_single, Ne.symm hd] at he

/-- What goes on after a beginning begins with it. -/
theorem Begins.seqs_cons (h : Begins o p) (rest : List Pattern) :
  Begins o (seqs (p :: rest))
  := by
  intro t first s hs e he
  rw [outcomes_seqs_cons] at he
  obtain ⟨mid, hmid, he⟩ := List.mem_flatMap.mp he
  obtain ⟨hbegins, hwidth⟩ := h _ _ s hs mid hmid
  obtain ⟨hwithin, -⟩ := leads_outcomes p s hs mid hmid
  obtain ⟨-, hle⟩ := leads_outcomes (seqs rest) mid hwithin e he
  exact ⟨hbegins, Nat.le_trans hwidth hle⟩

/-- A character goes before what the patterns after it begin with. -/
theorem Begins.seqs_char_cons {rest : List Pattern} (h : Begins o (seqs rest)) (c : Char) :
  Begins (c :: o) (seqs (char c :: rest))
  := by
  intro t first s hs e he
  rw [outcomes_seqs_cons] at he
  obtain ⟨mid, hmid, he⟩ := List.mem_flatMap.mp he
  obtain ⟨hwithin, -⟩ := leads_outcomes (char c) s hs mid hmid
  obtain ⟨hbegins, hwidth⟩ := h _ _ mid hwithin e he
  obtain ⟨pos, prev, ahead, groups⟩ := s
  cases ahead with
  | nil => simp [char, outcomes] at hmid
  | cons d ahead =>
      by_cases hd : d = c
      · subst hd
        simp only [char, outcomes, CharSet.mem_single, beq_self_eq_true, if_true,
          List.mem_singleton] at hmid
        subst hmid
        constructor
        · exact List.cons_prefix_cons.mpr ⟨rfl, hbegins⟩
        · rw [width_cons]
          simp only at hwidth ⊢
          omega
      · simp [char, outcomes, CharSet.mem_single, Ne.symm hd] at hmid

/-- One or more turns begin with what a turn begins with. -/
theorem Begins.turns (h : Begins o p) (greedy : Bool) :
  Begins o (turns greedy p)
  := by
  intro t first s hs e he
  obtain ⟨mid, hmid, -, -, -, hle⟩ := exists_first_turn (leads_outcomes p) hs he
  obtain ⟨hbegins, hwidth⟩ := h _ _ s hs mid hmid
  exact ⟨hbegins, Nat.le_trans hwidth hle⟩

/-- A choice begins with what both sides begin with. -/
theorem Begins.alt {q : Pattern} (hp : Begins o p) (hq : Begins o q) :
  Begins o (alt p q)
  := by
  intro t first s hs e he
  rcases List.mem_append.mp he with he | he
  · exact hp t first s hs e he
  · exact hq t first s hs e he

/-- A match that is found begins with what its pattern begins with. -/
theorem Begins.find? (h : Begins o p) {t : Text} {start : Nat} {m : Match}
    (hstart : IsBoundary start t) (hm : p.find? t start = some m) :
  o <+: m.span.text t
  := by
  obtain ⟨n, -, hn, hmatch⟩ := exists_matchAt?_of_find? hstart hm
  rw [matchAt?, Option.map_eq_some_iff] at hmatch
  obtain ⟨e, he, rfl⟩ := hmatch
  have hwithin := State.Within.initial (before n t).getLast? hn
  obtain ⟨hbegins, hwidth⟩ := h _ _ _ hwithin e (List.mem_of_mem_head? he)
  obtain ⟨hend, hle⟩ := leads_outcomes p _ hwithin e (List.mem_of_mem_head? he)
  apply isPrefix_slice hn hend.boundary hle hbegins hwidth

end Stencil.Pattern
