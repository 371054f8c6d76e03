import Stencil.Proofs.Text.Bytes
import Stencil.Tag.Settings

/-!
# The matches of a pair of delimiters

The literal pattern of a text matches where the text stands, in one way.  The lazy repetition of
any character tries the places of a text from left to right.  So the pattern of two delimiters
matches where the opening one stands and the closing one stands anywhere after it, and it prefers
the first closing one.
-/

namespace Stencil.Pattern

open Text

/-- The state after a text that stands ahead. -/
def State.after (s : State) (t : Text) : State :=
  ⟨s.pos + width t, t.getLast?.or s.prev, s.rest.drop t.length, s.groups⟩

theorem State.after_cons (pos : Nat) (prev : Option Char) (rest : Text)
    (groups : List (Nat × Span)) (c d : Char) (t : Text) :
  State.after ⟨pos, prev, d :: rest, groups⟩ (c :: t)
    = State.after ⟨pos + c.utf8Size, some c, rest, groups⟩ t
  := by
  simp only [State.after, width_cons, List.length_cons, List.drop_succ_cons, Nat.add_assoc,
    List.getLast?_cons]
  cases t.getLast? <;> rfl

/-- A literal pattern matches where its text stands ahead. -/
theorem outcomes_literal (t : Text) (s : State) :
  outcomes (literal t) s = if t.isPrefixOf s.rest then [s.after t] else []
  := by
  induction t generalizing s with
  | nil => simp [literal, outcomes, State.after]
  | cons c t ih =>
      obtain ⟨pos, prev, rest, groups⟩ := s
      cases rest with
      | nil => simp [literal, char, outcomes]
      | cons d rest =>
          by_cases hc : c = d
          · subst hc
            simp only [literal, char, outcomes, CharSet.mem_single, beq_self_eq_true, if_true,
              List.flatMap_singleton, ih, List.isPrefixOf_cons_cons, Bool.true_and,
              State.after_cons]
          · simp [literal, char, outcomes, hc]

/-! ### Going on to any later place -/

/-- The states at the places of a text from left to right. -/
def places (groups : List (Nat × Span)) : Nat → Option Char → Text → List State
  | pos, prev, [] => [⟨pos, prev, [], groups⟩]
  | pos, prev, c :: t => ⟨pos, prev, c :: t, groups⟩ :: places groups (pos + c.utf8Size) (some c) t

theorem outcomes_any_cons (pos : Nat) (prev : Option Char) (c : Char) (t : Text)
    (groups : List (Nat × Span)) :
  outcomes (one .all) ⟨pos, prev, c :: t, groups⟩ = [⟨pos + c.utf8Size, some c, t, groups⟩]
  := rfl

theorem further_any (groups : List (Nat × Span)) (rest : Text) :
    ∀ (pos : Nat) (prev : Option Char),
      further (outcomes (one .all)) false rest.length ⟨pos, prev, rest, groups⟩
        = places groups pos prev rest
  := by
  induction rest with
  | nil =>
      intro pos prev
      rfl
  | cons c t ih =>
      intro pos prev
      have hmoves : (pos + c.utf8Size != pos) = true := by
        have hc := c.utf8Size_pos
        simp only [bne_iff_ne]
        omega
      rw [List.length_cons, further, outcomes_any_cons, List.filter_singleton, hmoves]
      simp [ih, places]

/-- The lazy repetition of any character goes on to any later place, the nearest first. -/
theorem outcomes_star_any (pos : Nat) (prev : Option Char) (rest : Text)
    (groups : List (Nat × Span)) :
  outcomes (star false (one .all)) ⟨pos, prev, rest, groups⟩ = places groups pos prev rest
  := by
  rw [star, outcomes, if_neg (by simp), outcomes, repeated]
  cases rest with
  | nil => rfl
  | cons c t =>
      have hc := c.utf8Size_pos
      rw [outcomes_any_cons, List.flatMap_singleton, if_neg (by dsimp only; omega), further_any,
        places]

/-- Of the places after which a text stands, the first one is preferred. -/
theorem head?_flatMap_places (t : Text) (first : Nat) (rest : Text) :
    ∀ (pos : Nat) (prev : Option Char),
      (((places [] pos prev rest).map (·.record 1 first)).flatMap (outcomes (literal t))).head?.map
          (fun e => (e.pos, e.group? 1))
        = (Text.find? t rest).map fun n => (pos + n + width t, some ⟨first, pos + n⟩)
  := by
  induction rest with
  | nil =>
      intro pos prev
      cases t with
      | nil => rfl
      | cons d t => rfl
  | cons c rest ih =>
      intro pos prev
      rw [places, List.map_cons, List.flatMap_cons, Text.find?]
      have hhere := outcomes_literal t (State.record ⟨pos, prev, c :: rest, []⟩ 1 first)
      by_cases hstands : t.isPrefixOf (c :: rest) = true
      · rw [hhere.trans (if_pos hstands), if_pos hstands]
        rfl
      · rw [hhere.trans (if_neg hstands), if_neg hstands, List.nil_append, ih, Option.map_map]
        congr 1
        funext n
        simp only [Function.comp_apply, Nat.add_assoc]

/-! ### The pattern of two delimiters -/

/-- The match of two delimiters at a place where the opening one stands goes on to the first closing
one after it, with the text between them as its code. -/
theorem matchAt?_between (opening closing : Text) (pos : Nat) (prev : Option Char) (rest : Text) :
  (TagPattern.between opening closing).matchAt? ⟨pos, prev, rest, []⟩
    = if opening.isPrefixOf rest then
        (Text.find? closing (rest.drop opening.length)).map fun n =>
          ⟨⟨pos, pos + width opening + n + width closing⟩,
            some ⟨pos + width opening, pos + width opening + n⟩⟩
      else none
  := by
  rw [matchAt?, TagPattern.between, outcomes, outcomes_literal]
  split
  · have hplaces := head?_flatMap_places closing (pos + width opening) (rest.drop opening.length)
      (pos + width opening) (opening.getLast?.or prev)
    rw [List.flatMap_singleton, outcomes, outcomes]
    dsimp only [State.after]
    rw [outcomes_star_any]
    have hmatch := congrArg
      (Option.map fun (a : Nat × Option Span) => (⟨⟨pos, a.1⟩, a.2⟩ : Match)) hplaces
    rw [Option.map_map, Option.map_map] at hmatch
    exact hmatch
  · rfl

end Stencil.Pattern
