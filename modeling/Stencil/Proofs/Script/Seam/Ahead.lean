import Stencil.Proofs.Script.Seam.Nodes
import Stencil.Proofs.Script.Seam.Steps

/-!
# Behind the code and ahead of the readers

Behind the code the first reader stands at a closing parenthesis and the second one at a semicolon.
No expression goes on with either of them, so the readers leave the code alone there.  For the same
reason a look at the next lexeme tells both readers the same.
-/

namespace Stencil.Script

open Text
open Carries (carry)

namespace Seam

variable {E : Seam} {α β : Type} [Carries α] [Carries β] {t : Bool}

/-! ### Behind the code -/

/-- What the first reader does not get through behind the code is not asked of the second one. -/
theorem Rests.of_oversteps {p p' : Parse α} (h : E.Oversteps p) :
  E.Rests p p'
  := by
  refine ⟨h.toOnward, ?_⟩
  intro r r' a s hmet hrun hclean
  exact (h.never hmet.meets.edge hrun hclean).elim

instance (priority := low) rests_oversteps (p p' : Parse α) [h : E.Oversteps p] : E.Rests p p' :=
  .of_oversteps h

/-- Behind the code the readers stand at the two marks. -/
theorem Rests.bind_current {q q' : Lexeme → Parse α} (hq : ∀ l, E.Onward (q l))
    (h : E.Rests (q (.mark ")")) (q' (.mark ";"))) :
  E.Rests (Parse.current >>= q) (Parse.current >>= q')
  := by
  refine ⟨onward_bind stands_current.toOnward hq, ?_⟩
  intro r r' a s hmet hrun hclean
  change q r.lexed.lexeme r = _ at hrun
  change ∃ s', q' r'.lexed.lexeme r' = _ ∧ _
  rw [hmet.meets.edge.lexeme] at hrun
  rw [hmet.meets.lexeme]
  exact h.goes hmet hrun hclean

instance rests_bind_current (q q' : Lexeme → Parse α) [Placed α]
    [hq : ∀ l, (edges []).Keeps False (q l)] [h : E.Rests (q (.mark ")")) (q' (.mark ";"))] :
    E.Rests (Parse.current >>= q) (Parse.current >>= q') :=
  .bind_current (fun l => .of_keeps (hq l)) h

omit [Carries α] in
theorem Oversteps.bind_current {q : Lexeme → Parse α} (hq : ∀ l, E.Onward (q l))
    (h : E.Oversteps (q (.mark ")"))) :
  E.Oversteps (Parse.current >>= q)
  := by
  have honward := onward_bind (stands_current (E := E)).toOnward hq
  refine ⟨honward.back, ?_⟩
  intro r a s hedge hrun hclean
  change q r.lexed.lexeme r = _ at hrun
  rw [hedge.lexeme] at hrun
  exact h.never hedge hrun hclean

/-- The mark neither closes a parenthesis nor ends a statement. -/
class DeafMark (m : String) : Prop where
  eq_false : (m == ")" || m == ";") = false

section DeafMarks

instance deafMark_comma : DeafMark "," := ⟨rfl⟩

instance deafMark_point : DeafMark "." := ⟨rfl⟩

instance deafMark_link : DeafMark "?." := ⟨rfl⟩

instance deafMark_spread : DeafMark "..." := ⟨rfl⟩

instance deafMark_open : DeafMark "(" := ⟨rfl⟩

instance deafMark_openBracket : DeafMark "[" := ⟨rfl⟩

instance deafMark_openBrace : DeafMark "\x7b" := ⟨rfl⟩

instance deafMark_closeBrace : DeafMark "\x7d" := ⟨rfl⟩

instance deafMark_star : DeafMark "*" := ⟨rfl⟩

instance deafMark_power : DeafMark "**" := ⟨rfl⟩

instance deafMark_plusPlus : DeafMark "++" := ⟨rfl⟩

instance deafMark_minusMinus : DeafMark "--" := ⟨rfl⟩

instance deafMark_greater : DeafMark ">" := ⟨rfl⟩

instance deafMark_equals : DeafMark "=" := ⟨rfl⟩

instance deafMark_arrow : DeafMark "=>" := ⟨rfl⟩

instance deafMark_colon : DeafMark ":" := ⟨rfl⟩

instance deafMark_question : DeafMark "?" := ⟨rfl⟩

end DeafMarks

theorem DeafMark.isMark_eq_false {m : String} (h : DeafMark m) :
  (Lexeme.mark ")").isMark m = false ∧ (Lexeme.mark ";").isMark m = false
  := by
  have hm := h.eq_false
  rw [Bool.or_eq_false_iff, beq_eq_false_iff_ne, beq_eq_false_iff_ne] at hm
  exact ⟨beq_eq_false_iff_ne.mpr hm.1.symm, beq_eq_false_iff_ne.mpr hm.2.symm⟩

instance carried_isMark (m : String) [h : DeafMark m] :
    E.Carried ((Lexeme.mark ")").isMark m) ((Lexeme.mark ";").isMark m) :=
  ⟨h.isMark_eq_false.2.trans h.isMark_eq_false.1.symm⟩

section Marks

instance carried_isWord (w : String) :
    E.Carried ((Lexeme.mark ")").isWord w) ((Lexeme.mark ";").isWord w) := ⟨rfl⟩

instance carried_isEnd : E.Carried (Lexeme.mark ")").isEnd (Lexeme.mark ";").isEnd := ⟨rfl⟩

instance carried_isTemplateStart :
    E.Carried (Lexeme.mark ")").isTemplateStart (Lexeme.mark ";").isTemplateStart := ⟨rfl⟩

end Marks

instance rests_atMark (m : String) [DeafMark m] : E.Rests (Parse.atMark m) (Parse.atMark m) := by
  unfold Parse.atMark
  infer_instance

instance rests_atWord (w : String) : E.Rests (Parse.atWord w) (Parse.atWord w) := by
  unfold Parse.atWord
  infer_instance

instance rests_atEnd : E.Rests Parse.atEnd Parse.atEnd := by
  unfold Parse.atEnd
  infer_instance

instance rests_eat (m : String) [DeafMark m] : E.Rests (Parse.eat m) (Parse.eat m) := by
  unfold Parse.eat
  infer_instance

instance rests_eatWord (w : String) : E.Rests (Parse.eatWord w) (Parse.eatWord w) := by
  unfold Parse.eatWord
  infer_instance

theorem Rests.of_reread {g : Lexed → Lexed}
    (hkeeps : (edges []).Keeps False (modify fun r => r.reread (g r.lexed)))
    (h : ∀ l : Lexed, l.lexeme ∈ [Lexeme.mark ")", .mark ";"] → g l = l) :
  E.Rests (modify fun r => r.reread (g r.lexed) : Parse Unit)
    (modify fun r => r.reread (g r.lexed))
  := by
  refine ⟨.of_keeps hkeeps, ?_⟩
  intro r r' a s hmet hrun hclean
  cases hrun
  obtain ⟨hremembers, hmeets⟩ := hmet
  refine ⟨r'.reread (g r'.lexed), rfl, ⟨hremembers.lastEnd, hremembers.lastEnd_le,
    hremembers.uncovered, hremembers.trailing, ?_, hremembers.faults', ?_⟩, ?_⟩
  · change (g r'.lexed).faults ++ r'.lexFaults = []
    rw [h _ (by simp [hmeets.lexeme]), hmeets.clean, hremembers.lexFaults']
    rfl
  · intro n hn
    apply hremembers.notArrows'
    change (g r.lexed).start ≤ n at hn
    rwa [h _ (by simp [hmeets.edge.lexeme])] at hn
  · change (g r.lexed).Meets (g r'.lexed)
    rwa [h _ (by simp [hmeets.edge.lexeme]), h _ (by simp [hmeets.lexeme])]

instance rests_asTemplate : E.Rests (modify fun r => r.reread r.lexed.asTemplate : Parse Unit)
    (modify fun r => r.reread r.lexed.asTemplate) := by
  apply Rests.of_reread inferInstance
  intro l hl
  unfold Lexed.asTemplate
  simp only [List.mem_cons, List.not_mem_nil, or_false] at hl
  rcases hl with hl | hl <;> rw [hl] <;> rfl

instance rests_asOperator : E.Rests (modify fun r => r.reread r.lexed.asOperator : Parse Unit)
    (modify fun r => r.reread r.lexed.asOperator) := by
  apply Rests.of_reread inferInstance
  intro l hl
  unfold Lexed.asOperator
  simp only [List.mem_cons, List.not_mem_nil, or_false] at hl
  rcases hl with hl | hl <;> rw [hl] <;> rfl

/-! ### Ahead of the readers -/

theorem nextIs_apply (condition : Lexeme → Bool → Bool) (r : Reader) :
  Parse.nextIs condition r = .ok (condition r.next.lexed.lexeme r.next.lexed.newLine) r
  := rfl

instance rests_nextIs (condition : Lexeme → Bool → Bool) :
    E.Rests (Parse.nextIs condition) (Parse.nextIs condition) := by
  apply Rests.of_read (nextIs_apply condition) (nextIs_apply condition)
  intro r r' hmet
  have hnext (r : Reader) (h : r.lexed.rest = []) :
      r.next.lexed.lexeme = .stop ∧ r.next.lexed.newLine = false := by
    change (lex r.lexed.stop false r.lexed.rest).lexeme = _
      ∧ (lex r.lexed.stop false r.lexed.rest).newLine = _
    rw [h]
    exact ⟨rfl, rfl⟩
  obtain ⟨hlexeme, hnewLine⟩ := hnext r hmet.meets.edge.rest
  obtain ⟨hlexeme', hnewLine'⟩ := hnext r' hmet.meets.rest
  rw [hlexeme, hnewLine, hlexeme', hnewLine']
  rfl

/-- A condition that no lexeme behind the code satisfies. -/
class Deaf (condition : Lexeme → Bool → Bool) : Prop where
  eq_false : ∀ newLine, ∀ l ∈ [Lexeme.stop, .malformed, .mark ")", .mark ";"],
    condition l newLine = false

theorem Deaf.eq_false_of_isEnd {condition : Lexeme → Bool → Bool} (h : Deaf condition)
    {l : Lexeme} (hl : l.isEnd = true) (newLine : Bool) :
  condition l newLine = false
  := by
  apply h.eq_false
  cases l <;> simp_all [Lexeme.isEnd]

section Conditions

variable (c d : Lexeme → Bool → Bool)

instance deaf_isMark (m : String) [h : DeafMark m] : Deaf fun l _ => l.isMark m := by
  have hmark := h.isMark_eq_false
  constructor
  simp only [List.forall_mem_cons, hmark.1, hmark.2]
  simp [Lexeme.isMark]

instance deaf_isWord (w : String) : Deaf fun l _ => l.isWord w :=
  ⟨by simp [Lexeme.isWord]⟩

instance deaf_isName : Deaf fun l _ => l.isName :=
  ⟨by simp [Lexeme.isName]⟩

instance deaf_isAnyWord : Deaf fun l _ => l.isAnyWord :=
  ⟨by simp [Lexeme.isAnyWord]⟩

instance deaf_isPropertyName : Deaf fun l _ => l.isPropertyName :=
  ⟨by simp [Lexeme.isPropertyName]⟩

instance deaf_privateName : Deaf fun l _ => l == .privateName :=
  ⟨by simp⟩

instance deaf_isTemplateStart : Deaf fun l _ => l.isTemplateStart :=
  ⟨by simp [Lexeme.isTemplateStart]⟩

instance deaf_followsYield : Deaf fun l _ => l.followsYield :=
  ⟨by decide +kernel⟩

instance deaf_followsLetAsName : Deaf fun l _ => Parse.followsLetAsName l :=
  ⟨by decide +kernel⟩

instance deaf_and [h : Deaf c] : Deaf fun l newLine => c l newLine && d l newLine :=
  ⟨fun newLine l hl => by rw [h.eq_false newLine l hl, Bool.false_and]⟩

instance deaf_and_right [h : Deaf d] : Deaf fun l newLine => c l newLine && d l newLine :=
  ⟨fun newLine l hl => by rw [h.eq_false newLine l hl, Bool.and_false]⟩

instance deaf_or [h : Deaf c] [h' : Deaf d] : Deaf fun l newLine => c l newLine || d l newLine :=
  ⟨fun newLine l hl => by rw [h.eq_false newLine l hl, h'.eq_false newLine l hl, Bool.or_false]⟩

end Conditions

/-- A condition that no lexeme behind the code satisfies tells both readers the same. -/
theorem Deaf.eq_of_looks {condition : Lexeme → Bool → Bool} (h : Deaf condition) {l l' : Lexed}
    (hlooks : l.Looks l') :
  condition l'.lexeme l'.newLine = condition l.lexeme l.newLine
  := by
  rcases hlooks with ⟨hlexeme, hnewLine⟩ | ⟨hbehind, hbehind'⟩
  · rw [hlexeme, hnewLine]
  · have hfirst : condition l.lexeme l.newLine = false := by
      rcases hbehind with hedge | hend
      · rw [hedge.lexeme]
        exact h.eq_false _ _ (by simp)
      · exact h.eq_false_of_isEnd hend _
    have hsecond : condition l'.lexeme l'.newLine = false := by
      rcases hbehind' with hmark | hend
      · rw [hmark]
        exact h.eq_false _ _ (by simp)
      · exact h.eq_false_of_isEnd hend _
    rw [hfirst, hsecond]

/-- The next lexeme tells both readers the same, also if it is the one behind the code. -/
instance stands_nextIs (condition : Lexeme → Bool → Bool) [h : Deaf condition] :
    E.Stands (Parse.nextIs condition) (Parse.nextIs condition) := by
  apply Stands.of_read (nextIs_apply condition) (nextIs_apply condition)
  rintro r r' ⟨-, v, w, hreads⟩
  exact h.eq_of_looks hreads.looks

/-! ### Pieces of the code -/

/-- The texts begin with the same part of the code, which begins at the given offset of the first
text. -/
class Sources (E : Seam) (start : Nat) (source source' : Text) : Prop where
  exists_eq_append : ∃ v, source = v ++ tail ∧ source' = v ++ tail' ∧ start + width v = E.stop
  le_start : E.start ≤ start

/-- Both texts have the same piece from a place of the code on. -/
theorem Remembers.before_eq {r r' : Reader} {start : Nat} {source source' : Text}
    (h : E.Remembers r r') (hsources : E.Sources start source source') :
  Text.before (r'.lastEnd - (start + E.shift)) source' = Text.before (r.lastEnd - start) source
  := by
  obtain ⟨⟨v, rfl, rfl, hv⟩, hstart⟩ := hsources
  have hlength : r'.lastEnd - (start + E.shift) = r.lastEnd - start := by
    have hbefore := E.before_le
    rw [h.lastEnd, ends]
    split <;> omega
  have hle := h.lastEnd_le
  rw [hlength, before_append_left (by omega), before_append_left (by omega)]

section

variable (start : Nat) (source source' : Text) [h : E.Sources start source source']

instance stands_sourceFrom :
    E.Stands (Parse.sourceFrom start source) (Parse.sourceFrom (carry E start) source') :=
  .of_read (fun _ => rfl) (fun _ => rfl) fun hpaired => hpaired.toRemembers.before_eq h

instance rests_sourceFrom :
    E.Rests (Parse.sourceFrom start source) (Parse.sourceFrom (carry E start) source') :=
  .of_read (fun _ => rfl) (fun _ => rfl) fun hmet => hmet.toRemembers.before_eq h

end

/-- Both readers begin a piece of the code. -/
theorem Agree.bind_here {q q' : Nat → Text → Parse α}
    (hq : ∀ start source, E.Onward (q start source))
    (h : ∀ start source source', E.Sources start source source' →
      E.Agree t (q start source) (q' (carry E start) source')) :
  E.Agree t (do q (← Parse.start) (← Parse.here)) (do q' (← Parse.start) (← Parse.here))
  := by
  have hhere : E.Onward Parse.here := .of_still (by rintro r a s ⟨⟩; rfl)
  constructor
  · apply onward_bind stands_start.toOnward
    intro start
    apply onward_bind hhere (hq start)
  · intro r r' a s hpaired hrun hclean
    obtain ⟨v, w, hreads⟩ := hpaired.twin
    have hsources : E.Sources r.lexed.start r.lexed.here r'.lexed.here :=
      ⟨⟨v, hreads.here, hreads.here', hreads.start⟩, hreads.le_start⟩
    change q r.lexed.start r.lexed.here r = _ at hrun
    change E.Outcome t a s (q' r'.lexed.start r'.lexed.here r')
    rw [hreads.start']
    exact (h _ _ _ hsources).goes hpaired hrun hclean

/-! ### Targets -/

section Targets

variable {n n' a : Node} {r r' s : Reader}

/-- The reader behind an expression that is a target. -/
def targeted (n : Node) (r : Reader) : Reader :=
  { r with uncovered := r.uncovered.filter (· ∉ (coverTarget r.trailing n).covered) }

theorem target_apply (n : Node) (r : Reader) :
  Parse.target n r = (do
    Parse.noteIf (coverTarget r.trailing n).isFaulty
    match (coverTarget r.trailing n).refusal with
    | some f => throw f
    | none => pure n.asTarget) (targeted n r)
  := rfl

/-- An expression is a target if nothing speaks against it. -/
theorem target_eq_ok (h : (coverTarget r.trailing n).refusal = none)
    (hfaulty : (coverTarget r.trailing n).isFaulty = false) :
  Parse.target n r = .ok n.asTarget (targeted n r)
  := by
  rw [target_apply, h, hfaulty]
  rfl

theorem of_target_eq_ok (hrun : Parse.target n r = .ok a s) (hfaults : s.faults = []) :
  (coverTarget r.trailing n).refusal = none ∧ (coverTarget r.trailing n).isFaulty = false
  := by
  rw [target_apply] at hrun
  cases hrefusal : (coverTarget r.trailing n).refusal with
  | some f =>
      rw [hrefusal] at hrun
      obtain ⟨_, _, -, hrest⟩ := Footing.bind_eq_ok hrun
      cases hrest
  | none =>
      rw [hrefusal] at hrun
      cases hfaulty : (coverTarget r.trailing n).isFaulty with
      | true =>
          rw [hfaulty] at hrun
          cases hrun
          cases hfaults
      | false => exact ⟨rfl, rfl⟩

/-- Both readers remember the same shorthand properties behind a target. -/
theorem Remembers.targeted (h : E.Remembers r r') (hn : E.Carried n n') :
  E.Remembers (targeted n r) (targeted n' r')
  := by
  refine ⟨h.lastEnd, h.lastEnd_le, ?_, h.trailing, h.lexFaults', h.faults', h.notArrows'⟩
  have hcovers := covers_coverTarget (E := E) r.trailing n
  change r'.uncovered.filter (· ∉ (coverTarget r'.trailing n').covered)
    = (r.uncovered.filter (· ∉ (coverTarget r.trailing n).covered)).map (· + E.shift)
  rw [h.uncovered, h.trailing, hn.eq]
  change ((r.uncovered.map (· + E.shift)).filter
    (· ∉ (coverTarget (r.trailing.map (· + E.shift)) (n.moved E.span)).covered)) = _
  rw [hcovers.covered, List.filter_map]
  congr 1
  apply List.filter_congr
  intro start _
  have hmem := List.mem_map_of_injective (l := (coverTarget r.trailing n).covered) (a := start)
    fun n m (h : n + E.shift = m + E.shift) => Nat.add_right_cancel h
  simp only [Function.comp_apply, hmem]

/-- An expression is a target at its other place if it is one. -/
theorem target_goes (h : E.Remembers r r') (hn : E.Carried n n')
    (hrun : Parse.target n r = .ok a s) (hclean : E.Clean s) :
  s = targeted n r ∧ Parse.target n' r' = .ok (carry E a) (targeted n' r')
  := by
  obtain ⟨hrefusal, hfaulty⟩ := of_target_eq_ok hrun hclean.faults
  have hcovers := covers_coverTarget (E := E) r.trailing n
  rw [target_eq_ok hrefusal hfaulty] at hrun
  cases hrun
  refine ⟨rfl, ?_⟩
  have hn' : n' = n.moved E.span := hn.eq
  rw [target_eq_ok, ← (carried_asTarget n n').eq]
  · rw [h.trailing, hn', ← Option.isNone_iff_eq_none, ← Option.not_isSome, hcovers.refusal,
      hrefusal]
    rfl
  · rw [h.trailing, hn', hcovers.isFaulty, hfaulty]

instance stands_target (n n' : Node) [hn : E.Carried n n'] :
    E.Stands (Parse.target n) (Parse.target n') := by
  refine ⟨.of_keeps inferInstance, ?_⟩
  intro r r' a s hpaired hrun hclean
  obtain ⟨rfl, hrun'⟩ := target_goes hpaired.toRemembers hn hrun hclean
  exact ⟨_, hrun', hpaired.toRemembers.targeted hn, hpaired.twin⟩

instance rests_target (n n' : Node) [hn : E.Carried n n'] :
    E.Rests (Parse.target n) (Parse.target n') := by
  refine ⟨.of_keeps inferInstance, ?_⟩
  intro r r' a s hmet hrun hclean
  obtain ⟨rfl, hrun'⟩ := target_goes hmet.toRemembers hn hrun hclean
  exact ⟨_, hrun', hmet.toRemembers.targeted hn, hmet.meets⟩

instance stands_simpleTarget (n n' : Node) [hn : E.Carried n n'] :
    E.Stands (Parse.simpleTarget n) (Parse.simpleTarget n') := by
  have htarget := stands_target (E := E) n n'
  obtain rfl : n' = n.moved E.span := hn.eq
  obtain ⟨id, span, kind⟩ := n
  cases kind with
  | arrayExpression => exact stands_throw _ _
  | objectExpression => exact stands_throw _ _
  | _ => exact htarget

instance rests_simpleTarget (n n' : Node) [hn : E.Carried n n'] :
    E.Rests (Parse.simpleTarget n) (Parse.simpleTarget n') := by
  have htarget := rests_target (E := E) n n'
  obtain rfl : n' = n.moved E.span := hn.eq
  obtain ⟨id, span, kind⟩ := n
  cases kind with
  | arrayExpression => exact rests_throw _ _
  | objectExpression => exact rests_throw _ _
  | _ => exact htarget

end Targets

end Seam

end Stencil.Script
