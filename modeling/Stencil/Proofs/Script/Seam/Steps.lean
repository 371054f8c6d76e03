import Stencil.Proofs.Script.Seam.Agreement

/-!
# Steps of two readers

The primitive parses agree, and so do the parses that are put together from others by a repetition.
-/

namespace Stencil.Script

open Text
open Carries (carry)

namespace Seam

variable {E : Seam} {α : Type} [Carries α]

/-! ### Steps of the readers -/

section Steps

theorem Onward.of_still {α : Type} {p : Parse α} (h : ∀ {r a s}, p r = .ok a s → s = r) :
  E.Onward p
  := by
  constructor
  · intro r a s hrun hclean
    rwa [h hrun] at hclean
  · intro r a s hrun _ hedge
    rwa [h hrun]

theorem Onward.of_never {α : Type} {p : Parse α} (h : ∀ {r a s}, p r ≠ .ok a s) :
  E.Onward p
  := ⟨fun hrun => (h hrun).elim, fun hrun => (h hrun).elim⟩

theorem Stands.of_read {p p' : Parse α} {f f' : Reader → α} (hp : ∀ r, p r = .ok (f r) r)
    (hp' : ∀ r, p' r = .ok (f' r) r) (h : ∀ {r r'}, E.Paired r r' → f' r' = carry E (f r)) :
  E.Stands p p'
  := by
  constructor
  · apply Onward.of_still
    intro r a s hrun
    rw [hp] at hrun
    cases hrun
    rfl
  · intro r r' a s hpaired hrun _
    rw [hp] at hrun
    cases hrun
    rw [hp', h hpaired]
    exact ⟨r', rfl, hpaired⟩

theorem Rests.of_read {p p' : Parse α} {f f' : Reader → α} (hp : ∀ r, p r = .ok (f r) r)
    (hp' : ∀ r, p' r = .ok (f' r) r) (h : ∀ {r r'}, E.Met r r' → f' r' = carry E (f r)) :
  E.Rests p p'
  := by
  constructor
  · apply Onward.of_still
    intro r a s hrun
    rw [hp] at hrun
    cases hrun
    rfl
  · intro r r' a s hmet hrun _
    rw [hp] at hrun
    cases hrun
    rw [hp', h hmet]
    exact ⟨r', rfl, hmet⟩

theorem Stands.of_never {p p' : Parse α} (h : ∀ {r a s}, p r ≠ .ok a s) :
  E.Stands p p'
  := ⟨.of_never h, fun _ hrun => (h hrun).elim⟩

theorem Rests.of_never {p p' : Parse α} (h : ∀ {r a s}, p r ≠ .ok a s) :
  E.Rests p p'
  := ⟨.of_never h, fun _ hrun => (h hrun).elim⟩

theorem Oversteps.of_never {α : Type} {p : Parse α} (h : ∀ {r a s}, p r ≠ .ok a s) :
  E.Oversteps p
  := ⟨fun hrun => (h hrun).elim, fun _ hrun => (h hrun).elim⟩

/-! Faults stop both readers. -/

theorem throw_ne_ok {α : Type} {f : Fault} {r s : Reader} {a : α} :
  (throw f : Parse α) r ≠ .ok a s
  := nofun

theorem unexpected_ne_ok {α : Type} {r s : Reader} {a : α} :
  (Parse.unexpected : Parse α) r ≠ .ok a s
  := by
  obtain ⟨f, s', hstops, -⟩ := Footing.unexpected_eq (α := α) r
  rw [hstops]
  nofun

theorem expected_ne_ok {α : Type} {wanted : String} {r s : Reader} {a : α} :
  (Parse.expected wanted : Parse α) r ≠ .ok a s
  := nofun

instance stands_throw (f f' : Fault) : E.Stands (throw f : Parse α) (throw f') :=
  .of_never throw_ne_ok

instance rests_throw (f f' : Fault) : E.Rests (throw f : Parse α) (throw f') :=
  .of_never throw_ne_ok

instance oversteps_throw {α : Type} (f : Fault) : E.Oversteps (throw f : Parse α) :=
  .of_never throw_ne_ok

instance stands_unexpected (p' : Parse α) : E.Stands (Parse.unexpected : Parse α) p' :=
  .of_never unexpected_ne_ok

instance rests_unexpected (p' : Parse α) : E.Rests (Parse.unexpected : Parse α) p' :=
  .of_never unexpected_ne_ok

instance oversteps_unexpected {α : Type} : E.Oversteps (Parse.unexpected : Parse α) :=
  .of_never unexpected_ne_ok

instance stands_expected (wanted : String) (p' : Parse α) :
    E.Stands (Parse.expected wanted : Parse α) p' := .of_never expected_ne_ok

instance rests_expected (wanted : String) (p' : Parse α) :
    E.Rests (Parse.expected wanted : Parse α) p' := .of_never expected_ne_ok

instance oversteps_expected {α : Type} (wanted : String) :
    E.Oversteps (Parse.expected wanted : Parse α) := .of_never expected_ne_ok

/-! What is read off the readers. -/

instance stands_pure (a a' : α) [h : E.Carried a a'] : E.Stands (pure a) (pure a') :=
  .of_read (fun _ => rfl) (fun _ => rfl) fun _ => h.eq

instance rests_pure (a a' : α) [h : E.Carried a a'] : E.Rests (pure a) (pure a') :=
  .of_read (fun _ => rfl) (fun _ => rfl) fun _ => h.eq

instance stands_current : E.Stands Parse.current Parse.current := by
  apply Stands.of_read (fun _ => rfl) (fun _ => rfl)
  rintro r r' ⟨-, v, w, hreads⟩
  exact hreads.lexeme

/-- The readers stand at the same lexeme. -/
theorem Agree.bind_current {β : Type} [Carries β] {t : Bool} {q q' : Lexeme → Parse β}
    (h : ∀ l, E.Agree t (q l) (q' l)) :
  E.Agree t (Parse.current >>= q) (Parse.current >>= q')
  := .bind_stands stands_current h

instance stands_start : E.Stands Parse.start Parse.start := by
  apply Stands.of_read (fun _ => rfl) (fun _ => rfl)
  rintro r r' ⟨-, v, w, hreads⟩
  exact hreads.start'

instance stands_onNewLine : E.Stands Parse.onNewLine Parse.onNewLine := by
  apply Stands.of_read (fun _ => rfl) (fun _ => rfl)
  rintro r r' ⟨-, v, w, hreads⟩
  exact hreads.newLine

instance stands_atMark (m : String) : E.Stands (Parse.atMark m) (Parse.atMark m) := by
  unfold Parse.atMark
  infer_instance

instance stands_atWord (w : String) : E.Stands (Parse.atWord w) (Parse.atWord w) := by
  unfold Parse.atWord
  infer_instance

instance stands_atEnd : E.Stands Parse.atEnd Parse.atEnd := by
  unfold Parse.atEnd
  infer_instance

instance stands_atStatementEnd : E.Stands Parse.atStatementEnd Parse.atStatementEnd := by
  unfold Parse.atStatementEnd
  infer_instance

theorem moved_node {start e start' : Nat} {kind kind' : Kind Node}
    (hstart : E.Carried start start') (hkind : E.Carried kind kind') :
  Node.mk 0 ⟨start', E.ends e⟩ kind' = carry E (Node.mk 0 ⟨start, e⟩ kind)
  := by
  rw [hstart.eq, hkind.eq]
  rfl

instance stands_node (start start' : Nat) (kind kind' : Kind Node) [hstart : E.Carried start start']
    [hkind : E.Carried kind kind'] :
    E.Stands (Parse.node start kind) (Parse.node start' kind') := by
  apply Stands.of_read (fun _ => rfl) (fun _ => rfl)
  intro r r' hpaired
  rw [hpaired.lastEnd]
  exact moved_node hstart hkind

instance rests_node (start start' : Nat) (kind kind' : Kind Node) [hstart : E.Carried start start']
    [hkind : E.Carried kind kind'] : E.Rests (Parse.node start kind) (Parse.node start' kind') := by
  apply Rests.of_read (fun _ => rfl) (fun _ => rfl)
  intro r r' hmet
  rw [hmet.lastEnd]
  exact moved_node hstart hkind

/-! Steps to another lexeme. -/

variable {t : Bool} {r r' s s' : Reader}

/-- What is remembered where the readers go on from a lexeme of the code to the next one. -/
theorem Paired.remembers_next (h : E.Paired r r')
    (hclean : (lex r.lexed.stop false r.lexed.rest).faults = [])
    (hclean' : (lex r'.lexed.stop false r'.lexed.rest).faults = []) :
  E.Remembers r.next r'.next
  := by
  obtain ⟨hremembers, v, w, hreads⟩ := h
  have hstart := hreads.le_start
  have hlt := hreads.start_lt_stop
  constructor
  · change r'.lexed.stop = E.ends r.lexed.stop
    rw [hreads.stop', ends, if_neg (by omega)]
  · change r.lexed.stop ≤ E.stop
    have := hreads.stop_add_width
    omega
  · exact hremembers.uncovered
  · exact hremembers.trailing
  · change _ ++ r'.lexFaults = []
    rw [hclean', hremembers.lexFaults']
    rfl
  · exact hremembers.faults'
  · intro n hn
    apply hremembers.notArrows'
    have horder := (order_lex hclean).1
    change (lex r.lexed.stop false r.lexed.rest).start ≤ n at hn
    omega

/-- From a lexeme of the code the readers go on to the next one or meet behind the code. -/
theorem Paired.next (h : E.Paired r r') (hclean : E.Clean r.next) :
  E.Paired r.next r'.next ∨ E.Met r.next r'.next
  := by
  obtain ⟨v, w, hreads⟩ := h.twin
  have hfaults : (lex r.lexed.stop false r.lexed.rest).faults = [] :=
    (List.append_eq_nil_iff.mp hclean.lexFaults).1
  rcases hreads.next hfaults with htwin | hmeets | hpast
  · obtain ⟨v', w', hreads'⟩ := htwin
    exact .inl ⟨h.remembers_next hfaults hreads'.clean', v', w', hreads'⟩
  · exact .inr ⟨h.remembers_next hfaults hmeets.clean, hmeets⟩
  · exact (hclean.inside hpast).elim

instance agree_advanceName : E.Agree t Parse.advanceName Parse.advanceName := by
  constructor
  · exact .of_keeps inferInstance
  · intro r r' a s hpaired hrun hclean
    cases hrun
    rcases hpaired.next hclean with hnext | hnext
    · exact .inl ⟨r'.next, rfl, .inl hnext⟩
    · cases t with
      | true => exact .inl ⟨r'.next, rfl, .inr ⟨rfl, hnext⟩⟩
      | false => exact .inr ⟨rfl, hnext.meets.edge⟩

instance oversteps_advanceName : E.Oversteps Parse.advanceName := by
  have honward : E.Onward Parse.advanceName := .of_keeps inferInstance
  refine ⟨honward.back, ?_⟩
  intro r a s hedge hrun hclean
  cases hrun
  apply hclean.inside
  change (lex r.lexed.stop false r.lexed.rest).IsPast
  rw [hedge.rest]
  exact ⟨rfl, rfl⟩

/-- A change of what the readers remember beside their lexemes. -/
theorem Stands.of_modify {g g' : Reader → Reader} (hkeeps : (edges []).Keeps False (modify g))
    (hg : ∀ r, (g r).lexed = r.lexed) (hg' : ∀ r, (g' r).lexed = r.lexed)
    (h : ∀ {r r'}, E.Remembers r r' → E.Clean (g r) → E.Remembers (g r) (g' r')) :
  E.Stands (modify g : Parse Unit) (modify g')
  := by
  refine ⟨.of_keeps hkeeps, ?_⟩
  intro r r' a s hpaired hrun hclean
  cases hrun
  refine ⟨g' r', rfl, h hpaired.toRemembers hclean, ?_⟩
  rw [hg, hg']
  exact hpaired.twin

theorem Rests.of_modify {g g' : Reader → Reader} (hkeeps : (edges []).Keeps False (modify g))
    (hg : ∀ r, (g r).lexed = r.lexed) (hg' : ∀ r, (g' r).lexed = r.lexed)
    (h : ∀ {r r'}, E.Remembers r r' → E.Clean (g r) → E.Remembers (g r) (g' r')) :
  E.Rests (modify g : Parse Unit) (modify g')
  := by
  refine ⟨.of_keeps hkeeps, ?_⟩
  intro r r' a s hmet hrun hclean
  cases hrun
  refine ⟨g' r', rfl, h hmet.toRemembers hclean, ?_⟩
  rw [hg, hg']
  exact hmet.meets

/-- A fault that is noted leads to the refusal of the text. -/
theorem not_clean_of_note {f : Fault} {a : Unit} (hrun : Parse.note f r = .ok a s) :
  ¬ E.Clean s
  := by
  intro hclean
  cases hrun
  cases hclean.faults

instance stands_note (f f' : Fault) [f.IsOther] : E.Stands (Parse.note f) (Parse.note f') :=
  ⟨.of_keeps inferInstance, fun _ hrun hclean => (not_clean_of_note hrun hclean).elim⟩

instance rests_note (f f' : Fault) [f.IsOther] : E.Rests (Parse.note f) (Parse.note f') :=
  ⟨.of_keeps inferInstance, fun _ hrun hclean => (not_clean_of_note hrun hclean).elim⟩

instance stands_noteIf (c c' : Bool) [h : E.Carried c c'] :
    E.Stands (Parse.noteIf c) (Parse.noteIf c') := by
  obtain rfl : c' = c := h.eq
  unfold Parse.noteIf
  cases c' <;> infer_instance

instance rests_noteIf (c c' : Bool) [h : E.Carried c c'] :
    E.Rests (Parse.noteIf c) (Parse.noteIf c') := by
  obtain rfl : c' = c := h.eq
  unfold Parse.noteIf
  cases c' <;> infer_instance

theorem Stands.of_reread {g : Lexed → Lexed}
    (hkeeps : (edges []).Keeps False (modify fun r => r.reread (g r.lexed)))
    (hstart : ∀ l : Lexed, (g l).start = l.start)
    (h : ∀ {v w l l'}, E.Reads v w l l' → (g l).faults = [] → ∃ w, E.Reads v w (g l) (g l')) :
  E.Stands (modify fun r => r.reread (g r.lexed) : Parse Unit)
    (modify fun r => r.reread (g r.lexed))
  := by
  refine ⟨.of_keeps hkeeps, ?_⟩
  intro r r' a s hpaired hrun hclean
  cases hrun
  obtain ⟨hremembers, v, w, hreads⟩ := hpaired
  obtain ⟨w', hreads'⟩ := h hreads (List.append_eq_nil_iff.mp hclean.lexFaults).1
  refine ⟨r'.reread (g r'.lexed), rfl, ⟨hremembers.lastEnd, hremembers.lastEnd_le,
    hremembers.uncovered, hremembers.trailing, ?_, hremembers.faults', ?_⟩, v, w', hreads'⟩
  · change _ ++ r'.lexFaults = []
    rw [hreads'.clean', hremembers.lexFaults']
    rfl
  · intro n hn
    apply hremembers.notArrows'
    rwa [← hstart]

instance stands_asRegex : E.Stands (modify fun r => r.reread r.lexed.asRegex : Parse Unit)
    (modify fun r => r.reread r.lexed.asRegex) :=
  .of_reread inferInstance (fun l => l.asRegex_eq.2.2) Reads.asRegex

instance stands_asTemplate : E.Stands (modify fun r => r.reread r.lexed.asTemplate : Parse Unit)
    (modify fun r => r.reread r.lexed.asTemplate) :=
  .of_reread inferInstance (fun l => l.asTemplate_eq.2.2) Reads.asTemplate

instance stands_asOperator : E.Stands (modify fun r => r.reread r.lexed.asOperator : Parse Unit)
    (modify fun r => r.reread r.lexed.asOperator) :=
  .of_reread inferInstance (fun l => l.asOperator_eq.2.2.1) fun h _ => h.asOperator

/-! What is remembered of lists and properties is remembered with the offsets of the second text. -/

instance stands_uncovered (start : Nat) :
    E.Stands (modify fun r => { r with uncovered := start :: r.uncovered } : Parse Unit)
      (modify fun r => { r with uncovered := carry E start :: r.uncovered }) := by
  refine .of_modify inferInstance (fun _ => rfl) (fun _ => rfl) fun h _ => ?_
  refine ⟨h.lastEnd, h.lastEnd_le, ?_, h.trailing, h.lexFaults', h.faults', h.notArrows'⟩
  exact congrArg (_ :: ·) h.uncovered

instance stands_trailing (start : Nat) :
    E.Stands (modify fun r => { r with trailing := start :: r.trailing } : Parse Unit)
      (modify fun r => { r with trailing := carry E start :: r.trailing }) := by
  refine .of_modify inferInstance (fun _ => rfl) (fun _ => rfl) fun h _ => ?_
  refine ⟨h.lastEnd, h.lastEnd_le, h.uncovered, ?_, h.lexFaults', h.faults', h.notArrows'⟩
  exact congrArg (_ :: ·) h.trailing

end Steps

/-! ### Parses made from others -/

section Rules

variable {β : Type} [Carries β] {t : Bool}

theorem Oversteps.bind_first {α β : Type} {p : Parse α} {q : α → Parse β} (hp : E.Oversteps p)
    (hq : ∀ a, E.Onward (q a)) :
  E.Oversteps (p >>= q)
  := by
  constructor
  · intro r b s hrun hclean
    obtain ⟨a, m, hfirst, hrest⟩ := Footing.bind_eq_ok hrun
    apply hp.back hfirst ((hq a).back hrest hclean)
  · intro r b s hedge hrun hclean
    obtain ⟨a, m, hfirst, hrest⟩ := Footing.bind_eq_ok hrun
    apply hp.never hedge hfirst ((hq a).back hrest hclean)

theorem Oversteps.bind_rest {α β : Type} {p : Parse α} {q : α → Parse β} (hp : E.Onward p)
    (hq : ∀ a, E.Oversteps (q a)) :
  E.Oversteps (p >>= q)
  := by
  constructor
  · intro r b s hrun hclean
    obtain ⟨a, m, hfirst, hrest⟩ := Footing.bind_eq_ok hrun
    apply hp.back hfirst ((hq a).back hrest hclean)
  · intro r b s hedge hrun hclean
    obtain ⟨a, m, hfirst, hrest⟩ := Footing.bind_eq_ok hrun
    apply (hq a).never _ hrest hclean
    apply hp.stays hfirst ((hq a).back hrest hclean) hedge

instance oversteps_bind_first {α β : Type} [Placed β] (p : Parse α) (q : α → Parse β)
    [hp : E.Oversteps p] [hq : ∀ a, (edges []).Keeps False (q a)] : E.Oversteps (p >>= q) :=
  .bind_first hp fun a => .of_keeps (hq a)

instance oversteps_bind_rest {α β : Type} [Placed α] (p : Parse α) (q : α → Parse β)
    [hq : ∀ a, E.Oversteps (q a)] [hp : (edges []).Keeps False p] : E.Oversteps (p >>= q) :=
  .bind_rest (.of_keeps hp) hq

/-- A parse has the given result where the code is left behind and stays there. -/
theorem Oversteps.bind_stays {α β : Type} {p : Parse α} {q : α → Parse β} {a : α}
    (hp : ∀ {r : Reader}, r.lexed.IsEdge → p r = .ok a r) (honward : E.Onward (p >>= q))
    (hq : E.Oversteps (q a)) :
  E.Oversteps (p >>= q)
  := by
  refine ⟨honward.back, ?_⟩
  intro r b s hedge hrun hclean
  rw [bind_of_ok q (hp hedge)] at hrun
  exact hq.never hedge hrun hclean

theorem onward_pure {α : Type} (a : α) :
  E.Onward (pure a)
  := .of_still (by rintro r b s ⟨⟩; rfl)

instance oversteps_map {α β : Type} (f : α → β) (p : Parse α) [hp : E.Oversteps p] :
    E.Oversteps (f <$> p) := Oversteps.bind_first hp fun a => onward_pure (f a)

instance oversteps_discard {α : Type} (p : Parse α) [hp : E.Oversteps p] :
    E.Oversteps (discard p) := Oversteps.bind_first hp fun _ => onward_pure ()

instance agree_map (f f' : α → β) (p p' : Parse α) [hp : E.Agree true p p']
    [hf : ∀ a, E.Carried (f a) (f' (carry E a))] : E.Agree true (f <$> p) (f' <$> p') :=
  agree_bind_rests p p' (fun a => pure (f a)) fun a => pure (f' a)

instance agree_map_loose (f f' : α → β) (p p' : Parse α) [hp : E.Agree false p p']
    [hf : ∀ a, E.Carried (f a) (f' (carry E a))] : E.Agree false (f <$> p) (f' <$> p') :=
  agree_bind_loose p p' (fun a => pure (f a)) fun a => pure (f' a)

instance agree_discard (p p' : Parse α) [hp : E.Agree true p p'] :
    E.Agree true (discard p) (discard p') :=
  agree_bind_rests p p' (fun _ => pure ()) fun _ => pure ()

instance agree_discard_loose (p p' : Parse α) [hp : E.Agree false p p'] :
    E.Agree false (discard p) (discard p') :=
  agree_bind_loose p p' (fun _ => pure ()) fun _ => pure ()

instance agree_advance : E.Agree t Parse.advance Parse.advance := by
  unfold Parse.advance
  apply Agree.bind_current
  intro l
  split <;> infer_instance

instance agree_expect (m : String) : E.Agree t (Parse.expect m) (Parse.expect m) := by
  unfold Parse.expect
  infer_instance

instance agree_expectWord (w : String) : E.Agree t (Parse.expectWord w) (Parse.expectWord w) := by
  unfold Parse.expectWord
  infer_instance

instance agree_eat (m : String) : E.Agree t (Parse.eat m) (Parse.eat m) := by
  apply Agree.loose
  unfold Parse.eat
  infer_instance

instance agree_eatWord (w : String) : E.Agree t (Parse.eatWord w) (Parse.eatWord w) := by
  apply Agree.loose
  unfold Parse.eatWord
  infer_instance

instance oversteps_advance : E.Oversteps Parse.advance := by
  unfold Parse.advance
  apply Oversteps.bind_rest (.of_keeps inferInstance)
  intro l
  split <;> infer_instance

instance oversteps_expect (m : String) : E.Oversteps (Parse.expect m) := by
  unfold Parse.expect
  infer_instance

instance oversteps_expectWord (w : String) : E.Oversteps (Parse.expectWord w) := by
  unfold Parse.expectWord
  infer_instance

/-! What is eaten is left behind. -/

theorem eat_bind {β : Type} (m : String) (q : Bool → Parse β) :
  (Parse.eat m >>= q)
    = (Parse.atMark m >>= fun b => if b then Parse.advance >>= fun _ => q true else q false)
  := by
  unfold Parse.eat
  rw [bind_assoc]
  congr 1
  funext b
  cases b <;> simp

theorem eatWord_bind {β : Type} (w : String) (q : Bool → Parse β) :
  (Parse.eatWord w >>= q)
    = (Parse.atWord w >>= fun b => if b then Parse.advance >>= fun _ => q true else q false)
  := by
  unfold Parse.eatWord
  rw [bind_assoc]
  congr 1
  funext b
  cases b <;> simp

instance (priority := high) agree_bind_eat_rests (m : String) (q q' : Bool → Parse β)
    [E.Rests (q true) (q' true)] [∀ b, E.Agree true (q b) (q' b)] :
    E.Agree true (Parse.eat m >>= q) (Parse.eat m >>= q') := by
  rw [eat_bind, eat_bind]
  infer_instance

instance (priority := high) agree_bind_eat_oversteps (m : String) (q q' : Bool → Parse β)
    [E.Oversteps (q true)] [∀ b, E.Agree true (q b) (q' b)] :
    E.Agree true (Parse.eat m >>= q) (Parse.eat m >>= q') := by
  rw [eat_bind, eat_bind]
  infer_instance

instance (priority := high) agree_bind_eatWord_rests (w : String) (q q' : Bool → Parse β)
    [E.Rests (q true) (q' true)] [∀ b, E.Agree true (q b) (q' b)] :
    E.Agree true (Parse.eatWord w >>= q) (Parse.eatWord w >>= q') := by
  rw [eatWord_bind, eatWord_bind]
  infer_instance

instance (priority := high) agree_bind_eatWord_oversteps (w : String) (q q' : Bool → Parse β)
    [E.Oversteps (q true)] [∀ b, E.Agree true (q b) (q' b)] :
    E.Agree true (Parse.eatWord w >>= q) (Parse.eatWord w >>= q') := by
  rw [eatWord_bind, eatWord_bind]
  infer_instance

/-! Repetitions. -/

theorem Agree.loopFor {step step' : α → Parse (α ⊕ β)}
    (hstep : ∀ a, E.Agree false (step a) (step' (carry E a))) {budget budget' : Text}
    (hlength : budget.length ≤ budget'.length) (a : α) :
  E.Agree false (Parse.loopFor budget step a) (Parse.loopFor budget' step' (carry E a))
  := by
  induction budget generalizing budget' a with
  | nil => exact agree_stands Parse.unexpected _
  | cons c budget ih =>
      cases budget' with
      | nil => cases hlength
      | cons c' budget' =>
          apply Agree.bind_loose (hstep a)
          rintro (a' | b)
          · exact ih (Nat.le_of_succ_le_succ hlength) a'
          · exact agree_stands (pure b) (pure (carry E b))

theorem Rests.loopFor {step step' : α → Parse (α ⊕ β)}
    (hstep : ∀ a, E.Rests (step a) (step' (carry E a))) {budget budget' : Text}
    (hlength : budget.length ≤ budget'.length) (a : α) :
  E.Rests (Parse.loopFor budget step a) (Parse.loopFor budget' step' (carry E a))
  := by
  induction budget generalizing budget' a with
  | nil => exact rests_unexpected _
  | cons c budget ih =>
      cases budget' with
      | nil => cases hlength
      | cons c' budget' =>
          apply Rests.bind (hstep a)
          rintro (a' | b)
          · exact ih (Nat.le_of_succ_le_succ hlength) a'
          · exact rests_pure b (carry E b)

theorem Agree.loopFor_rests {step step' : α → Parse (α ⊕ β)}
    (hstep : ∀ a, E.Agree true (step a) (step' (carry E a)))
    (hrests : ∀ a, E.Rests (step a) (step' (carry E a))) {budget budget' : Text}
    (hlength : budget.length ≤ budget'.length) (a : α) :
  E.Agree true (Parse.loopFor budget step a) (Parse.loopFor budget' step' (carry E a))
  := by
  induction budget generalizing budget' a with
  | nil => exact agree_stands Parse.unexpected _
  | cons c budget ih =>
      cases budget' with
      | nil => cases hlength
      | cons c' budget' =>
          have hlength' := Nat.le_of_succ_le_succ hlength
          apply Agree.bind_rests (hstep a)
          · rintro (a' | b)
            · exact ih hlength' a'
            · exact agree_stands (pure b) (pure (carry E b))
          · rintro (a' | b)
            · exact Rests.loopFor hrests hlength' a'
            · exact rests_pure b (carry E b)

/-- The budget of a repetition. -/
def budget (r : Reader) : Text := ' ' :: ' ' :: ' ' :: r.lexed.rest

theorem Paired.budget_le {r r' : Reader} (h : E.Paired r r') :
  (budget r).length ≤ (budget r').length
  := by
  obtain ⟨-, v, w, hreads⟩ := h
  unfold budget
  rw [hreads.rest, hreads.rest']
  simp [tail, tail']

theorem Met.budget_le {r r' : Reader} (h : E.Met r r') :
  (budget r).length ≤ (budget r').length
  := by
  unfold budget
  rw [h.meets.edge.rest, h.meets.rest]

omit [Carries α] [Carries β] in
theorem onward_loop {step : α → Parse (α ⊕ β)} (a : α)
    (h : ∀ r : Reader, E.Onward (Parse.loopFor (budget r) step a)) :
  E.Onward (Parse.loop step a)
  := by
  constructor
  · intro r b s hrun
    apply (h r).back hrun
  · intro r b s hrun
    apply (h r).stays hrun

theorem Agree.loop {step step' : α → Parse (α ⊕ β)}
    (hstep : ∀ a, E.Agree false (step a) (step' (carry E a))) (a : α) :
  E.Agree false (Parse.loop step a) (Parse.loop step' (carry E a))
  := by
  constructor
  · exact onward_loop a fun r => (Agree.loopFor hstep (Nat.le_refl _) a).toOnward
  · intro r r' b s hpaired hrun hclean
    apply (Agree.loopFor hstep hpaired.budget_le a).goes hpaired hrun hclean

theorem Agree.loop_rests {step step' : α → Parse (α ⊕ β)}
    (hstep : ∀ a, E.Agree true (step a) (step' (carry E a)))
    (hrests : ∀ a, E.Rests (step a) (step' (carry E a))) (a : α) :
  E.Agree true (Parse.loop step a) (Parse.loop step' (carry E a))
  := by
  constructor
  · exact onward_loop a fun r => (Agree.loopFor_rests hstep hrests (Nat.le_refl _) a).toOnward
  · intro r r' b s hpaired hrun hclean
    apply (Agree.loopFor_rests hstep hrests hpaired.budget_le a).goes hpaired hrun hclean

theorem Rests.loop {step step' : α → Parse (α ⊕ β)}
    (hrests : ∀ a, E.Rests (step a) (step' (carry E a))) (a : α) :
  E.Rests (Parse.loop step a) (Parse.loop step' (carry E a))
  := by
  constructor
  · exact onward_loop a fun r => (Rests.loopFor hrests (Nat.le_refl _) a).toOnward
  · intro r r' b s hmet hrun hclean
    apply (Rests.loopFor hrests hmet.budget_le a).goes hmet hrun hclean

theorem Oversteps.toOnward {α : Type} {p : Parse α} (h : E.Oversteps p) :
  E.Onward p
  := ⟨h.back, fun hrun hclean hedge => (h.never hedge hrun hclean).elim⟩

theorem Oversteps.loopFor {α β : Type} {step : α → Parse (α ⊕ β)} (h : ∀ a, E.Oversteps (step a))
    (budget : Text) (a : α) :
  E.Oversteps (Parse.loopFor budget step a)
  := by
  induction budget generalizing a with
  | nil => exact oversteps_unexpected
  | cons c budget ih =>
      apply Oversteps.bind_first (h a)
      rintro (a' | b)
      · exact (ih a').toOnward
      · exact onward_pure b

instance oversteps_loop {α β : Type} (step : α → Parse (α ⊕ β)) (a : α)
    [h : ∀ a, E.Oversteps (step a)] : E.Oversteps (Parse.loop step a) := by
  constructor
  · intro r b s hrun
    apply (Oversteps.loopFor h (budget r) a).back hrun
  · intro r b s hedge hrun
    apply (Oversteps.loopFor h (budget r) a).never hedge hrun

instance agree_loop (step step' : α → Parse (α ⊕ β)) (a a' : α) [ha : E.Carried a a']
    [hstep : ∀ a, E.Agree false (step a) (step' (carry E a))] :
    E.Agree false (Parse.loop step a) (Parse.loop step' a') := by
  rw [ha.eq]
  exact .loop hstep a

instance agree_loop_rests (step step' : α → Parse (α ⊕ β))
    (a a' : α) [ha : E.Carried a a'] [hstep : ∀ a, E.Agree true (step a) (step' (carry E a))]
    [hrests : ∀ a, E.Rests (step a) (step' (carry E a))] :
    E.Agree true (Parse.loop step a) (Parse.loop step' a') := by
  rw [ha.eq]
  exact .loop_rests hstep hrests a

instance rests_loop (step step' : α → Parse (α ⊕ β))
    (a a' : α) [ha : E.Carried a a'] [hrests : ∀ a, E.Rests (step a) (step' (carry E a))] :
    E.Rests (Parse.loop step a) (Parse.loop step' a') := by
  rw [ha.eq]
  exact .loop hrests a

instance agree_many (done done' : Parse Bool) (item item' : Parse α) [E.Stands done done']
    [E.Agree false item item'] :
    E.Agree false (Parse.many done item) (Parse.many done' item') := by
  unfold Parse.many
  infer_instance

set_option synthInstance.maxSize 1000 in
instance agree_separated (close : String) (item item' : Parse α) [E.Agree false item item'] :
    E.Agree false (Parse.separated close item) (Parse.separated close item') := by
  unfold Parse.separated
  infer_instance

/-- A statement ends at the end of the code only if it ends there with a semicolon. -/
instance agree_endStatement : E.Agree false Parse.endStatement Parse.endStatement := by
  unfold Parse.endStatement
  have hmissed : E.Stands (do
      let e ← Parse.lastEnd
      throw (.noSemicolon ⟨e, e⟩) : Parse Unit) (do
      let e ← Parse.lastEnd
      throw (.noSemicolon ⟨e, e⟩)) := .of_never nofun
  infer_instance

end Rules

end Seam

end Stencil.Script
