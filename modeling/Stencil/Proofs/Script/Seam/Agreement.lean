import Stencil.Proofs.Script.Expressions
import Stencil.Proofs.Script.Locality

/-!
# Two readers of one code

A reader that stands in a code with a parenthesis behind it, and a reader that stands at the same
place of the same code as a statement, go through it together.  What the second one is given is what
the first one is given, carried over to its own offsets.  They do so for as long as they stand in
the code; where the first one goes past its end, or notes a fault, the text that it reads is refused
in the end.

That two parses go together is a class, as are its variants for parses that do not leave their
lexeme, that leave the end of the code alone and that cannot but pass it.  The instances for the
ways to put parses together find the proofs along the rules of the grammar.
-/

namespace Stencil.Script

open Text

/-! ### What is carried over -/

/-- A type of results that may hold offsets and nodes, which are others in the second text. -/
class Carries (α : Type) where
  carry : Seam → α → α

open Carries (carry)

namespace Seam

variable (E : Seam)

/-- Where a lexeme that ends at offset `n` of the first text ends in the second one. -/
def ends (n : Nat) : Nat := if n ≤ E.start then E.before else n + E.shift

/-- The span in the second text. -/
def span (s : Span) : Span := ⟨s.start + E.shift, E.ends s.stop⟩

/-- An arrow stands in the code at offset `n` of the first text or behind it. -/
def Live (n : Nat) : Prop := ∃ v, v <:+ E.code ∧ n + width v = E.stop ∧ ['=', '>'] <:+: v

end Seam

section Types

variable {α β : Type}

instance : Carries Nat := ⟨fun E n => n + E.shift⟩

instance : Carries Node := ⟨fun E n => n.moved E.span⟩

instance : Carries (Kind Node) := ⟨fun E k => k.moved E.span⟩

instance : Carries Unit := ⟨fun _ a => a⟩

instance : Carries Bool := ⟨fun _ a => a⟩

instance : Carries Lexeme := ⟨fun _ a => a⟩

instance : Carries Parse.ArrowSign := ⟨fun _ a => a⟩

instance [Carries α] : Carries (Option α) := ⟨fun E => Option.map (carry E)⟩

instance [Carries α] : Carries (List α) := ⟨fun E => List.map (carry E)⟩

instance : Carries (List String) := ⟨fun _ a => a⟩

instance : Carries Text := ⟨fun _ a => a⟩

instance [Carries α] [Carries β] : Carries (α × β) := ⟨fun E x => (carry E x.1, carry E x.2)⟩

instance [Carries α] [Carries β] : Carries (α ⊕ β) := ⟨fun E => Sum.map (carry E) (carry E)⟩

end Types

/-! ### Readers -/

namespace Seam

variable (E : Seam)

/-- Nothing that the first reader remembers leads to the refusal of its text, it is not past the end
of the code, and it has not looked in vain for an arrow function before an arrow. -/
structure Clean (r : Reader) : Prop where
  lexFaults : r.lexFaults = []
  faults : r.faults = []
  inside : ¬ r.lexed.IsPast
  notArrows : ∀ n ∈ r.notArrows, ¬ E.Live n

/-- The second reader remembers what the first one does, at its own offsets. -/
structure Remembers (r r' : Reader) : Prop where
  lastEnd : r'.lastEnd = E.ends r.lastEnd
  lastEnd_le : r.lastEnd ≤ E.stop
  uncovered : r'.uncovered = r.uncovered.map (· + E.shift)
  trailing : r'.trailing = r.trailing.map (· + E.shift)
  lexFaults' : r'.lexFaults = []
  faults' : r'.faults = []
  notArrows' : ∀ n, r.lexed.start ≤ n → E.Live n → n + E.shift ∉ r'.notArrows

/-- The readers stand at the same lexeme of the code. -/
structure Paired (r r' : Reader) : Prop extends E.Remembers r r' where
  twin : E.Twin r.lexed r'.lexed

/-- The readers stand behind the code. -/
structure Met (r r' : Reader) : Prop extends E.Remembers r r' where
  meets : r.lexed.Meets r'.lexed

variable {E} {α : Type}

/-- What the second reader is given, and where it is, when the first one is given `a` at `s`: they
go on together, or meet behind the code, which is not asked of the second one unless `t`. -/
def Outcome [Carries α] (E : Seam) (t : Bool) (a : α) (s : Reader)
    (x : EStateM.Result Fault Reader α) : Prop :=
  (∃ s', x = .ok (carry E a) s' ∧ (E.Paired s s' ∨ t = true ∧ E.Met s s'))
    ∨ t = false ∧ s.lexed.IsEdge

/-! ### Behind the code -/

theorem isPast_of_reaches {l m : Lexed} (h : l.Reaches m) (hl : l.IsPast) :
  m.IsPast
  := by
  induction h with
  | refl => exact hl
  | next _ ih =>
      apply ih
      rw [hl.rest]
      exact ⟨rfl, rfl⟩
  | regex _ ih =>
      apply ih
      unfold Lexed.asRegex
      rw [hl.lexeme]
      exact hl
  | template _ ih =>
      apply ih
      unfold Lexed.asTemplate
      rw [hl.lexeme]
      exact hl
  | operator _ ih =>
      apply ih
      unfold Lexed.asOperator
      rw [hl.lexeme]
      exact hl

/-- Behind the code nothing is left but the end of the first text. -/
theorem isEdge_of_reaches {l m : Lexed} (h : l.Reaches m) (hl : l.IsEdge) (hm : ¬ m.IsPast) :
  m.IsEdge
  := by
  induction h with
  | refl => exact hl
  | @next l m h ih =>
      refine (hm (isPast_of_reaches h ?_)).elim
      rw [hl.rest]
      exact ⟨rfl, rfl⟩
  | regex _ ih =>
      apply ih _ hm
      unfold Lexed.asRegex
      rw [hl.lexeme]
      exact hl
  | template _ ih =>
      apply ih _ hm
      unfold Lexed.asTemplate
      rw [hl.lexeme]
      exact hl
  | operator _ ih =>
      apply ih _ hm
      unfold Lexed.asOperator
      rw [hl.lexeme]
      exact hl

/-! ### Parses that go together -/

variable (E)

/-- Whatever leads to the refusal of the first text does so in the end, and a reader behind the code
does not come back. -/
structure Onward (p : Parse α) : Prop where
  back : ∀ {r a s}, p r = .ok a s → E.Clean s → E.Clean r
  stays : ∀ {r a s}, p r = .ok a s → E.Clean s → r.lexed.IsEdge → s.lexed.IsEdge

variable [Carries α]

/-- The second parse goes where the first one does, if that is in the code or, provided that `t`,
right behind it. -/
class Agree (t : Bool) (p p' : Parse α) : Prop extends E.Onward p where
  goes : ∀ {r r' a s}, E.Paired r r' → p r = .ok a s → E.Clean s → E.Outcome t a s (p' r')

/-- The parses agree and do not leave the lexeme that they stand at. -/
class Stands (p p' : Parse α) : Prop extends E.Onward p where
  goes : ∀ {r r' a s}, E.Paired r r' → p r = .ok a s → E.Clean s →
    ∃ s', p' r' = .ok (carry E a) s' ∧ E.Paired s s'

/-- The parses leave the end of the code alone. -/
class Rests (p p' : Parse α) : Prop extends E.Onward p where
  goes : ∀ {r r' a s}, E.Met r r' → p r = .ok a s → E.Clean s →
    ∃ s', p' r' = .ok (carry E a) s' ∧ E.Met s s'

/-- The parse does not get through where the code is left behind without going past the end of the
first text. -/
class Oversteps {α : Type} (p : Parse α) : Prop where
  back : ∀ {r a s}, p r = .ok a s → E.Clean s → E.Clean r
  never : ∀ {r a s}, r.lexed.IsEdge → p r = .ok a s → ¬ E.Clean s

/-- The second result is the first one carried over. -/
class Carried (a a' : α) : Prop where
  eq : a' = carry E a

variable {E}

theorem grows_of_keeps {α : Type} [Placed α] {p : Parse α} (h : (edges []).Keeps False p)
    {r s : Reader} {a : α} (hrun : p r = .ok a s) :
  r.Grows s
  := by
  have hgrows := h.grows r
  rwa [Parse.final, hrun] at hgrows

theorem Onward.of_keeps {α : Type} [Placed α] {p : Parse α} (h : (edges []).Keeps False p) :
  E.Onward p
  := by
  constructor
  · intro r a s hrun hclean
    have hgrows := grows_of_keeps h hrun
    refine ⟨h.startsClean hrun hclean.lexFaults, ?_, ?_, ?_⟩
    · have hfaults := hgrows.faults
      rw [hclean.faults] at hfaults
      exact List.suffix_nil.mp hfaults
    · exact fun hpast => hclean.inside (isPast_of_reaches hgrows.lexed hpast)
    · exact fun n hn => hclean.notArrows n (hgrows.notArrows.subset hn)
  · intro r a s hrun hclean hedge
    exact isEdge_of_reaches (grows_of_keeps h hrun).lexed hedge hclean.inside

/-! ### Parses one after the other -/

section Bind

variable {β : Type} [Carries β] {t : Bool} {p p' : Parse α} {q q' : α → Parse β}

theorem bind_of_ok {α β : Type} {p : Parse α} (q : α → Parse β) {r s : Reader} {a : α}
    (h : p r = .ok a s) :
  (p >>= q) r = q a s
  := by
  change EStateM.bind p q r = _
  unfold EStateM.bind
  rw [h]

theorem onward_bind {α β : Type} {p : Parse α} {q : α → Parse β} (hp : E.Onward p)
    (hq : ∀ a, E.Onward (q a)) :
  E.Onward (p >>= q)
  := by
  constructor
  · intro r b s hrun hclean
    obtain ⟨a, m, hfirst, hrest⟩ := Footing.bind_eq_ok hrun
    apply hp.back hfirst ((hq a).back hrest hclean)
  · intro r b s hrun hclean hedge
    obtain ⟨a, m, hfirst, hrest⟩ := Footing.bind_eq_ok hrun
    apply (hq a).stays hrest hclean
    apply hp.stays hfirst ((hq a).back hrest hclean) hedge

theorem Agree.bind_stands (hp : E.Stands p p') (hq : ∀ a, E.Agree t (q a) (q' (carry E a))) :
  E.Agree t (p >>= q) (p' >>= q')
  := by
  refine ⟨onward_bind hp.toOnward fun a => (hq a).toOnward, ?_⟩
  intro r r' b s hpaired hrun hclean
  obtain ⟨a, m, hfirst, hrest⟩ := Footing.bind_eq_ok hrun
  obtain ⟨m', hfirst', hm⟩ := hp.goes hpaired hfirst ((hq a).back hrest hclean)
  rw [bind_of_ok q' hfirst']
  apply (hq a).goes hm hrest hclean

theorem Agree.bind_rests (hp : E.Agree true p p')
    (hq : ∀ a, E.Agree true (q a) (q' (carry E a))) (hrests : ∀ a, E.Rests (q a) (q' (carry E a))) :
  E.Agree true (p >>= q) (p' >>= q')
  := by
  refine ⟨onward_bind hp.toOnward fun a => (hq a).toOnward, ?_⟩
  intro r r' b s hpaired hrun hclean
  obtain ⟨a, m, hfirst, hrest⟩ := Footing.bind_eq_ok hrun
  rcases hp.goes hpaired hfirst ((hq a).back hrest hclean) with ⟨m', hfirst', hm⟩ | ⟨⟨⟩, -⟩
  rw [bind_of_ok q' hfirst']
  rcases hm with hm | ⟨-, hm⟩
  · apply (hq a).goes hm hrest hclean
  · obtain ⟨s', hrest', hs⟩ := (hrests a).goes hm hrest hclean
    exact .inl ⟨s', hrest', .inr ⟨rfl, hs⟩⟩

theorem Agree.bind_oversteps (hp : E.Agree false p p')
    (hq : ∀ a, E.Agree true (q a) (q' (carry E a))) (hover : ∀ a, E.Oversteps (q a)) :
  E.Agree true (p >>= q) (p' >>= q')
  := by
  refine ⟨onward_bind hp.toOnward fun a => (hq a).toOnward, ?_⟩
  intro r r' b s hpaired hrun hclean
  obtain ⟨a, m, hfirst, hrest⟩ := Footing.bind_eq_ok hrun
  rcases hp.goes hpaired hfirst ((hq a).back hrest hclean) with ⟨m', hfirst', hm⟩ | ⟨-, hedge⟩
  · rw [bind_of_ok q' hfirst']
    rcases hm with hm | ⟨⟨⟩, -⟩
    apply (hq a).goes hm hrest hclean
  · exact ((hover a).never hedge hrest hclean).elim

/-- Parses that agree behind the code do so where nothing is asked of them there. -/
theorem Agree.loose (t : Bool) (h : E.Agree true p p') :
  E.Agree t p p'
  := by
  cases t with
  | true => exact h
  | false =>
      refine ⟨h.toOnward, ?_⟩
      intro r r' a s hpaired hrun hclean
      rcases h.goes hpaired hrun hclean with ⟨s', hrun', hs | ⟨-, hs⟩⟩ | ⟨⟨⟩, -⟩
      · exact .inl ⟨s', hrun', .inl hs⟩
      · exact .inr ⟨rfl, hs.meets.edge⟩

theorem Agree.bind_loose (hp : E.Agree false p p')
    (hq : ∀ a, E.Agree false (q a) (q' (carry E a))) :
  E.Agree false (p >>= q) (p' >>= q')
  := by
  refine ⟨onward_bind hp.toOnward fun a => (hq a).toOnward, ?_⟩
  intro r r' b s hpaired hrun hclean
  obtain ⟨a, m, hfirst, hrest⟩ := Footing.bind_eq_ok hrun
  rcases hp.goes hpaired hfirst ((hq a).back hrest hclean) with ⟨m', hfirst', hm⟩ | ⟨-, hedge⟩
  · rw [bind_of_ok q' hfirst']
    rcases hm with hm | ⟨⟨⟩, -⟩
    apply (hq a).goes hm hrest hclean
  · exact .inr ⟨rfl, (hq a).stays hrest hclean hedge⟩

theorem Stands.bind (hp : E.Stands p p') (hq : ∀ a, E.Stands (q a) (q' (carry E a))) :
  E.Stands (p >>= q) (p' >>= q')
  := by
  refine ⟨onward_bind hp.toOnward fun a => (hq a).toOnward, ?_⟩
  intro r r' b s hpaired hrun hclean
  obtain ⟨a, m, hfirst, hrest⟩ := Footing.bind_eq_ok hrun
  obtain ⟨m', hfirst', hm⟩ := hp.goes hpaired hfirst ((hq a).back hrest hclean)
  rw [bind_of_ok q' hfirst']
  apply (hq a).goes hm hrest hclean

theorem Rests.bind (hp : E.Rests p p') (hq : ∀ a, E.Rests (q a) (q' (carry E a))) :
  E.Rests (p >>= q) (p' >>= q')
  := by
  refine ⟨onward_bind hp.toOnward fun a => (hq a).toOnward, ?_⟩
  intro r r' b s hmet hrun hclean
  obtain ⟨a, m, hfirst, hrest⟩ := Footing.bind_eq_ok hrun
  obtain ⟨m', hfirst', hm⟩ := hp.goes hmet hfirst ((hq a).back hrest hclean)
  rw [bind_of_ok q' hfirst']
  apply (hq a).goes hm hrest hclean

end Bind

section Instances

variable {β γ : Type} [Carries β] [Carries γ] {t : Bool}

instance (priority := low) agree_stands (p p' : Parse α) [h : E.Stands p p'] : E.Agree t p p' := by
  refine ⟨h.toOnward, ?_⟩
  intro r r' a s hpaired hrun hclean
  obtain ⟨s', hrun', hs⟩ := h.goes hpaired hrun hclean
  exact .inl ⟨s', hrun', .inl hs⟩

instance agree_bind_stands (p p' : Parse α) (q q' : α → Parse β) [hp : E.Stands p p']
    [hq : ∀ a, E.Agree t (q a) (q' (carry E a))] : E.Agree t (p >>= q) (p' >>= q') :=
  .bind_stands hp hq

instance agree_bind_rests (p p' : Parse α) (q q' : α → Parse β) [hp : E.Agree true p p']
    [hrests : ∀ a, E.Rests (q a) (q' (carry E a))]
    [hq : ∀ a, E.Agree true (q a) (q' (carry E a))] : E.Agree true (p >>= q) (p' >>= q') :=
  .bind_rests hp hq hrests

instance agree_bind_oversteps (p p' : Parse α) (q q' : α → Parse β) [hp : E.Agree false p p']
    [hover : ∀ a, E.Oversteps (q a)]
    [hq : ∀ a, E.Agree true (q a) (q' (carry E a))] : E.Agree true (p >>= q) (p' >>= q') :=
  .bind_oversteps hp hq hover

instance agree_bind_loose (p p' : Parse α) (q q' : α → Parse β) [hp : E.Agree false p p']
    [hq : ∀ a, E.Agree false (q a) (q' (carry E a))] : E.Agree false (p >>= q) (p' >>= q') :=
  .bind_loose hp hq

instance stands_bind (p p' : Parse α) (q q' : α → Parse β) [hp : E.Stands p p']
    [hq : ∀ a, E.Stands (q a) (q' (carry E a))] : E.Stands (p >>= q) (p' >>= q') := .bind hp hq

instance rests_bind (p p' : Parse α) (q q' : α → Parse β) [hp : E.Rests p p']
    [hq : ∀ a, E.Rests (q a) (q' (carry E a))] : E.Rests (p >>= q) (p' >>= q') := .bind hp hq

/-! Both parses take the same branch. -/

instance agree_ite (c : Prop) [Decidable c] (p p' q q' : Parse α) [hp : E.Agree t p p']
    [hq : E.Agree t q q'] : E.Agree t (if c then p else q) (if c then p' else q') := by
  split
  · exact hp
  · exact hq

instance stands_ite (c : Prop) [Decidable c] (p p' q q' : Parse α) [hp : E.Stands p p']
    [hq : E.Stands q q'] : E.Stands (if c then p else q) (if c then p' else q') := by
  split
  · exact hp
  · exact hq

instance rests_ite (c : Prop) [Decidable c] (p p' q q' : Parse α) [hp : E.Rests p p']
    [hq : E.Rests q q'] : E.Rests (if c then p else q) (if c then p' else q') := by
  split
  · exact hp
  · exact hq

instance oversteps_ite {α : Type} (c : Prop) [Decidable c] (p q : Parse α) [hp : E.Oversteps p]
    [hq : E.Oversteps q] : E.Oversteps (if c then p else q) := by
  split
  · exact hp
  · exact hq

instance oversteps_ite_true {α : Type} (p q : Parse α) [hp : E.Oversteps p] :
    E.Oversteps (if true then p else q) := hp

/-! A pair is taken apart where it is bound. -/

section Pairs

variable (p p' : Parse (α × β)) (q q' : α × β → Parse γ)

instance (priority := high) agree_bind_stands_pair [hp : E.Stands p p']
    [hq : ∀ a b, E.Agree t (q (a, b)) (q' (carry E a, carry E b))] :
    E.Agree t (p >>= q) (p' >>= q') := .bind_stands hp fun x => hq x.1 x.2

instance (priority := high) agree_bind_rests_pair [hp : E.Agree true p p']
    [hrests : ∀ a b, E.Rests (q (a, b)) (q' (carry E a, carry E b))]
    [hq : ∀ a b, E.Agree true (q (a, b)) (q' (carry E a, carry E b))] :
    E.Agree true (p >>= q) (p' >>= q') :=
  .bind_rests hp (fun x => hq x.1 x.2) fun x => hrests x.1 x.2

instance (priority := high) agree_bind_oversteps_pair [hp : E.Agree false p p']
    [hover : ∀ a b, E.Oversteps (q (a, b))]
    [hq : ∀ a b, E.Agree true (q (a, b)) (q' (carry E a, carry E b))] :
    E.Agree true (p >>= q) (p' >>= q') :=
  .bind_oversteps hp (fun x => hq x.1 x.2) fun x => hover x.1 x.2

instance (priority := high) agree_bind_loose_pair [hp : E.Agree false p p']
    [hq : ∀ a b, E.Agree false (q (a, b)) (q' (carry E a, carry E b))] :
    E.Agree false (p >>= q) (p' >>= q') := .bind_loose hp fun x => hq x.1 x.2

instance (priority := high) rests_bind_pair [hp : E.Rests p p']
    [hq : ∀ a b, E.Rests (q (a, b)) (q' (carry E a, carry E b))] :
    E.Rests (p >>= q) (p' >>= q') := .bind hp fun x => hq x.1 x.2

end Pairs

end Instances

/-! ### Results that are carried over -/

section Results

variable {β : Type} [Carries β]

instance carried_self (a : α) : E.Carried a (carry E a) := ⟨rfl⟩

instance carried_bool (b : Bool) : E.Carried b b := ⟨rfl⟩

instance carried_unit (u : Unit) : E.Carried u u := ⟨rfl⟩

instance carried_lexeme (l : Lexeme) : E.Carried l l := ⟨rfl⟩

instance carried_strings (l : List String) : E.Carried l l := ⟨rfl⟩

instance carried_text (t : Text) : E.Carried t t := ⟨rfl⟩

variable (a a' : α) (b b' : β) (l l' m m' : List α) (o o' : Option α)

instance carried_pair [ha : E.Carried a a'] [hb : E.Carried b b'] : E.Carried (a, b) (a', b') :=
  ⟨Prod.ext ha.eq hb.eq⟩

instance carried_inl [h : E.Carried a a'] : E.Carried (.inl a : α ⊕ β) (.inl a') :=
  ⟨congrArg Sum.inl h.eq⟩

instance carried_inr [h : E.Carried b b'] : E.Carried (.inr b : α ⊕ β) (.inr b') :=
  ⟨congrArg Sum.inr h.eq⟩

instance carried_none : E.Carried (none : Option α) none := ⟨rfl⟩

instance carried_some [h : E.Carried a a'] : E.Carried (some a) (some a') :=
  ⟨congrArg some h.eq⟩

instance carried_nil : E.Carried ([] : List α) [] := ⟨rfl⟩

instance carried_cons [ha : E.Carried a a'] [hl : E.Carried l l'] :
    E.Carried (a :: l) (a' :: l') := ⟨congrArg₂ List.cons ha.eq hl.eq⟩

instance carried_append [hl : E.Carried l l'] [hm : E.Carried m m'] :
    E.Carried (l ++ m) (l' ++ m') := by
  constructor
  rw [hl.eq, hm.eq]
  exact List.map_append.symm

instance carried_reverse [h : E.Carried l l'] : E.Carried l.reverse l'.reverse := by
  constructor
  rw [h.eq]
  exact List.map_reverse.symm

instance carried_toList [h : E.Carried o o'] : E.Carried o.toList o'.toList := by
  constructor
  rw [h.eq]
  cases o <;> rfl

instance carried_ite (c : Prop) [Decidable c] (x x' : α) [ha : E.Carried a a']
    [hx : E.Carried x x'] : E.Carried (if c then a else x) (if c then a' else x') := by
  split
  · exact ha
  · exact hx

instance carried_not (c c' : Bool) [h : E.Carried c c'] : E.Carried (!c) (!c') :=
  ⟨congrArg not h.eq⟩

instance carried_and (c c' d d' : Bool) [hc : E.Carried c c'] [hd : E.Carried d d'] :
    E.Carried (c && d) (c' && d') := ⟨congrArg₂ and hc.eq hd.eq⟩

instance carried_or (c c' d d' : Bool) [hc : E.Carried c c'] [hd : E.Carried d d'] :
    E.Carried (c || d) (c' || d') := ⟨congrArg₂ or hc.eq hd.eq⟩

instance carried_isEmpty [h : E.Carried l l'] : E.Carried l.isEmpty l'.isEmpty := by
  constructor
  rw [h.eq]
  exact List.isEmpty_map

instance carried_isSome [h : E.Carried o o'] : E.Carried o.isSome o'.isSome := by
  constructor
  rw [h.eq]
  exact Option.isSome_map

instance carried_isNone [h : E.Carried o o'] : E.Carried o.isNone o'.isNone := by
  constructor
  rw [h.eq]
  exact Option.isNone_map

end Results

/-! Both parses take the same branch, as the condition of the second one is that of the first one
carried over. -/

instance (priority := low) agree_ite_carried {t : Bool} (c c' : Bool) (p p' q q' : Parse α)
    [hc : E.Carried c c'] [hp : E.Agree t p p'] [hq : E.Agree t q q'] :
    E.Agree t (if c then p else q) (if c' then p' else q') := by
  obtain rfl : c' = c := hc.eq
  exact agree_ite _ p p' q q'

instance (priority := low) rests_ite_carried (c c' : Bool) (p p' q q' : Parse α)
    [hc : E.Carried c c'] [hp : E.Rests p p'] [hq : E.Rests q q'] :
    E.Rests (if c then p else q) (if c' then p' else q') := by
  obtain rfl : c' = c := hc.eq
  exact rests_ite _ p p' q q'

end Seam

end Stencil.Script
