import Stencil.Proofs.Branch.Ends
import Stencil.Proofs.Script.Numbering
import Stencil.Script.Grammar

/-!
# Where nodes begin and end

A node begins where a lexeme begins and ends where a lexeme ends.  So if lexemes begin and end at
offsets with some property, then so do the nodes of a script.  A footing is such a property, with
what has to be known of the lexemes for it to go on from one of them to the next, and with a
property of the comments before them.  Lexemes follow each other, and so do the branches of a node.

That a parse keeps a footing is a class, and so is that a result is placed on it: a rule of the
grammar is made from smaller parses, and the instances for the ways to put parses together find the
proof along the rule.  What is known of the results that a rule has bound so far is collected in a
condition `pre`, as one part of a conjunction after the other.
-/

namespace Stencil.Script

/-- The lexemes that a reader may stand at, the offsets that are places, and the spans that may be
comments.  The lexemes begin and end at places, with such comments before them, and reading on from
one of them, or reading it in another way, leads to another one as long as no fault is found.  It is
also said where a lexeme may follow one that ends at a given offset, whether a line ends in between
or not, and at which spans a semicolon may then be missed. -/
structure Footing where
  admits : Lexed → Prop
  place : Nat → Prop
  comment : Span → Prop
  follows : Nat → (here : Text) → (newLine : Bool) → Prop
  lacks : Span → Prop
  start : ∀ {l}, admits l → place l.start
  stop : ∀ {l}, admits l → place l.stop
  comments : ∀ {l}, admits l → ∀ s ∈ l.comments, comment s
  next : ∀ {l}, admits l → (lex l.stop false l.rest).faults = [] → admits (lex l.stop false l.rest)
  regex : ∀ {l}, admits l → l.asRegex.faults = [] → admits l.asRegex
  template : ∀ {l}, admits l → l.asTemplate.faults = [] → admits l.asTemplate
  operator : ∀ {l}, admits l → l.asOperator.faults = [] → admits l.asOperator
  behind : ∀ {l}, admits l → (lex l.stop false l.rest).faults = [] →
    follows l.stop (lex l.stop false l.rest).here (lex l.stop false l.rest).newLine
  lack : ∀ {l n}, admits l → follows n l.here l.newLine → l.newLine = false →
    l.lexeme ≠ .stop → lacks ⟨n, n⟩
  order : ∀ {l}, admits l → l.start ≤ l.stop

/-- The comments, of which the last one comes first, stand one before the other between two
offsets. -/
structure Descend (low high : Nat) (comments : List Span) : Prop where
  pairwise : comments.Pairwise fun s earlier => earlier.stop ≤ s.start
  behind : ∀ s ∈ comments, low ≤ s.start
  before : ∀ s ∈ comments, s.stop ≤ high

/-- The reader stands at one of the lexemes, after one that ends before it and at a place, and has
met comments with the property, one after the other. -/
structure Footing.Holds (F : Footing) (r : Reader) : Prop where
  admits : F.admits r.lexed
  lastEnd : F.place r.lastEnd
  comments : ∀ s ∈ r.comments, F.comment s
  follows : F.follows r.lastEnd r.lexed.here r.lexed.newLine
  order : r.lastEnd ≤ r.lexed.start
  descend : Descend 0 r.lexed.start r.comments

/-! ### The order of lexemes -/

theorem le_offset_skipTrivia (mode : TriviaMode) (offset : Nat) (newLine : Bool)
    (comments : List Span) (t : Text) :
  offset ≤ (skipTrivia mode offset newLine comments t).offset
  := by
  fun_induction skipTrivia mode offset newLine comments t with
  | case1 | case2 | case3 | case14 | case15 => exact Nat.le_refl _
  | _ => omega

/-- A lexeme begins where its text does and does not end before that. -/
theorem order_lexHere (start : Nat) (newLine : Bool) (comments : List Span) (t : Text) :
  (lexHere start newLine comments t).start = start
    ∧ start ≤ (lexHere start newLine comments t).stop
  := by
  unfold lexHere
  split
  · exact ⟨rfl, Nat.le_refl start⟩
  · dsimp only
    split
    · split <;> exact ⟨rfl, Nat.le_add_right ..⟩
    · split <;> exact ⟨rfl, Nat.le_add_right ..⟩

/-- The next lexeme does not begin before the offset from which on it is looked for. -/
theorem order_lex {offset : Nat} {atStart : Bool} {t : Text}
    (h : (lex offset atStart t).faults = []) :
  offset ≤ (lex offset atStart t).start ∧ (lex offset atStart t).start ≤ (lex offset atStart t).stop
  := by
  unfold lex at *
  dsimp only at *
  split at *
  · rw [(order_lexHere _ _ _ _).1]
    exact ⟨le_offset_skipTrivia _ _ _ _ t, (order_lexHere _ _ _ _).2⟩
  · cases h

/-! ### The order of comments -/

namespace Descend

variable {low n m : Nat} {cs ds : List Span}

theorem nil :
  Descend n m []
  := ⟨.nil, by simp, by simp⟩

theorem mono (h : Descend low n cs) (hle : n ≤ m) :
  Descend low m cs
  := ⟨h.pairwise, h.behind, fun s hs => Nat.le_trans (h.before s hs) hle⟩

/-- A further comment comes first. -/
theorem cons (h : Descend low n cs) (hlow : low ≤ n) (hle : n ≤ m) :
  Descend low m (⟨n, m⟩ :: cs)
  := by
  constructor
  · exact List.pairwise_cons.mpr ⟨h.before, h.pairwise⟩
  · exact List.forall_mem_cons.mpr ⟨hlow, h.behind⟩
  · exact List.forall_mem_cons.mpr ⟨Nat.le_refl m, (h.mono hle).before⟩

/-- Comments behind an offset come before the comments up to there. -/
theorem append (hc : Descend n m cs) (hd : Descend low n ds) (hlow : low ≤ n) (hle : n ≤ m) :
  Descend low m (cs ++ ds)
  := by
  constructor
  · apply List.pairwise_append.mpr
    exact ⟨hc.pairwise, hd.pairwise,
      fun s hs d hd' => Nat.le_trans (hd.before d hd') (hc.behind s hs)⟩
  · exact List.forall_mem_append.mpr
      ⟨fun s hs => Nat.le_trans hlow (hc.behind s hs), hd.behind⟩
  · exact List.forall_mem_append.mpr ⟨hc.before, (hd.mono hle).before⟩

end Descend

/-- The offset where the comment begins in which the scan stands, or where the scan stands. -/
def TriviaMode.from (offset : Nat) : TriviaMode → Nat
  | outside => offset
  | line start => start
  | block start _ => start

/-- The comments in trivia stand one before the other from where the scan begins to where it
ends. -/
theorem descend_skipTrivia {low : Nat} (mode : TriviaMode) (offset : Nat) (newLine : Bool)
    (comments : List Span) (t : Text) (hlow : low ≤ mode.from offset)
    (hmode : mode.from offset ≤ offset) (hcomments : Descend low (mode.from offset) comments) :
  Descend low (skipTrivia mode offset newLine comments t).offset
    (skipTrivia mode offset newLine comments t).comments
  := by
  fun_induction skipTrivia mode offset newLine comments t with
  | case1 => exact hcomments
  | case2 => exact hcomments.cons hlow hmode
  | case3 => exact hcomments.mono hmode
  | case4 offset newLine comments c t next start _ ih =>
      have hnext : offset ≤ next := Nat.le_add_right ..
      apply ih
      · exact Nat.le_trans (Nat.le_trans hlow hmode) hnext
      · exact Nat.le_refl next
      · exact (hcomments.cons hlow hmode).mono hnext
  | case5 _ _ _ _ _ _ _ _ ih => exact ih hlow (Nat.le_add_right_of_le hmode) hcomments
  | case6 offset newLine comments c t next start star _ ih =>
      have hnext : start ≤ next := Nat.le_add_right_of_le hmode
      apply ih
      · exact Nat.le_trans hlow hnext
      · exact Nat.le_refl next
      · exact hcomments.cons hlow hnext
  | case7 _ _ _ _ _ _ _ _ _ ih => exact ih hlow (Nat.le_add_right_of_le hmode) hcomments
  | case8 offset newLine comments c t next _ ih =>
      have hnext : offset ≤ next := Nat.le_add_right ..
      exact ih (Nat.le_trans hlow hnext) (Nat.le_refl next) (hcomments.mono hnext)
  | case9 offset newLine comments c t next _ _ ih =>
      have hnext : offset ≤ next := Nat.le_add_right ..
      exact ih (Nat.le_trans hlow hnext) (Nat.le_refl next) (hcomments.mono hnext)
  | case10 _ _ _ _ _ _ ih => exact ih hlow (Nat.le_add_right ..) hcomments
  | case11 _ _ _ _ _ _ ih => exact ih hlow (Nat.le_add_right ..) hcomments
  | case12 _ _ _ _ _ _ ih => exact ih hlow (Nat.le_add_right ..) hcomments
  | case13 _ _ _ _ _ ih => exact ih hlow (Nat.le_add_right ..) hcomments
  | case14 => exact hcomments
  | case15 => exact hcomments

theorem comments_lexHere (start : Nat) (newLine : Bool) (comments : List Span) (t : Text) :
  (lexHere start newLine comments t).comments = comments
  := by
  unfold lexHere
  split
  · rfl
  · dsimp only
    split
    · split <;> rfl
    · split <;> rfl

/-- The comments before a lexeme stand behind the offset from which on it is looked for. -/
theorem descend_lex {offset : Nat} {atStart : Bool} {t : Text}
    (h : (lex offset atStart t).faults = []) :
  Descend offset (lex offset atStart t).start (lex offset atStart t).comments
  := by
  unfold lex at *
  dsimp only at *
  split at *
  · rw [(order_lexHere _ _ _ _).1, comments_lexHere]
    exact descend_skipTrivia .outside offset atStart [] t (Nat.le_refl _) (Nat.le_refl _) .nil
  · cases h

/-! ### Missed semicolons -/

/-- The fault is that a semicolon is missed. -/
def Fault.isLack : Fault → Bool
  | noSemicolon _ => true
  | _ => false

/-- A fault of another kind. -/
class Fault.IsOther (f : Fault) : Prop where
  other : f.isLack = false

namespace Fault

instance isOther_unexpected (s : Span) : (unexpected s).IsOther := ⟨rfl⟩

instance isOther_expected (wanted found : String) (s : Span) :
    (expected wanted found s).IsOther := ⟨rfl⟩

instance isOther_notAssignable (s : Span) : (notAssignable s).IsOther := ⟨rfl⟩

instance isOther_other : other.IsOther := ⟨rfl⟩

end Fault

/-- No fault that the reader remembers is that a semicolon is missed. -/
structure Reader.IsPlain (r : Reader) : Prop where
  lexed : ∀ f ∈ r.lexed.faults, f.isLack = false
  lexFaults : ∀ f ∈ r.lexFaults, f.isLack = false
  faults : ∀ f ∈ r.faults, f.isLack = false

/-- No lexeme is read with the fault that a semicolon is missed. -/
theorem isLack_lex (offset : Nat) (atStart : Bool) (t : Text) :
  ∀ f ∈ (lex offset atStart t).faults, f.isLack = false
  := by
  unfold lex
  dsimp only
  split
  · unfold lexHere
    split
    · simp
    · dsimp only
      split
      · split
        · dsimp only
          split <;> simp [Fault.isLack]
        · simp [Fault.isLack]
      · split
        · dsimp only
          split <;> simp [Fault.isLack]
        · dsimp only
          split <;> simp [Fault.isLack]
  · simp [Fault.isLack]

theorem isLack_asRegex {l : Lexed} (h : ∀ f ∈ l.faults, f.isLack = false) :
  ∀ f ∈ l.asRegex.faults, f.isLack = false
  := by
  unfold Lexed.asRegex
  split
  · dsimp only
    split
    · simp [Fault.isLack]
    · split <;> simp [Fault.isLack]
  · exact h

theorem isLack_asTemplate {l : Lexed} (h : ∀ f ∈ l.faults, f.isLack = false) :
  ∀ f ∈ l.asTemplate.faults, f.isLack = false
  := by
  unfold Lexed.asTemplate
  split
  · dsimp only
    split <;> simp [Fault.isLack]
  · exact h

/-- The lexeme with a regular expression read in its place begins where it does. -/
theorem Lexed.asRegex_eq (l : Lexed) :
  l.asRegex.here = l.here ∧ l.asRegex.newLine = l.newLine ∧ l.asRegex.start = l.start
  := by
  unfold asRegex
  split <;> exact ⟨rfl, rfl, rfl⟩

/-- The lexeme with a template continued in its place begins where it does. -/
theorem Lexed.asTemplate_eq (l : Lexed) :
  l.asTemplate.here = l.here ∧ l.asTemplate.newLine = l.newLine ∧ l.asTemplate.start = l.start
  := by
  unfold asTemplate
  split <;> exact ⟨rfl, rfl, rfl⟩

/-- The lexeme with an operator read in its place begins where it does and has its faults. -/
theorem Lexed.asOperator_eq (l : Lexed) :
  l.asOperator.here = l.here ∧ l.asOperator.newLine = l.newLine ∧ l.asOperator.start = l.start
    ∧ l.asOperator.faults = l.faults
  := by
  unfold asOperator
  split <;> exact ⟨rfl, rfl, rfl, rfl⟩

/-- The lexemes that are met from a given one on: the next one after it, the same one read in
another way, and what is met from there on. -/
inductive Lexed.Reaches : Lexed → Lexed → Prop where
  | refl (l : Lexed) : Reaches l l
  | next {l m : Lexed} : Reaches (lex l.stop false l.rest) m → Reaches l m
  | regex {l m : Lexed} : Reaches l.asRegex m → Reaches l m
  | template {l m : Lexed} : Reaches l.asTemplate m → Reaches l m
  | operator {l m : Lexed} : Reaches l.asOperator m → Reaches l m

theorem Lexed.Reaches.trans {l m n : Lexed} (h : l.Reaches m) (h' : m.Reaches n) :
  l.Reaches n
  := by
  induction h with
  | refl => exact h'
  | next _ ih => exact .next (ih h')
  | regex _ ih => exact .regex (ih h')
  | template _ ih => exact .template (ih h')
  | operator _ ih => exact .operator (ih h')

/-- A reader goes on to lexemes that are met from its own on, and what it remembers of faults of the
grammar and of parentheses is remembered later. -/
structure Reader.Grows (r r' : Reader) : Prop where
  lexed : r.lexed.Reaches r'.lexed
  faults : r.faults <:+ r'.faults
  notArrows : r.notArrows <:+ r'.notArrows

theorem Reader.Grows.refl (r : Reader) :
  r.Grows r
  := ⟨.refl _, List.suffix_refl _, List.suffix_refl _⟩

theorem Reader.Grows.trans {r s t : Reader} (h : r.Grows s) (h' : s.Grows t) :
  r.Grows t
  := ⟨h.lexed.trans h'.lexed, h.faults.trans h'.faults, h.notArrows.trans h'.notArrows⟩

/-- The reader at which a parse ends, with a result or without. -/
def Parse.final {α : Type} (p : Parse α) (r : Reader) : Reader :=
  match p r with
  | .ok _ r' => r'
  | .error _ r' => r'

/-! ### Results with places -/

/-- The nodes of the tree end at offsets with the property, and in its choices and switches the
branches go on from each other. -/
def Node.Stands (P : Nat → Prop) (n : Node) : Prop := n.EndsAt P ∧ n.Diverges

theorem Node.stands_iff {P : Nat → Prop} {n : Node} :
  n.Stands P ↔ (n.span.EndsAt P ∧ n.kind.Diverges) ∧ ∀ m ∈ n.parts, m.Stands P
  := by
  rw [Stands, endsAt_iff, diverges_iff, and_and_and_comm, ← forall₂_and]
  rfl

/-- A type of results that may hold offsets and nodes.  A result is placed if its offsets and the
ends of its nodes have the given property and the branches of its nodes go on from each other. -/
class Placed (α : Type) where
  placed : (Nat → Prop) → α → Prop

/-- A type of results without offsets and nodes. -/
class Unplaced (α : Type) extends Placed α where
  placed_all : ∀ P (a : α), placed P a

/-- Nothing is asked of the results of the type. -/
@[reducible] def Unplaced.trivial {α : Type} : Unplaced α where
  placed _ _ := True
  placed_all _ _ := True.intro

section Types

variable {α β : Type}

instance : Placed Nat := ⟨fun P n => P n⟩

instance : Placed Node := ⟨fun P n => n.Stands P⟩

instance : Unplaced Unit := .trivial

instance : Unplaced Bool := .trivial

instance : Unplaced Char := .trivial

instance : Unplaced String := .trivial

instance : Unplaced Lexeme := .trivial

instance : Unplaced Parse.ArrowSign := .trivial

instance : Unplaced Reader := .trivial

instance [Placed α] : Placed (Option α) := ⟨fun P o => ∀ a ∈ o, Placed.placed P a⟩

instance [Placed α] : Placed (List α) := ⟨fun P l => ∀ a ∈ l, Placed.placed P a⟩

instance [Placed α] [Placed β] : Placed (α × β) :=
  ⟨fun P x => Placed.placed P x.1 ∧ Placed.placed P x.2⟩

instance [Placed α] [Placed β] : Placed (α ⊕ β) :=
  ⟨fun P x => Sum.elim (Placed.placed P) (Placed.placed P) x⟩

instance [Unplaced α] : Unplaced (List α) where
  placed_all P _ := fun a _ => Unplaced.placed_all P a

instance [Unplaced α] [Unplaced β] : Unplaced (α ⊕ β) where
  placed_all P x := by cases x <;> apply Unplaced.placed_all P

end Types

namespace Footing

variable (F : Footing) {α β γ : Type} [Placed α] [Placed β] [Placed γ] {pre : Prop}

/-- The result is placed where the places are those of the footing. -/
abbrev Places (a : α) : Prop := Placed.placed F.place a

/-- The result is placed under a condition. -/
class IsPlaced (pre : Prop) (a : α) : Prop where
  places : pre → F.Places a

/-- What is known by the condition. -/
class Entails (pre Q : Prop) : Prop where
  entails : pre → Q

/-- A parse that gets through without a fault of a lexeme starts without one and keeps the footing,
and under the condition its result is placed.  What is remembered at its beginning is remembered at
its end.  A parse that stops because it misses a semicolon, without any other fault, misses it where
the footing allows that. -/
class Keeps (pre : Prop) (p : Parse α) : Prop where
  startsClean : ∀ {r a r'}, p r = .ok a r' → r'.lexFaults = [] → r.lexFaults = []
  holds : ∀ {r a r'}, p r = .ok a r' → r'.lexFaults = [] → F.Holds r → F.Holds r'
  places : ∀ {r a r'}, p r = .ok a r' → r'.lexFaults = [] → pre → F.Holds r → F.Places a
  grows : ∀ r : Reader, r.Grows (p.final r)
  plain : ∀ {r}, r.IsPlain → (p.final r).IsPlain
  misses : ∀ {r s r'}, p r = .error (.noSemicolon s) r' → r.IsPlain → r'.lexFaults = [] →
    r.lexFaults = [] ∧ (pre → F.Holds r → F.lacks s)

variable {F}

/-! ### Placed results -/

instance (priority := high) isPlaced_false (a : α) : F.IsPlaced False a := ⟨False.elim⟩

instance isPlaced_known (a : α) : F.IsPlaced (pre ∧ F.Places a) a := ⟨And.right⟩

instance (priority := low) isPlaced_and {Q : Prop} (a : α) [h : F.IsPlaced pre a] :
    F.IsPlaced (pre ∧ Q) a := ⟨fun hpre => h.places hpre.1⟩

instance isPlaced_unplaced {α : Type} [Unplaced α] (a : α) : F.IsPlaced pre a :=
  ⟨fun _ => Unplaced.placed_all _ a⟩

instance isPlaced_pair (a : α) (b : β) [ha : F.IsPlaced pre a] [hb : F.IsPlaced pre b] :
    F.IsPlaced pre (a, b) := ⟨fun hpre => ⟨ha.places hpre, hb.places hpre⟩⟩

instance isPlaced_inl (a : α) [h : F.IsPlaced pre a] : F.IsPlaced pre (.inl a : α ⊕ β) :=
  ⟨fun hpre => h.places hpre⟩

instance isPlaced_inr (b : β) [h : F.IsPlaced pre b] : F.IsPlaced pre (.inr b : α ⊕ β) :=
  ⟨fun hpre => h.places hpre⟩

instance isPlaced_none : F.IsPlaced pre (none : Option α) := ⟨fun _ _ h => by cases h⟩

instance isPlaced_some (a : α) [h : F.IsPlaced pre a] : F.IsPlaced pre (some a) := by
  constructor
  intro hpre b hb
  rw [← Option.some.inj hb]
  apply h.places hpre

instance isPlaced_nil : F.IsPlaced pre ([] : List α) := ⟨fun _ _ h => by cases h⟩

instance isPlaced_cons (a : α) (l : List α) [ha : F.IsPlaced pre a] [hl : F.IsPlaced pre l] :
    F.IsPlaced pre (a :: l) :=
  ⟨fun hpre => List.forall_mem_cons.mpr ⟨ha.places hpre, hl.places hpre⟩⟩

instance isPlaced_append (l m : List α) [hl : F.IsPlaced pre l] [hm : F.IsPlaced pre m] :
    F.IsPlaced pre (l ++ m) :=
  ⟨fun hpre => List.forall_mem_append.mpr ⟨hl.places hpre, hm.places hpre⟩⟩

instance isPlaced_reverse (l : List α) [h : F.IsPlaced pre l] : F.IsPlaced pre l.reverse :=
  ⟨fun hpre a ha => h.places hpre a (List.mem_reverse.mp ha)⟩

instance isPlaced_toList (o : Option α) [h : F.IsPlaced pre o] : F.IsPlaced pre o.toList :=
  ⟨fun hpre a ha => h.places hpre a (Option.mem_toList.mp ha)⟩

instance isPlaced_mapSome (l : List α) [h : F.IsPlaced pre l] : F.IsPlaced pre (l.map some) := by
  constructor
  intro hpre o ho a ha
  obtain ⟨b, hb, rfl⟩ := List.mem_map.mp ho
  rw [← Option.some.inj ha]
  apply h.places hpre b hb

instance isPlaced_ite (c : Prop) [Decidable c] (a b : α) [ha : F.IsPlaced pre a]
    [hb : F.IsPlaced pre b] : F.IsPlaced pre (if c then a else b) := by
  split
  · exact ha
  · exact hb

/-! What is known of a result is known of its parts. -/

instance isPlaced_of_pair {x : γ} (a : α) (b : β)
    [h : F.IsPlaced ((pre ∧ F.Places a) ∧ F.Places b) x] : F.IsPlaced (pre ∧ F.Places (a, b)) x :=
  ⟨fun hpre => h.places ⟨⟨hpre.1, hpre.2.1⟩, hpre.2.2⟩⟩

instance isPlaced_of_some {x : γ} (a : α) [h : F.IsPlaced (pre ∧ F.Places a) x] :
    F.IsPlaced (pre ∧ F.Places (some a)) x :=
  ⟨fun hpre => h.places ⟨hpre.1, hpre.2 a rfl⟩⟩

instance isPlaced_of_cons {x : γ} (a : α) (l : List α)
    [h : F.IsPlaced ((pre ∧ F.Places a) ∧ F.Places l) x] :
    F.IsPlaced (pre ∧ F.Places (a :: l)) x := by
  constructor
  intro hpre
  obtain ⟨ha, hl⟩ := List.forall_mem_cons.mp hpre.2
  apply h.places ⟨⟨hpre.1, ha⟩, hl⟩

instance entails_true : Entails pre True := ⟨fun _ => trivial⟩

instance entails_false {Q : Prop} : Entails False Q := ⟨False.elim⟩

instance entails_known {Q : Prop} : Entails (pre ∧ Q) Q := ⟨And.right⟩

instance (priority := low) entails_and {Q R : Prop} [h : Entails pre R] : Entails (pre ∧ Q) R :=
  ⟨fun hpre => h.entails hpre.1⟩

/-! ### Parses one after the other -/

/-- A parse that gets through keeps the footing and has a placed result. -/
theorem Keeps.keeps {p : Parse α} [h : F.Keeps pre p] {r r' : Reader} {a : α}
    (hrun : p r = .ok a r') (hclean : r'.lexFaults = []) :
  r.lexFaults = [] ∧ (pre → F.Holds r → F.Holds r' ∧ F.Places a)
  := ⟨h.startsClean hrun hclean,
    fun hpre hholds => ⟨h.holds hrun hclean hholds, h.places hrun hclean hpre hholds⟩⟩

theorem Keeps.imp {Q : Prop} {p : Parse α} (h : F.Keeps pre p) (himp : Q → pre) :
  F.Keeps Q p
  := by
  refine ⟨h.startsClean, h.holds, fun hrun hclean hq => h.places hrun hclean (himp hq), h.grows,
    h.plain, fun hrun hplain hclean => ?_⟩
  have hmisses := h.misses hrun hplain hclean
  exact ⟨hmisses.1, fun hq => hmisses.2 (himp hq)⟩

/-- What gets through is a parse that does so and what follows on its result. -/
theorem bind_eq_ok {α β : Type} {p : Parse α} {f : α → Parse β} {r r' : Reader} {b : β}
    (h : (p >>= f) r = .ok b r') :
  ∃ a s, p r = .ok a s ∧ f a s = .ok b r'
  := by
  change EStateM.bind p f r = _ at h
  unfold EStateM.bind at h
  split at h
  · next a s hp => exact ⟨a, s, hp, h⟩
  · cases h

/-- What stops is a parse, or what follows on its result. -/
theorem bind_eq_error {α β : Type} {p : Parse α} {f : α → Parse β} {r r' : Reader} {e : Fault}
    (h : (p >>= f) r = .error e r') :
  p r = .error e r' ∨ ∃ a s, p r = .ok a s ∧ f a s = .error e r'
  := by
  change EStateM.bind p f r = _ at h
  unfold EStateM.bind at h
  split at h
  · next a s hp => exact Or.inr ⟨a, s, hp, h⟩
  · next e' s hp =>
      cases h
      exact Or.inl hp

theorem final_bind {α β : Type} (p : Parse α) (f : α → Parse β) (r : Reader) :
  (p >>= f).final r = p.final r ∨ ∃ a, (p >>= f).final r = (f a).final (p.final r)
  := by
  unfold Parse.final
  change (match EStateM.bind p f r with | .ok _ r' => r' | .error _ r' => r') = _ ∨ ∃ a,
    (match EStateM.bind p f r with | .ok _ r' => r' | .error _ r' => r') = _
  unfold EStateM.bind
  cases p r with
  | ok a s => exact Or.inr ⟨a, rfl⟩
  | error e s => exact Or.inl rfl

/-- A parse after another one, if it keeps the footing once it is known that the result of the first
one is placed, and what else is known of it. -/
theorem Keeps.of_bind_knowing {p : Parse α} {f : α → Parse β} {R : α → Prop} [h : F.Keeps pre p]
    (hR : ∀ {r a r'}, F.Holds r → p r = .ok a r' → r'.lexFaults = [] → R a)
    (hf : ∀ a, F.Keeps ((pre ∧ F.Places a) ∧ R a) (f a)) :
  F.Keeps pre (p >>= f)
  := by
  constructor
  · intro r b r' hrun hclean
    obtain ⟨a, s, hfirst, hrest⟩ := bind_eq_ok hrun
    apply h.startsClean hfirst ((hf a).startsClean hrest hclean)
  · intro r b r' hrun hclean hholds
    obtain ⟨a, s, hfirst, hrest⟩ := bind_eq_ok hrun
    apply (hf a).holds hrest hclean
    apply h.holds hfirst ((hf a).startsClean hrest hclean) hholds
  · intro r b r' hrun hclean hpre hholds
    obtain ⟨a, s, hfirst, hrest⟩ := bind_eq_ok hrun
    have hs := (hf a).startsClean hrest hclean
    apply (hf a).places hrest hclean _ (h.holds hfirst hs hholds)
    exact ⟨⟨hpre, h.places hfirst hs hpre hholds⟩, hR hholds hfirst hs⟩
  · intro r
    rcases final_bind p f r with hfinal | ⟨a, hfinal⟩
    · rw [hfinal]
      apply h.grows
    · rw [hfinal]
      apply (h.grows r).trans ((hf a).grows _)
  · intro r hplain
    rcases final_bind p f r with hfinal | ⟨a, hfinal⟩
    · rw [hfinal]
      apply h.plain hplain
    · rw [hfinal]
      apply (hf a).plain (h.plain hplain)
  · intro r m r' hrun hplain hclean
    rcases bind_eq_error hrun with hrun | ⟨a, s, hfirst, hrest⟩
    · apply h.misses hrun hplain hclean
    · have hs : s.IsPlain := by
        have := h.plain hplain
        rwa [Parse.final, hfirst] at this
      obtain ⟨hclean, hrest⟩ := (hf a).misses hrest hs hclean
      refine ⟨h.startsClean hfirst hclean, fun hpre hholds => ?_⟩
      apply hrest _ (h.holds hfirst hclean hholds)
      exact ⟨⟨hpre, h.places hfirst hclean hpre hholds⟩, hR hholds hfirst hclean⟩

theorem Keeps.of_bind {p : Parse α} {f : α → Parse β} [h : F.Keeps pre p]
    (hf : ∀ a, F.Keeps (pre ∧ F.Places a) (f a)) :
  F.Keeps pre (p >>= f)
  := .of_bind_knowing (R := fun _ => True) (fun _ _ _ => trivial) fun a => (hf a).imp And.left

instance keeps_bind (p : Parse α) (f : α → Parse β) [F.Keeps pre p]
    [hf : ∀ a, F.Keeps (pre ∧ F.Places a) (f a)] : F.Keeps pre (p >>= f) := .of_bind hf

instance (priority := high) keeps_bind_unplaced {α : Type} [Unplaced α] (p : Parse α)
    (f : α → Parse β) [F.Keeps pre p] [hf : ∀ a, F.Keeps pre (f a)] : F.Keeps pre (p >>= f) :=
  .of_bind fun a => (hf a).imp And.left

instance (priority := high) keeps_bind_pair (p : Parse (α × β)) (f : α × β → Parse γ)
    [F.Keeps pre p] [hf : ∀ a b, F.Keeps (pre ∧ F.Places (a, b)) (f (a, b))] :
    F.Keeps pre (p >>= f) := .of_bind fun x => hf x.1 x.2

instance (priority := high) keeps_bind_option (p : Parse (Option α)) (f : Option α → Parse β)
    [F.Keeps pre p] [hnone : F.Keeps pre (f none)]
    [hsome : ∀ a, F.Keeps (pre ∧ F.Places (some a)) (f (some a))] : F.Keeps pre (p >>= f) := by
  apply Keeps.of_bind
  intro o
  cases o with
  | none => exact hnone.imp And.left
  | some a => exact hsome a

/-! ### Moves of a reader -/

/-- A parse that reads something off the reader. -/
theorem Keeps.of_read {p : Parse α} {f : Reader → α} (hp : ∀ r, p r = .ok (f r) r)
    (h : ∀ r, pre → F.Holds r → F.Places (f r)) :
  F.Keeps pre p
  := by
  constructor
  · intro r a r' hrun hclean
    rw [hp] at hrun
    cases hrun
    exact hclean
  · intro r a r' hrun _ hholds
    rw [hp] at hrun
    cases hrun
    exact hholds
  · intro r a r' hrun _ hpre hholds
    rw [hp] at hrun
    cases hrun
    exact h r hpre hholds
  · intro r
    rw [Parse.final, hp]
    apply Reader.Grows.refl
  · intro r hplain
    rwa [Parse.final, hp]
  · intro r s r' hrun
    rw [hp] at hrun
    cases hrun

instance keeps_pure (a : α) [h : F.IsPlaced pre a] : F.Keeps pre (pure a : Parse α) :=
  .of_read (fun _ => rfl) fun _ hpre _ => h.places hpre

instance keeps_get : F.Keeps pre (get : Parse Reader) :=
  .of_read (fun _ => rfl) fun _ _ _ => trivial

instance keeps_start : F.Keeps pre Parse.start :=
  .of_read (fun _ => rfl) fun _ _ hholds => F.start hholds.admits

instance keeps_lastEnd : F.Keeps pre Parse.lastEnd :=
  .of_read (fun _ => rfl) fun _ _ hholds => hholds.lastEnd

/-- A parse that stops for another reason than that it misses a semicolon. -/
theorem Keeps.of_stops {p : Parse α}
    (h : ∀ r, ∃ f r', p r = .error f r' ∧ r.Grows r'
      ∧ (r.IsPlain → f.isLack = false ∧ r'.IsPlain)) :
  F.Keeps pre p
  := by
  have hstops {r : Reader} {a : α} {r' : Reader} (hrun : p r = .ok a r') : False := by
    obtain ⟨f, s, hstops, -⟩ := h r
    rw [hstops] at hrun
    cases hrun
  refine ⟨fun hrun => (hstops hrun).elim, fun hrun => (hstops hrun).elim,
    fun hrun => (hstops hrun).elim, ?_, ?_, ?_⟩
  · intro r
    obtain ⟨f, s, hstops, hgrows, -⟩ := h r
    rwa [Parse.final, hstops]
  · intro r hplain
    obtain ⟨f, s, hstops, -, hother⟩ := h r
    rw [Parse.final, hstops]
    exact (hother hplain).2
  · intro r m r' hrun hplain
    obtain ⟨f, s, hstops, -, hother⟩ := h r
    rw [hstops] at hrun
    cases hrun
    cases (hother hplain).1

instance keeps_throw (f : Fault) [hf : f.IsOther] : F.Keeps pre (throw f : Parse α) :=
  .of_stops fun r => ⟨f, r, rfl, .refl r, fun hplain => ⟨hf.other, hplain⟩⟩

theorem unexpected_apply {α : Type} (r : Reader) :
  (Parse.unexpected : Parse α) r = (match r.lexed.lexeme.isEnd, r.lexFaults with
    | true, f :: rest => do
        set { r with lexFaults := rest }
        throw f
    | _, _ => throw (Fault.unexpected r.span) : Parse α) r
  := rfl

/-- A lexeme that makes no sense stops a parse, but not because a semicolon is missed. -/
theorem unexpected_eq {α : Type} (r : Reader) :
  ∃ f r', (Parse.unexpected : Parse α) r = .error f r' ∧ r.Grows r'
    ∧ (r.IsPlain → f.isLack = false ∧ r'.IsPlain)
  := by
  rw [unexpected_apply]
  generalize r.lexed.lexeme.isEnd = isEnd
  cases hfaults : r.lexFaults with
  | nil => exact ⟨_, r, by cases isEnd <;> rfl, .refl r, fun hplain => ⟨rfl, hplain⟩⟩
  | cons f rest =>
      cases isEnd with
      | false => exact ⟨_, r, rfl, .refl r, fun hplain => ⟨rfl, hplain⟩⟩
      | true =>
          refine ⟨f, _, rfl, ⟨.refl _, List.suffix_refl _, List.suffix_refl _⟩, fun hplain => ?_⟩
          have hrest := hplain.lexFaults
          rw [hfaults] at hrest
          obtain ⟨hf, hrest⟩ := List.forall_mem_cons.mp hrest
          exact ⟨hf, hplain.lexed, hrest, hplain.faults⟩

instance keeps_unexpected : F.Keeps pre (Parse.unexpected : Parse α) := .of_stops unexpected_eq

theorem Keeps.of_modify {g : Reader → Reader}
    (hclean : ∀ r, (g r).lexFaults = [] → r.lexFaults = [])
    (hgrows : ∀ r : Reader, r.Grows (g r))
    (hplain : ∀ r, r.IsPlain → (g r).IsPlain)
    (hholds : ∀ r, (g r).lexFaults = [] → F.Holds r → F.Holds (g r)) :
  F.Keeps pre (modify g : Parse Unit)
  := by
  constructor
  · intro r a r' hrun hr'
    cases hrun
    exact hclean r hr'
  · intro r a r' hrun hr' h
    cases hrun
    exact hholds r hr' h
  · intro r a r' hrun hr' _ _
    trivial
  · intro r
    exact hgrows r
  · intro r h
    exact hplain r h
  · intro r s r' hrun
    cases hrun

/-- A parse that first changes what the reader remembers beside its faults and its footing. -/
theorem Keeps.of_change {p : Parse α} {q : Reader → Parse α} {g : Reader → Reader}
    (hq : ∀ r, F.Keeps pre (q r)) (hp : ∀ r, p r = q r (g r))
    (hclean : ∀ r, (g r).lexFaults = r.lexFaults) (hgrows : ∀ r : Reader, r.Grows (g r))
    (hplain : ∀ r, r.IsPlain → (g r).IsPlain) (hholds : ∀ r, F.Holds r → F.Holds (g r)) :
  F.Keeps pre p
  := by
  constructor
  · intro r a r' hrun hr'
    rw [hp] at hrun
    have hr := (hq r).startsClean hrun hr'
    rwa [hclean] at hr
  · intro r a r' hrun hr' h
    rw [hp] at hrun
    apply (hq r).holds hrun hr' (hholds r h)
  · intro r a r' hrun hr' hpre h
    rw [hp] at hrun
    apply (hq r).places hrun hr' hpre (hholds r h)
  · intro r
    have hrest := (hq r).grows (g r)
    unfold Parse.final at *
    rw [hp]
    apply (hgrows r).trans hrest
  · intro r h
    have hfinal := (hq r).plain (hplain r h)
    unfold Parse.final at *
    rwa [hp]
  · intro r s r' hrun h hr'
    rw [hp] at hrun
    obtain ⟨hr, hmisses⟩ := (hq r).misses hrun (hplain r h) hr'
    rw [hclean] at hr
    exact ⟨hr, fun hpre h => hmisses hpre (hholds r h)⟩

instance keeps_advanceName : F.Keeps pre Parse.advanceName := by
  apply Keeps.of_modify
  · intro r h
    exact (List.append_eq_nil_iff.mp h).2
  · intro r
    exact ⟨.next (.refl _), List.suffix_refl _, List.suffix_refl _⟩
  · intro r h
    have hlexed := isLack_lex r.lexed.stop false r.lexed.rest
    exact ⟨hlexed, List.forall_mem_append.mpr ⟨hlexed, h.lexFaults⟩, h.faults⟩
  · intro r h hholds
    have hlexed := (List.append_eq_nil_iff.mp h).1
    have hnext := F.next hholds.admits hlexed
    have hstart := (order_lex hlexed).1
    have hmet := hholds.descend.mono (F.order hholds.admits)
    exact ⟨hnext, F.stop hholds.admits,
      List.forall_mem_append.mpr ⟨F.comments hnext, hholds.comments⟩,
      F.behind hholds.admits hlexed, hstart,
      (descend_lex hlexed).append hmet (Nat.zero_le _) hstart⟩

theorem Keeps.of_reread {g : Lexed → Lexed}
    (hg : ∀ {l}, F.admits l → (g l).faults = [] → F.admits (g l))
    (hreaches : ∀ l : Lexed, l.Reaches (g l))
    (hplain : ∀ l, (∀ f ∈ l.faults, f.isLack = false) → ∀ f ∈ (g l).faults, f.isLack = false)
    (hplace : ∀ l, (g l).here = l.here ∧ (g l).newLine = l.newLine ∧ (g l).start = l.start) :
  F.Keeps pre (modify fun r => r.reread (g r.lexed) : Parse Unit)
  := by
  apply Keeps.of_modify
  · intro r h
    exact (List.append_eq_nil_iff.mp h).2
  · intro r
    exact ⟨hreaches r.lexed, List.suffix_refl _, List.suffix_refl _⟩
  · intro r h
    have hlexed := hplain r.lexed h.lexed
    exact ⟨hlexed, List.forall_mem_append.mpr ⟨hlexed, h.lexFaults⟩, h.faults⟩
  · intro r h hholds
    obtain ⟨hhere, hline, hstart⟩ := hplace r.lexed
    have hfollows := hholds.follows
    have horder := hholds.order
    have hdescend := hholds.descend
    rw [← hhere, ← hline] at hfollows
    rw [← hstart] at horder hdescend
    exact ⟨hg hholds.admits (List.append_eq_nil_iff.mp h).1, hholds.lastEnd, hholds.comments,
      hfollows, horder, hdescend⟩

instance keeps_asRegex : F.Keeps pre (modify fun r => r.reread r.lexed.asRegex : Parse Unit) :=
  .of_reread F.regex (fun _ => .regex (.refl _)) (fun _ => isLack_asRegex) Lexed.asRegex_eq

instance keeps_asTemplate :
    F.Keeps pre (modify fun r => r.reread r.lexed.asTemplate : Parse Unit) :=
  .of_reread F.template (fun _ => .template (.refl _)) (fun _ => isLack_asTemplate)
    Lexed.asTemplate_eq

instance keeps_asOperator :
    F.Keeps pre (modify fun r => r.reread r.lexed.asOperator : Parse Unit) :=
  .of_reread F.operator (fun _ => .operator (.refl _)) (fun l h => by rwa [l.asOperator_eq.2.2.2])
    fun l => ⟨l.asOperator_eq.1, l.asOperator_eq.2.1, l.asOperator_eq.2.2.1⟩

/-! What a reader only remembers does not matter to its footing. -/

instance keeps_note (f : Fault) [hf : f.IsOther] : F.Keeps pre (Parse.note f) :=
  .of_modify (fun _ h => h) (fun _ => ⟨.refl _, List.suffix_cons .., List.suffix_refl _⟩)
    (fun _ h => ⟨h.lexed, h.lexFaults, List.forall_mem_cons.mpr ⟨hf.other, h.faults⟩⟩)
    fun _ _ h => ⟨h.admits, h.lastEnd, h.comments, h.follows, h.order, h.descend⟩

instance keeps_uncovered (g : Reader → List Nat) :
    F.Keeps pre (modify fun r => { r with uncovered := g r } : Parse Unit) :=
  .of_modify (fun _ h => h) (fun _ => ⟨.refl _, List.suffix_refl _, List.suffix_refl _⟩)
    (fun _ h => ⟨h.lexed, h.lexFaults, h.faults⟩)
    fun _ _ h => ⟨h.admits, h.lastEnd, h.comments, h.follows, h.order, h.descend⟩

instance keeps_trailing (g : Reader → List Nat) :
    F.Keeps pre (modify fun r => { r with trailing := g r } : Parse Unit) :=
  .of_modify (fun _ h => h) (fun _ => ⟨.refl _, List.suffix_refl _, List.suffix_refl _⟩)
    (fun _ h => ⟨h.lexed, h.lexFaults, h.faults⟩)
    fun _ _ h => ⟨h.admits, h.lastEnd, h.comments, h.follows, h.order, h.descend⟩

instance keeps_notArrows (start : Nat) :
    F.Keeps pre (modify fun r => { r with notArrows := start :: r.notArrows } : Parse Unit) :=
  .of_modify (fun _ h => h) (fun _ => ⟨.refl _, List.suffix_refl _, List.suffix_cons ..⟩)
    (fun _ h => ⟨h.lexed, h.lexFaults, h.faults⟩)
    fun _ _ h => ⟨h.admits, h.lastEnd, h.comments, h.follows, h.order, h.descend⟩

/-! ### Parses made from others -/

instance keeps_ite (c : Prop) [Decidable c] (p q : Parse α) [hp : F.Keeps pre p]
    [hq : F.Keeps pre q] : F.Keeps pre (if c then p else q) := by
  split
  · exact hp
  · exact hq

instance keeps_map (f : α → β) (p : Parse α) [F.Keeps pre p]
    [∀ a, F.IsPlaced (pre ∧ F.Places a) (f a)] : F.Keeps pre (f <$> p) :=
  keeps_bind p fun a => pure (f a)

instance keeps_discard (p : Parse α) [F.Keeps pre p] : F.Keeps pre (discard p) :=
  keeps_bind p fun _ => pure ()

/-- The state of a repetition is placed before each step. -/
theorem keeps_loopFor {step : α → Parse (α ⊕ β)}
    (hstep : ∀ a, F.Keeps (pre ∧ F.Places a) (step a)) (budget : Text) (a : α) :
  F.Keeps (pre ∧ F.Places a) (Parse.loopFor budget step a)
  := by
  induction budget generalizing a with
  | nil => exact keeps_unexpected
  | cons _ budget ih =>
      have := hstep a
      apply Keeps.of_bind
      rintro (a' | b)
      · exact (ih a').imp fun h => ⟨h.1.1, h.2⟩
      · exact keeps_pure b (h := ⟨And.right⟩)

theorem Keeps.of_loop {step : α → Parse (α ⊕ β)} {a : α} [ha : F.IsPlaced pre a]
    (hstep : ∀ a, F.Keeps (pre ∧ F.Places a) (step a)) :
  F.Keeps pre (Parse.loop step a)
  := by
  apply of_bind
  intro r
  apply (keeps_loopFor hstep _ a).imp
  exact fun hpre => ⟨hpre.1, ha.places hpre.1⟩

instance keeps_loop (step : α → Parse (α ⊕ β)) (a : α) [F.IsPlaced pre a]
    [hstep : ∀ a, F.Keeps (pre ∧ F.Places a) (step a)] : F.Keeps pre (Parse.loop step a) :=
  .of_loop hstep

instance keeps_many (done : Parse Bool) (item : Parse α) [∀ pre, F.Keeps pre done]
    [∀ pre, F.Keeps pre item] : F.Keeps pre (Parse.many done item) := by
  unfold Parse.many
  infer_instance

instance keeps_ahead {α : Type} [Unplaced α] (p : Parse α) (default : α) :
    F.Keeps pre (Parse.ahead p default) := by
  refine .of_read (f := fun r => match p r with | .ok a _ => a | .error _ _ => default) ?_
    fun _ _ _ => Unplaced.placed_all _ _
  intro r
  unfold Parse.ahead
  cases p r <;> rfl

instance keeps_attempt (p : Parse α) [hp : F.Keeps pre p] : F.Keeps pre (Parse.attempt p) := by
  constructor
  · intro r a r' hrun hclean
    unfold Parse.attempt at hrun
    split at hrun
    · next b s hb =>
        cases hrun
        apply hp.startsClean hb hclean
    · cases hrun
      exact hclean
  · intro r a r' hrun hclean hholds
    unfold Parse.attempt at hrun
    split at hrun
    · next b s hb =>
        cases hrun
        apply hp.holds hb hclean hholds
    · cases hrun
      exact ⟨hholds.admits, hholds.lastEnd, hholds.comments, hholds.follows, hholds.order,
        hholds.descend⟩
  · intro r a r' hrun hclean hpre hholds
    unfold Parse.attempt at hrun
    split at hrun
    · next b s hb =>
        cases hrun
        have : F.IsPlaced True b := ⟨fun _ => hp.places hb hclean hpre hholds⟩
        apply (isPlaced_some b).places trivial
    · cases hrun
      apply isPlaced_none.places trivial
  · intro r
    have hfinal := hp.grows r
    unfold Parse.final Parse.attempt at *
    cases hrun : p r with
    | ok a s =>
        rw [hrun] at hfinal
        exact hfinal
    | error f s =>
        rw [hrun] at hfinal
        exact ⟨.refl _, List.suffix_refl _, hfinal.notArrows⟩
  · intro r hplain
    have hfinal := hp.plain hplain
    unfold Parse.final Parse.attempt at *
    cases hrun : p r with
    | ok a s =>
        rw [hrun] at hfinal
        exact hfinal
    | error f s => exact ⟨hplain.lexed, hplain.lexFaults, hplain.faults⟩
  · intro r s r' hrun
    unfold Parse.attempt at hrun
    split at hrun <;> cases hrun

/-- A node from a place on whose parts are placed is placed, if its own branches go on from each
other. -/
instance keeps_node (start : Nat) (kind : Kind Node) [hstart : F.IsPlaced pre start]
    [hparts : F.IsPlaced pre kind.fields] [hkind : Entails pre kind.Diverges] :
    F.Keeps pre (Parse.node start kind) := by
  apply Keeps.of_read (fun _ => rfl)
  intro r hpre hholds
  refine Node.stands_iff.mpr ⟨⟨⟨hstart.places hpre, hholds.lastEnd⟩, hkind.entails hpre⟩, ?_⟩
  intro m hm
  rw [Node.parts_eq] at hm
  obtain ⟨field, hfield, hm⟩ := List.mem_flatMap.mp hm
  obtain ⟨o, ho, rfl⟩ := List.mem_filterMap.mp hm
  exact (hparts.places hpre field hfield).2 (some m) ho m rfl

/-! ### The rules of readers -/

instance keeps_current : F.Keeps pre Parse.current := by
  unfold Parse.current
  infer_instance

instance keeps_onNewLine : F.Keeps pre Parse.onNewLine := by
  unfold Parse.onNewLine
  infer_instance

instance keeps_here : F.Keeps pre Parse.here := by
  unfold Parse.here
  infer_instance

instance keeps_atMark (m : String) : F.Keeps pre (Parse.atMark m) := by
  unfold Parse.atMark
  infer_instance

instance keeps_atWord (w : String) : F.Keeps pre (Parse.atWord w) := by
  unfold Parse.atWord
  infer_instance

instance keeps_atEnd : F.Keeps pre Parse.atEnd := by
  unfold Parse.atEnd
  infer_instance

instance keeps_noteIf (c : Bool) : F.Keeps pre (Parse.noteIf c) := by
  unfold Parse.noteIf
  infer_instance

instance keeps_advance : F.Keeps pre Parse.advance := by
  unfold Parse.advance
  apply Keeps.of_bind
  intro l
  split <;> infer_instance

instance keeps_expected (wanted : String) : F.Keeps pre (Parse.expected wanted : Parse α) := by
  unfold Parse.expected
  infer_instance

instance keeps_expect (m : String) : F.Keeps pre (Parse.expect m) := by
  unfold Parse.expect
  infer_instance

instance keeps_expectWord (w : String) : F.Keeps pre (Parse.expectWord w) := by
  unfold Parse.expectWord
  infer_instance

instance keeps_eat (m : String) : F.Keeps pre (Parse.eat m) := by
  unfold Parse.eat
  infer_instance

instance keeps_eatWord (w : String) : F.Keeps pre (Parse.eatWord w) := by
  unfold Parse.eatWord
  infer_instance

instance keeps_atStatementEnd : F.Keeps pre Parse.atStatementEnd := by
  unfold Parse.atStatementEnd
  infer_instance

/-- A statement ends, or a semicolon is missed because no line ends after the last lexeme and
another one follows. -/
theorem endStatement_eq (r : Reader) :
  Parse.endStatement r = discard (Parse.eat ";") r
    ∨ Parse.endStatement r = .error (.noSemicolon ⟨r.lastEnd, r.lastEnd⟩) r
      ∧ r.lexed.newLine = false ∧ r.lexed.lexeme ≠ .stop
  := by
  have hrun : Parse.endStatement r
      = if r.lexed.lexeme.isMark ";" || r.lexed.lexeme.isMark "\x7d" || r.lexed.lexeme == .stop
          || r.lexed.newLine
        then discard (Parse.eat ";") r
        else .error (.noSemicolon ⟨r.lastEnd, r.lastEnd⟩) r := by
    change (if _ then discard (Parse.eat ";") else _ : Parse Unit) r = _
    split <;> rfl
  split at hrun
  · exact Or.inl hrun
  · next hmissed =>
      simp only [Bool.or_eq_true, not_or, beq_iff_eq, Bool.not_eq_true] at hmissed
      exact Or.inr ⟨hrun, hmissed.2, hmissed.1.2⟩

instance keeps_endStatement : F.Keeps pre Parse.endStatement := by
  have hends : F.Keeps pre (discard (Parse.eat ";")) := inferInstance
  constructor
  · intro r a r' hrun hclean
    rcases endStatement_eq r with heq | ⟨heq, -, -⟩
    · rw [heq] at hrun
      apply hends.startsClean hrun hclean
    · rw [heq] at hrun
      cases hrun
  · intro r a r' hrun hclean hholds
    rcases endStatement_eq r with heq | ⟨heq, -, -⟩
    · rw [heq] at hrun
      apply hends.holds hrun hclean hholds
    · rw [heq] at hrun
      cases hrun
  · intro r a r' hrun hclean hpre hholds
    trivial
  · intro r
    have hfinal := hends.grows r
    unfold Parse.final at *
    rcases endStatement_eq r with heq | ⟨heq, -, -⟩
    · rwa [heq]
    · rw [heq]
      apply Reader.Grows.refl
  · intro r hplain
    have hfinal := hends.plain hplain
    unfold Parse.final at *
    rcases endStatement_eq r with heq | ⟨heq, -, -⟩
    · rwa [heq]
    · rwa [heq]
  · intro r s r' hrun hplain hclean
    rcases endStatement_eq r with heq | ⟨heq, hline, hstop⟩
    · rw [heq] at hrun
      apply hends.misses hrun hplain hclean
    · rw [heq] at hrun
      cases hrun
      exact ⟨hclean, fun _ hholds => F.lack hholds.admits hholds.follows hline hstop⟩

set_option synthInstance.maxSize 1000 in
instance keeps_separated (close : String) (item : Parse α) [∀ pre, F.Keeps pre item] :
    F.Keeps pre (Parse.separated close item) := by
  unfold Parse.separated
  infer_instance

end Footing

end Stencil.Script
