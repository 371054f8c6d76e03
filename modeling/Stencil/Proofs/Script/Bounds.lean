import Stencil.Proofs.Script.Order

/-!
# Nodes within each other

A node begins where a rule of the grammar has begun to read and ends with the last lexeme that the
rule has taken, so it encloses the nodes that were read in between.  Here this is said for one rule
at a time: the nodes in its result lie between the place where the reader stood and the end of the
last lexeme, and whatever encloses them was read around them.  A literal is a single lexeme, and the
node for it covers that lexeme.

As for footings, that a parse has bounds is a class, and the instances for the ways to put parses
together find the proof along the rule.  What is known of the results that a rule has bound so far
depends on where the last lexeme ends, and is lost at no later place.
-/

namespace Stencil.Script

/-! ### Sound trees -/

/-- The value is what the lexeme says. -/
def LiteralValue.Agrees : LiteralValue → Lexeme → Prop
  | .string _, l => ∃ text, l = .string text
  | .number _, l => ∃ form, l = .number form
  | .boolean value, l => ∃ escaped, l = .word (if value then "true" else "false") escaped
  | .null, l => ∃ escaped, l = .word "null" escaped
  | .regex _ _, l => l = .regex

namespace Node

variable {F : Footing} {n : Node}

/-- A literal covers a lexeme that says its value, and a template begins with a lexeme of its
own. -/
structure IsLexed (F : Footing) (n : Node) : Prop where
  literal : ∀ value raw, n.kind = .literal value raw →
    ∃ l, F.admits l ∧ value.Agrees l.lexeme ∧ n.span = ⟨l.start, l.stop⟩
  template : ∀ raw, n.kind = .templateLiteral raw →
    ∃ l, F.admits l ∧ (∃ part valid, l.lexeme = .template part valid) ∧ n.span.start = l.start
      ∧ l.stop ≤ n.span.stop

/-- The kind is that of a literal or a template. -/
@[reducible] def isAtom : Kind Node → Bool
  | .literal _ _ => true
  | .templateLiteral _ => true
  | _ => false

/-- Nothing is asked of the lexemes of other nodes. -/
theorem isLexed_of_isAtom (h : isAtom n.kind = false) :
  n.IsLexed F
  := by
  constructor
  · intro value raw hkind
    rw [hkind] at h
    cases h
  · intro raw hkind
    rw [hkind] at h
    cases h

/-- Every node of the tree encloses its parts, and its literals and templates are made of
lexemes. -/
def Sound (F : Footing) (tree : Node) : Prop :=
  ∀ n ∈ tree.preorder, (∀ m ∈ n.parts, n.span.encloses m.span = true) ∧ n.IsLexed F

theorem sound_iff :
  n.Sound F ↔
    ((∀ m ∈ n.parts, n.span.encloses m.span = true) ∧ n.IsLexed F) ∧ ∀ m ∈ n.parts, m.Sound F
  := by
  rw [Sound, preorder_eq, List.forall_mem_cons]
  apply and_congr_right'
  constructor
  · intro h m hm k hk
    apply h k (List.mem_flatMap.mpr ⟨m, hm, hk⟩)
  · intro h k hk
    obtain ⟨m, hm, hk⟩ := List.mem_flatMap.mp hk
    apply h m hm k hk

/-- All nodes of a sound tree lie within it. -/
theorem Sound.encloses (h : n.Sound F) :
  ∀ m ∈ n.preorder, n.span.encloses m.span = true
  := by
  induction n using inductionOnParts with
  | step n ih =>
      obtain ⟨⟨hinside, -⟩, hparts⟩ := sound_iff.mp h
      intro m hm
      rw [preorder_eq, List.mem_cons, List.mem_flatMap] at hm
      rcases hm with rfl | ⟨k, hk, hm⟩
      · apply Span.encloses_refl
      · apply Span.encloses_trans (hinside k hk) (ih k hk (hparts k hk) m hm)

/-- The node lies between two offsets, and its tree is sound. -/
structure LiesIn (F : Footing) (low high : Nat) (n : Node) : Prop where
  start : low ≤ n.span.start
  stop : n.span.stop ≤ high
  sound : n.Sound F

end Node

/-! ### Results that lie somewhere -/

/-- A type of results that may hold nodes.  A result lies between two offsets if its nodes do. -/
class Lying (α : Type) where
  lies : Footing → (low high : Nat) → α → Prop
  mono : ∀ {F low low' high high' a}, low' ≤ low → high ≤ high' → lies F low high a →
    lies F low' high' a

/-- A type of results without nodes. -/
class Unlying (α : Type) extends Lying α where
  lies_all : ∀ F low high (a : α), lies F low high a

/-- Nothing is asked of the results of the type. -/
@[reducible] def Unlying.trivial {α : Type} : Unlying α where
  lies _ _ _ _ := True
  mono _ _ h := h
  lies_all _ _ _ _ := True.intro

section Types

variable {α β : Type}

instance : Lying Node where
  lies F low high n := n.LiesIn F low high
  mono hlow hhigh h := ⟨Nat.le_trans hlow h.start, Nat.le_trans h.stop hhigh, h.sound⟩

instance : Unlying Unit := .trivial

instance : Unlying Bool := .trivial

instance : Unlying Nat := .trivial

instance : Unlying Char := .trivial

instance : Unlying String := .trivial

instance : Unlying Lexeme := .trivial

instance : Unlying Parse.ArrowSign := .trivial

instance : Unlying Reader := .trivial

instance [Lying α] : Lying (Option α) where
  lies F low high o := ∀ a ∈ o, Lying.lies F low high a
  mono hlow hhigh h a ha := Lying.mono hlow hhigh (h a ha)

instance [Lying α] : Lying (List α) where
  lies F low high l := ∀ a ∈ l, Lying.lies F low high a
  mono hlow hhigh h a ha := Lying.mono hlow hhigh (h a ha)

instance [Lying α] [Lying β] : Lying (α × β) where
  lies F low high x := Lying.lies F low high x.1 ∧ Lying.lies F low high x.2
  mono hlow hhigh h := ⟨Lying.mono hlow hhigh h.1, Lying.mono hlow hhigh h.2⟩

instance [Lying α] [Lying β] : Lying (α ⊕ β) where
  lies F low high x := Sum.elim (Lying.lies F low high) (Lying.lies F low high) x
  mono {_ _ _ _ _ a} hlow hhigh h := by
    cases a with
    | inl a => exact Lying.mono (α := α) hlow hhigh h
    | inr b => exact Lying.mono (α := β) hlow hhigh h

instance [Unlying α] : Unlying (List α) where
  lies_all F low high _ := fun a _ => Unlying.lies_all F low high a

instance [Unlying α] [Unlying β] : Unlying (α ⊕ β) where
  lies_all F low high x := by cases x <;> apply Unlying.lies_all F low high

end Types

namespace Footing

/-! ### What is known -/

/-- What is known of the results of a rule so far, where the last lexeme ends at an offset. -/
structure Knowledge where
  holds : Nat → Prop
  mono : ∀ {m n}, m ≤ n → holds m → holds n

variable {F : Footing} {α β γ : Type} [Lying α] [Lying β] [Lying γ] {k : Knowledge}

namespace Knowledge

/-- Nothing is known. -/
def nothing : Knowledge := ⟨fun _ => True, fun _ h => h⟩

/-- It is also known that a result lies behind an offset. -/
def having (k : Knowledge) (F : Footing) (low : Nat) (a : α) : Knowledge where
  holds n := k.holds n ∧ Lying.lies F low n a
  mono hle h := ⟨k.mono hle h.1, Lying.mono (Nat.le_refl _) hle h.2⟩

/-- It is also known that one offset does not exceed another one. -/
def rising (k : Knowledge) (low start : Nat) : Knowledge where
  holds n := k.holds n ∧ low ≤ start
  mono hle h := ⟨k.mono hle h.1, h.2⟩

end Knowledge

/-- One offset is known not to exceed another one. -/
class Below (k : Knowledge) (low start : Nat) : Prop where
  le : ∀ {n}, k.holds n → low ≤ start

instance below_refl (low : Nat) : Below k low low := ⟨fun _ => Nat.le_refl _⟩

instance below_rising (low cur start : Nat) [h : Below k low cur] :
    Below (k.rising cur start) low start := ⟨fun hk => Nat.le_trans (h.le hk.1) hk.2⟩

instance (priority := low) below_of_rising (low start cur inner : Nat) [h : Below k low start] :
    Below (k.rising cur inner) low start := ⟨fun hk => h.le hk.1⟩

instance (priority := low) below_of_having (low start cur : Nat) (a : α) [h : Below k low start] :
    Below (k.having F cur a) low start := ⟨fun hk => h.le hk.1⟩

/-- A result is known to lie behind an offset. -/
class IsBehind (F : Footing) (k : Knowledge) (low : Nat) (a : α) : Prop where
  lies : ∀ {n}, k.holds n → Lying.lies F low n a

instance isBehind_known (low cur : Nat) (a : α) [h : Below k low cur] :
    IsBehind F (k.having F cur a) low a :=
  ⟨fun hk => Lying.mono (h.le hk.1) (Nat.le_refl _) hk.2⟩

instance (priority := low) isBehind_having (low cur : Nat) (a : α) (b : β)
    [h : IsBehind F k low b] : IsBehind F (k.having F cur a) low b := ⟨fun hk => h.lies hk.1⟩

instance (priority := low) isBehind_rising (low cur start : Nat) (b : β)
    [h : IsBehind F k low b] : IsBehind F (k.rising cur start) low b := ⟨fun hk => h.lies hk.1⟩

instance isBehind_unlying {α : Type} [Unlying α] (low : Nat) (a : α) : IsBehind F k low a :=
  ⟨fun _ => Unlying.lies_all _ _ _ a⟩

instance isBehind_pair (low : Nat) (a : α) (b : β) [ha : IsBehind F k low a]
    [hb : IsBehind F k low b] : IsBehind F k low (a, b) := ⟨fun hk => ⟨ha.lies hk, hb.lies hk⟩⟩

instance isBehind_inl (low : Nat) (a : α) [h : IsBehind F k low a] :
    IsBehind F k low (.inl a : α ⊕ β) := ⟨fun hk => h.lies hk⟩

instance isBehind_inr (low : Nat) (b : β) [h : IsBehind F k low b] :
    IsBehind F k low (.inr b : α ⊕ β) := ⟨fun hk => h.lies hk⟩

instance isBehind_none (low : Nat) : IsBehind F k low (none : Option α) :=
  ⟨fun _ _ h => by cases h⟩

instance isBehind_some (low : Nat) (a : α) [h : IsBehind F k low a] :
    IsBehind F k low (some a) := by
  constructor
  intro n hk b hb
  rw [← Option.some.inj hb]
  apply h.lies hk

instance isBehind_nil (low : Nat) : IsBehind F k low ([] : List α) := ⟨fun _ _ h => by cases h⟩

instance isBehind_cons (low : Nat) (a : α) (l : List α) [ha : IsBehind F k low a]
    [hl : IsBehind F k low l] : IsBehind F k low (a :: l) :=
  ⟨fun hk => List.forall_mem_cons.mpr ⟨ha.lies hk, hl.lies hk⟩⟩

instance isBehind_reverse (low : Nat) (l : List α) [h : IsBehind F k low l] :
    IsBehind F k low l.reverse := ⟨fun hk a ha => h.lies hk a (List.mem_reverse.mp ha)⟩

instance isBehind_append (low : Nat) (l m : List α) [hl : IsBehind F k low l]
    [hm : IsBehind F k low m] : IsBehind F k low (l ++ m) :=
  ⟨fun hk => List.forall_mem_append.mpr ⟨hl.lies hk, hm.lies hk⟩⟩

instance isBehind_toList (low : Nat) (o : Option α) [h : IsBehind F k low o] :
    IsBehind F k low o.toList := ⟨fun hk a ha => h.lies hk a (Option.mem_toList.mp ha)⟩

instance isBehind_mapSome (low : Nat) (l : List α) [h : IsBehind F k low l] :
    IsBehind F k low (l.map some) := by
  constructor
  intro n hk o ho a ha
  obtain ⟨b, hb, rfl⟩ := List.mem_map.mp ho
  rw [← Option.some.inj ha]
  apply h.lies hk b hb

instance isBehind_ite (low : Nat) (c : Prop) [Decidable c] (a b : α) [ha : IsBehind F k low a]
    [hb : IsBehind F k low b] : IsBehind F k low (if c then a else b) := by
  split
  · exact ha
  · exact hb

/-! What is known of a result is known of its parts. -/

instance isBehind_of_pair {low cur : Nat} {x : γ} (a : α) (b : β)
    [h : IsBehind F ((k.having F cur a).having F cur b) low x] :
    IsBehind F (k.having F cur (a, b)) low x := ⟨fun hk => h.lies ⟨⟨hk.1, hk.2.1⟩, hk.2.2⟩⟩

instance isBehind_of_some {low cur : Nat} {x : γ} (a : α)
    [h : IsBehind F (k.having F cur a) low x] : IsBehind F (k.having F cur (some a)) low x :=
  ⟨fun hk => h.lies ⟨hk.1, hk.2 a rfl⟩⟩

instance isBehind_of_cons {low cur : Nat} {x : γ} (a : α) (l : List α)
    [h : IsBehind F ((k.having F cur a).having F cur l) low x] :
    IsBehind F (k.having F cur (a :: l)) low x := by
  constructor
  intro n hk
  obtain ⟨ha, hl⟩ := List.forall_mem_cons.mp hk.2
  exact h.lies ⟨⟨hk.1, ha⟩, hl⟩

/-! ### Parses with bounds -/

/-- A parse that gets through without a fault of a lexeme starts without one and goes on from where
it starts.  If it starts behind the offset `cur`, then its result lies behind the offset `base`. -/
class Bounds (F : Footing) (base cur : Nat) (k : Knowledge) (p : Parse α) : Prop where
  goes : ∀ {r a r'}, p r = .ok a r' → r'.lexFaults = [] →
    r.lexFaults = [] ∧ (F.Holds r → F.Holds r' ∧ r.lastEnd ≤ r'.lastEnd
      ∧ r.lexed.start ≤ r'.lexed.start)
  lies : ∀ {r a r'}, p r = .ok a r' → r'.lexFaults = [] → F.Holds r → cur ≤ r.lexed.start →
    k.holds r.lastEnd → Lying.lies F base r'.lastEnd a

variable {base cur : Nat}

/-- The result is known to lie behind an earlier offset. -/
theorem Bounds.weaken (low : Nat) {p : Parse α} [h : F.Bounds low cur k p]
    [hlow : Below k base low] :
  F.Bounds base cur k p
  := ⟨h.goes, fun hrun hclean hholds hcur hk =>
    Lying.mono (hlow.le hk) (Nat.le_refl _) (h.lies hrun hclean hholds hcur hk)⟩

/-- A parse without parameters that keeps every footing goes on from where it starts. -/
theorem goes_of_keeps {α : Type} [Placed α] {p : Parse α} (hp : ∀ F : Footing, F.Keeps True p)
    {r r' : Reader} {a : α} (hrun : p r = .ok a r') (hclean : r'.lexFaults = []) :
  r.lexFaults = [] ∧ (F.Holds r → F.Holds r' ∧ r.lastEnd ≤ r'.lastEnd
    ∧ r.lexed.start ≤ r'.lexed.start)
  := by
  refine ⟨Keeps.clean hp hrun hclean, fun hholds => ?_⟩
  obtain ⟨-, hend, hstart, -⟩ := Keeps.goesOn hp hrun hclean hholds.inOrder
  exact ⟨(((hp F).keeps hrun hclean).2 trivial hholds).1, hend, hstart⟩

instance (priority := low) bounds_unlying {α : Type} [Unlying α] [Placed α] (p : Parse α)
    [hp : ∀ F : Footing, F.Keeps True p] : F.Bounds base cur k p where
  goes := goes_of_keeps hp
  lies _ _ _ _ _ := Unlying.lies_all _ _ _ _

/-- A parse after another one, if it has bounds once it is known where the result of the first one
lies. -/
theorem Bounds.of_bind_behind (low : Nat) {p : Parse α} {f : α → Parse β}
    [hp : F.Bounds low cur k p] (hf : ∀ a, F.Bounds base cur (k.having F low a) (f a)) :
  F.Bounds base cur k (p >>= f)
  := by
  constructor
  · intro r b r' hrun hclean
    obtain ⟨a, s, hfirst, hrest⟩ := bind_eq_ok hrun
    obtain ⟨hs, hrest⟩ := (hf a).goes hrest hclean
    obtain ⟨hr, hfirst⟩ := hp.goes hfirst hs
    refine ⟨hr, fun hholds => ?_⟩
    obtain ⟨hs, hend, hstart⟩ := hfirst hholds
    obtain ⟨hr', hend', hstart'⟩ := hrest hs
    exact ⟨hr', Nat.le_trans hend hend', Nat.le_trans hstart hstart'⟩
  · intro r b r' hrun hclean hholds hcur hk
    obtain ⟨a, s, hfirst, hrest⟩ := bind_eq_ok hrun
    obtain ⟨hs, -⟩ := (hf a).goes hrest hclean
    obtain ⟨-, hgoes⟩ := hp.goes hfirst hs
    obtain ⟨hnext, hend, hstart⟩ := hgoes hholds
    apply (hf a).lies hrest hclean hnext (Nat.le_trans hcur hstart)
    exact ⟨k.mono hend hk, hp.lies hfirst hs hholds hcur hk⟩

theorem Bounds.of_bind {p : Parse α} {f : α → Parse β} [F.Bounds cur cur k p]
    (hf : ∀ a, F.Bounds base cur (k.having F cur a) (f a)) :
  F.Bounds base cur k (p >>= f)
  := .of_bind_behind cur hf

instance bounds_bind (p : Parse α) (f : α → Parse β) [F.Bounds cur cur k p]
    [hf : ∀ a, F.Bounds base cur (k.having F cur a) (f a)] : F.Bounds base cur k (p >>= f) :=
  .of_bind hf

/-! A node that begins where the rule did lies behind the beginning of the rule only. -/

instance (priority := low) bounds_bind_behind (p : Parse α) (f : α → Parse β)
    [F.Bounds base cur k p] [hf : ∀ a, F.Bounds base cur (k.having F base a) (f a)] :
    F.Bounds base cur k (p >>= f) := .of_bind_behind base hf

instance (priority := 101) bounds_bind_pair_behind (p : Parse (α × β)) (f : α × β → Parse γ)
    [F.Bounds base cur k p] [hf : ∀ a b, F.Bounds base cur (k.having F base (a, b)) (f (a, b))] :
    F.Bounds base cur k (p >>= f) := .of_bind_behind base fun x => hf x.1 x.2

theorem Bounds.imp {k' : Knowledge} {p : Parse α} (h : F.Bounds base cur k p)
    (himp : ∀ {n}, k'.holds n → k.holds n) :
  F.Bounds base cur k' p
  := ⟨h.goes, fun hrun hclean hholds hcur hk => h.lies hrun hclean hholds hcur (himp hk)⟩

theorem Bounds.of_step {α : Type} [Unlying α] {p : Parse α} {f : α → Parse β}
    [F.Bounds cur cur k p] (hf : ∀ a, F.Bounds base cur k (f a)) :
  F.Bounds base cur k (p >>= f)
  := .of_bind fun a => (hf a).imp And.left

instance (priority := high) bounds_bind_unlying {α : Type} [Unlying α] (p : Parse α)
    (f : α → Parse β) [F.Bounds cur cur k p] [hf : ∀ a, F.Bounds base cur k (f a)] :
    F.Bounds base cur k (p >>= f) := .of_step hf

instance (priority := high) bounds_bind_pair (p : Parse (α × β)) (f : α × β → Parse γ)
    [F.Bounds cur cur k p] [hf : ∀ a b, F.Bounds base cur (k.having F cur (a, b)) (f (a, b))] :
    F.Bounds base cur k (p >>= f) := .of_bind fun x => hf x.1 x.2

instance (priority := high) bounds_bind_option (p : Parse (Option α)) (f : Option α → Parse β)
    [F.Bounds cur cur k p] [hnone : F.Bounds base cur k (f none)]
    [hsome : ∀ a, F.Bounds base cur (k.having F cur (some a)) (f (some a))] :
    F.Bounds base cur k (p >>= f) := by
  apply Bounds.of_bind
  intro o
  cases o with
  | none => exact hnone.imp And.left
  | some a => exact hsome a

/-- From the place on at which the reader stands, everything lies behind that place. -/
theorem Bounds.of_start {f : Nat → Parse β}
    (hf : ∀ start, F.Bounds base start (k.rising cur start) (f start)) :
  F.Bounds base cur k (Parse.start >>= f)
  := by
  constructor
  · intro r b r' hrun hclean
    obtain ⟨start, s, hfirst, hrest⟩ := bind_eq_ok hrun
    cases hfirst
    apply (hf _).goes hrest hclean
  · intro r b r' hrun hclean hholds hcur hk
    obtain ⟨start, s, hfirst, hrest⟩ := bind_eq_ok hrun
    cases hfirst
    apply (hf _).lies hrest hclean hholds (Nat.le_refl _) ⟨hk, hcur⟩

instance (priority := 10001) bounds_bind_start (f : Nat → Parse β)
    [hf : ∀ start, F.Bounds base start (k.rising cur start) (f start)] :
    F.Bounds base cur k (Parse.start >>= f) := .of_start hf

/-! ### Moves of a reader -/

/-- A parse that reads something off the reader. -/
theorem Bounds.of_read {p : Parse α} {f : Reader → α} (hp : ∀ r, p r = .ok (f r) r)
    (h : ∀ r, F.Holds r → cur ≤ r.lexed.start → k.holds r.lastEnd →
      Lying.lies F base r.lastEnd (f r)) :
  F.Bounds base cur k p
  := by
  constructor
  · intro r a r' hrun hclean
    rw [hp] at hrun
    cases hrun
    exact ⟨hclean, fun hholds => ⟨hholds, Nat.le_refl _, Nat.le_refl _⟩⟩
  · intro r a r' hrun _
    rw [hp] at hrun
    cases hrun
    apply h r

instance bounds_pure (a : α) [h : IsBehind F k base a] : F.Bounds base cur k (pure a : Parse α) :=
  .of_read (fun _ => rfl) fun _ _ _ hk => h.lies hk

/-- A parse that never gets through. -/
theorem Bounds.of_stops {p : Parse α} (h : ∀ r, ∃ f r', p r = .error f r') :
  F.Bounds base cur k p
  := by
  constructor
  · intro r a r' hrun
    obtain ⟨f, s, hstops⟩ := h r
    rw [hstops] at hrun
    cases hrun
  · intro r a r' hrun
    obtain ⟨f, s, hstops⟩ := h r
    rw [hstops] at hrun
    cases hrun

instance bounds_throw (f : Fault) : F.Bounds base cur k (throw f : Parse α) :=
  .of_stops fun r => ⟨f, r, rfl⟩

instance bounds_unexpected : F.Bounds base cur k (Parse.unexpected : Parse α) := by
  apply Bounds.of_stops
  intro r
  obtain ⟨f, r', hstops, -⟩ := unexpected_eq (α := α) r
  exact ⟨f, r', hstops⟩

/-! ### Parses made from others -/

instance bounds_ite (c : Prop) [Decidable c] (p q : Parse α) [hp : F.Bounds base cur k p]
    [hq : F.Bounds base cur k q] : F.Bounds base cur k (if c then p else q) := by
  split
  · exact hp
  · exact hq

instance bounds_map (f : α → β) (p : Parse α) [F.Bounds cur cur k p]
    [∀ a, IsBehind F (k.having F cur a) base (f a)] : F.Bounds base cur k (f <$> p) :=
  bounds_bind p fun a => pure (f a)

instance bounds_discard (p : Parse α) [F.Bounds cur cur k p] : F.Bounds base cur k (discard p) :=
  bounds_bind p fun _ => pure ()

/-- The state of a repetition lies where its result does. -/
theorem bounds_loopFor {step : α → Parse (α ⊕ β)}
    (hstep : ∀ a, F.Bounds base cur (k.having F base a) (step a)) (budget : Text) (a : α) :
  F.Bounds base cur (k.having F base a) (Parse.loopFor budget step a)
  := by
  induction budget generalizing a with
  | nil => exact bounds_unexpected
  | cons _ budget ih =>
      have hfirst := hstep a
      constructor
      · intro r b r' hrun hclean
        rw [Parse.loopFor] at hrun
        obtain ⟨x, s, hrun, hrest⟩ := bind_eq_ok hrun
        cases x with
        | inl a' =>
            obtain ⟨hs, hrest⟩ := (ih a').goes hrest hclean
            obtain ⟨hr, hgoes⟩ := hfirst.goes hrun hs
            refine ⟨hr, fun hholds => ?_⟩
            obtain ⟨hs, hend, hstart⟩ := hgoes hholds
            obtain ⟨hr', hend', hstart'⟩ := hrest hs
            exact ⟨hr', Nat.le_trans hend hend', Nat.le_trans hstart hstart'⟩
        | inr b' =>
            cases hrest
            apply hfirst.goes hrun hclean
      · intro r b r' hrun hclean hholds hcur hk
        rw [Parse.loopFor] at hrun
        obtain ⟨x, s, hrun, hrest⟩ := bind_eq_ok hrun
        cases x with
        | inl a' =>
            obtain ⟨hs, -⟩ := (ih a').goes hrest hclean
            obtain ⟨-, hgoes⟩ := hfirst.goes hrun hs
            obtain ⟨hnext, hend, hstart⟩ := hgoes hholds
            apply (ih a').lies hrest hclean hnext (Nat.le_trans hcur hstart)
            exact ⟨k.mono hend hk.1, hfirst.lies hrun hs hholds hcur hk⟩
        | inr b' =>
            cases hrest
            apply hfirst.lies hrun hclean hholds hcur hk

theorem Bounds.of_loop {step : α → Parse (α ⊕ β)} {a : α} [ha : IsBehind F k base a]
    (hstep : ∀ a, F.Bounds base cur (k.having F base a) (step a)) :
  F.Bounds base cur k (Parse.loop step a)
  := by
  have hloop (r : Reader) : F.Bounds base cur k
      (Parse.loopFor (' ' :: ' ' :: ' ' :: r.lexed.rest) step a) :=
    (bounds_loopFor hstep _ a).imp fun hk => ⟨hk, ha.lies hk⟩
  constructor
  · intro r b r' hrun
    apply (hloop r).goes hrun
  · intro r b r' hrun
    apply (hloop r).lies hrun

instance bounds_loop (step : α → Parse (α ⊕ β)) (a : α) [IsBehind F k base a]
    [hstep : ∀ a, F.Bounds base cur (k.having F base a) (step a)] :
    F.Bounds base cur k (Parse.loop step a) := .of_loop hstep

instance bounds_many (done : Parse Bool) (item : Parse α) [Below k base cur]
    [∀ F : Footing, F.Keeps True done] [∀ k, F.Bounds cur cur k item] :
    F.Bounds base cur k (Parse.many done item) := by
  unfold Parse.many
  infer_instance

instance bounds_attempt (p : Parse α) [hp : F.Bounds base cur k p] :
    F.Bounds base cur k (Parse.attempt p) := by
  constructor
  · intro r a r' hrun hclean
    unfold Parse.attempt at hrun
    split at hrun
    · next b s hb =>
        cases hrun
        apply hp.goes hb hclean
    · cases hrun
      refine ⟨hclean, fun hholds => ⟨?_, Nat.le_refl _, Nat.le_refl _⟩⟩
      exact ⟨hholds.admits, hholds.lastEnd, hholds.comments, hholds.follows, hholds.order,
        hholds.descend⟩
  · intro r a r' hrun hclean hholds hcur hk
    unfold Parse.attempt at hrun
    split at hrun
    · next b s hb =>
        cases hrun
        rintro _ ⟨⟩
        apply hp.lies hb hclean hholds hcur hk
    · cases hrun
      nofun

/-! ### Nodes -/

/-- The condition does not hold. -/
class Fails (condition : Bool) : Prop where
  eq : condition = false

instance fails_false : Fails false := ⟨rfl⟩

/-- A node lies where its ends do, if its parts lie in between. -/
theorem liesIn_node {id start low high : Nat} {kind : Kind Node} (hlow : low ≤ start)
    (hparts : Lying.lies F start high kind.fields) (hkind : Node.isAtom kind = false) :
  (Node.mk id ⟨start, high⟩ kind).LiesIn F low high
  := by
  have hlies : ∀ m ∈ (Node.mk id ⟨start, high⟩ kind).parts, m.LiesIn F start high := by
    intro m hm
    rw [Node.parts_eq] at hm
    obtain ⟨field, hfield, hm⟩ := List.mem_flatMap.mp hm
    obtain ⟨o, ho, rfl⟩ := List.mem_filterMap.mp hm
    exact (hparts field hfield).2 (some m) ho m rfl
  refine ⟨hlow, Nat.le_refl _, Node.sound_iff.mpr ⟨⟨?_, ?_⟩, fun m hm => (hlies m hm).sound⟩⟩
  · intro m hm
    exact Span.encloses_iff.mpr ⟨(hlies m hm).start, (hlies m hm).stop⟩
  · exact Node.isLexed_of_isAtom hkind

instance bounds_node (start : Nat) (kind : Kind Node) [hlow : Below k base start]
    [hparts : IsBehind F k start kind.fields] [hkind : Fails (Node.isAtom kind)] :
    F.Bounds base cur k (Parse.node start kind) :=
  .of_read (fun _ => rfl) fun _ _ _ hk =>
    liesIn_node (hlow.le hk) (hparts.lies hk) hkind.eq

/-- The node of the parse is a leaf that begins at the given offset, and no literal or template. -/
abbrev IsLeafFrom (start : Nat) (p : Parse Node) : Prop :=
  Parse.Gives
    (fun n r => n.span = ⟨start, r.lastEnd⟩ ∧ n.parts = [] ∧ Node.isAtom n.kind = false) p

instance isLeafFrom_other (start : Nat) (typeName : String) :
    IsLeafFrom start (Parse.node start (.other typeName)) := by
  constructor
  rintro r n r' ⟨⟩
  exact ⟨rfl, Node.parts_eq _, rfl⟩

/-- A parse whose node is a leaf from the place on at which the reader stood. -/
theorem Bounds.of_leaf {f : Nat → Parse Node}
    (hp : ∀ F : Footing, F.Keeps True (Parse.start >>= f))
    (hf : ∀ start, IsLeafFrom start (f start)) [hlow : Below k base cur] :
  F.Bounds base cur k (Parse.start >>= f)
  := by
  refine ⟨goes_of_keeps hp, fun {r n r'} hrun _ _ hcur hk => ?_⟩
  obtain ⟨start, s, hstart, hrest⟩ := bind_eq_ok hrun
  cases hstart
  obtain ⟨hspan, hparts, hkind⟩ := (hf _).gives hrest
  have hsound : n.Sound F := by
    rw [Node.sound_iff, hparts]
    exact ⟨⟨nofun, Node.isLexed_of_isAtom hkind⟩, nofun⟩
  refine ⟨?_, ?_, hsound⟩
  · rw [hspan]
    exact Nat.le_trans (hlow.le hk) hcur
  · exact Nat.le_of_eq (congrArg Span.stop hspan)

-- A long rule leads to a search with many steps.
set_option synthInstance.maxSize 1000 in
instance bounds_separated (close : String) (item : Parse α) [Below k base cur]
    [∀ k, F.Bounds cur cur k item] : F.Bounds base cur k (Parse.separated close item) := by
  unfold Parse.separated
  infer_instance

end Footing

end Stencil.Script
