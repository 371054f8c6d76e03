import Stencil.Proofs.Script.Bounds
import Stencil.Proofs.Script.Statements

/-!
# The nodes of expressions

The rules for names, patterns, functions, classes and expressions have bounds if the rules of the
level below them do.
-/

namespace Stencil.Script

/-- The rules of a level have bounds, wherever they start, and an expression that begins with a mark
that counts up or down is neither a literal nor a template. -/
class Level.Bounded (F : Footing) (g : Level) : Prop where
  statement : ∀ k cur single scope, F.Bounds cur cur k (g.statement single scope)
  assignment : ∀ k cur scope, F.Bounds cur cur k (g.assignment scope)
  binary : ∀ k cur rank scope, F.Bounds cur cur k (g.binary rank scope)
  unary : ∀ k cur scope, F.Bounds cur cur k (g.unary scope)
  leftHand : ∀ k cur scope, F.Bounds cur cur k (g.leftHand scope)
  primary : ∀ k cur scope, F.Bounds cur cur k (g.primary scope)
  pattern : ∀ k cur scope, F.Bounds cur cur k (g.pattern scope)
  counted : ∀ scope {r n r'}, g.unary scope r = .ok n r' →
    r.lexed.lexeme.isMark "++" || r.lexed.lexeme.isMark "--" → Node.isAtom n.kind = false

/-! ### Nodes in another form -/

namespace Node.LiesIn

variable {F : Footing} {low high : Nat} {n : Node}

/-- A node that becomes a leaf. -/
theorem leaf {id : Nat} (h : n.LiesIn F low high) (typeName : String) :
  (Node.mk id n.span (.other typeName)).LiesIn F low high
  := by
  refine ⟨h.start, h.stop, ?_⟩
  rw [sound_iff, parts_eq]
  exact ⟨⟨nofun, isLexed_of_isAtom rfl⟩, nofun⟩

/-- A node that is taken to begin at an earlier place. -/
theorem startingAt {id start : Nat} (h : n.LiesIn F low high) (hlow : low ≤ start)
    (hstart : start ≤ n.span.start) (hkind : Node.isAtom n.kind = false) :
  (Node.mk id ⟨start, n.span.stop⟩ n.kind).LiesIn F low high
  := by
  obtain ⟨⟨hinside, -⟩, hparts⟩ := sound_iff.mp h.sound
  refine ⟨hlow, h.stop, ?_⟩
  rw [sound_iff, parts_eq] at *
  refine ⟨⟨fun m hm => ?_, isLexed_of_isAtom hkind⟩, hparts⟩
  have := Span.encloses_iff.mp (hinside m hm)
  exact Span.encloses_iff.mpr ⟨Nat.le_trans hstart this.1, this.2⟩

theorem asTarget (h : n.LiesIn F low high) :
  n.asTarget.LiesIn F low high
  := by
  unfold Node.asTarget
  split
  · exact h.leaf _
  · exact h.leaf _
  · split
    · exact h.leaf _
    · exact h
  · exact h

theorem asHead (h : n.LiesIn F low high) :
  (Parse.Node.asHead n).LiesIn F low high
  := by
  unfold Parse.Node.asHead
  split
  · exact h
  · exact h
  · exact h.leaf _

theorem closeChain (h : n.LiesIn F low high) :
  (Parse.closeChain n).LiesIn F low high
  := by
  unfold Parse.closeChain
  split
  · split
    · exact h.leaf _
    · exact h
  · exact h

theorem asDirective {d : Node} (h : n.LiesIn F low high) (hd : n.asDirective? = some d) :
  d.LiesIn F low high
  := by
  unfold Node.asDirective? at hd
  split at hd
  · split at hd
    · split at hd
      · cases hd
        obtain ⟨hstart, hstop, hsound⟩ := h
        refine ⟨hstart, hstop, ?_⟩
        rw [sound_iff, parts_eq] at hsound ⊢
        exact ⟨⟨hsound.1.1, Node.isLexed_of_isAtom rfl⟩, hsound.2⟩
      · cases hd
    · cases hd
  · cases hd

end Node.LiesIn

theorem liesIn_markDirectives {F : Footing} {low high : Nat} {nodes : List Node}
    (h : ∀ n ∈ nodes, n.LiesIn F low high) :
  ∀ n ∈ markDirectives nodes, n.LiesIn F low high
  := by
  induction nodes with
  | nil => exact h
  | cons n rest ih =>
      obtain ⟨hn, hrest⟩ := List.forall_mem_cons.mp h
      unfold markDirectives
      split
      · next d hd => exact List.forall_mem_cons.mpr ⟨hn.asDirective hd, ih hrest⟩
      · exact h

namespace Footing

variable {F : Footing} {k : Knowledge} {base cur : Nat}

instance isBehind_asTarget (low : Nat) (n : Node) [h : IsBehind F k low n] :
    IsBehind F k low n.asTarget := ⟨fun hk => (h.lies hk).asTarget⟩

instance isBehind_asHead (low : Nat) (n : Node) [h : IsBehind F k low n] :
    IsBehind F k low (Parse.Node.asHead n) := ⟨fun hk => (h.lies hk).asHead⟩

instance isBehind_closeChain (low : Nat) (n : Node) [h : IsBehind F k low n] :
    IsBehind F k low (Parse.closeChain n) := ⟨fun hk => (h.lies hk).closeChain⟩

instance isBehind_markDirectives (low : Nat) (nodes : List Node) [h : IsBehind F k low nodes] :
    IsBehind F k low (markDirectives nodes) := ⟨fun hk => liesIn_markDirectives (h.lies hk)⟩

/-! ### Literals -/

theorem current_eq_ok {r s : Reader} {l : Lexeme} (h : Parse.current r = .ok l s) :
  l = r.lexed.lexeme ∧ s = r
  := by
  cases h
  exact ⟨rfl, rfl⟩

theorem advance_apply (r : Reader) :
  Parse.advance r = (match r.lexed.lexeme with
    | .word w escaped => do
        Parse.noteIf (escaped && (w ∈ reservedWords || w ∈ contextualWords))
        Parse.advanceName
    | _ => Parse.advanceName : Parse Unit) r
  := rfl

/-- To advance is to go on to the next lexeme, perhaps with a fault. -/
theorem advance_eq (r : Reader) :
  ∃ faults, Parse.advance r = .ok () { r.next with faults := faults }
  := by
  rw [advance_apply]
  generalize r.lexed.lexeme = l
  cases l with
  | word w escaped =>
      dsimp only
      unfold Parse.noteIf
      split <;> exact ⟨_, rfl⟩
  | _ => exact ⟨_, rfl⟩

/-- The node of a literal covers the lexeme at which the reader stood. -/
theorem lies_lexeme {r s : Reader} {value : LiteralValue} {raw : Text} {id : Nat}
    (h : Parse.advance r = .ok () s) (hholds : F.Holds r) (hvalue : value.Agrees r.lexed.lexeme)
    [hlow : Below k base cur] (hcur : cur ≤ r.lexed.start) (hk : k.holds r.lastEnd) :
  (Node.mk id ⟨r.lexed.start, s.lastEnd⟩ (.literal value raw)).LiesIn F base s.lastEnd
  := by
  obtain ⟨faults, hs⟩ := advance_eq r
  rw [hs] at h
  cases h
  refine ⟨Nat.le_trans (hlow.le hk) hcur, Nat.le_refl _, ?_⟩
  refine Node.sound_iff.mpr ⟨⟨nofun, ?_, nofun⟩, nofun⟩
  rintro _ _ ⟨⟩
  exact ⟨r.lexed, hholds.admits, hvalue, rfl⟩

theorem lies_literal {value : Text → LiteralValue} {r r' : Reader} {n : Node}
    (h : Parse.literal value r = .ok n r') (hholds : F.Holds r)
    (hvalue : ∀ raw, (value raw).Agrees r.lexed.lexeme) [Below k base cur]
    (hcur : cur ≤ r.lexed.start) (hk : k.holds r.lastEnd) :
  Lying.lies F base r'.lastEnd n
  := by
  obtain ⟨start, s, hs, h⟩ := bind_eq_ok h
  cases hs
  obtain ⟨source, s, hs, h⟩ := bind_eq_ok h
  cases hs
  obtain ⟨⟨⟩, s, hadvance, h⟩ := bind_eq_ok h
  cases h
  exact lies_lexeme hadvance hholds (hvalue _) hcur hk

variable (g : Level) [g.Lawful] [g.Bounded F] (scope : Scope) [Below k base cur]

-- A long rule leads to a search with many steps.
set_option synthInstance.maxSize 10000

/-! ### Rules of the level below -/

instance bounds_levelStatement (single : Bool) : F.Bounds base cur k (g.statement single scope) :=
  have := Level.Bounded.statement (F := F) (g := g) k cur single scope
  .weaken cur

instance bounds_levelAssignment : F.Bounds base cur k (g.assignment scope) :=
  have := Level.Bounded.assignment (F := F) (g := g) k cur scope
  .weaken cur

instance bounds_levelBinary (rank : Nat) : F.Bounds base cur k (g.binary rank scope) :=
  have := Level.Bounded.binary (F := F) (g := g) k cur rank scope
  .weaken cur

instance bounds_levelUnary : F.Bounds base cur k (g.unary scope) :=
  have := Level.Bounded.unary (F := F) (g := g) k cur scope
  .weaken cur

instance bounds_levelLeftHand : F.Bounds base cur k (g.leftHand scope) :=
  have := Level.Bounded.leftHand (F := F) (g := g) k cur scope
  .weaken cur

instance bounds_levelPrimary : F.Bounds base cur k (g.primary scope) :=
  have := Level.Bounded.primary (F := F) (g := g) k cur scope
  .weaken cur

instance bounds_levelPattern : F.Bounds base cur k (g.pattern scope) :=
  have := Level.Bounded.pattern (F := F) (g := g) k cur scope
  .weaken cur

/-! ### Names -/

instance bounds_nameHere : F.Bounds base cur k Parse.nameHere := by
  unfold Parse.nameHere
  infer_instance

instance bounds_reference : F.Bounds base cur k (Parse.reference scope) := by
  unfold Parse.reference
  infer_instance

instance bounds_boundName : F.Bounds base cur k (Parse.boundName scope) := by
  unfold Parse.boundName
  infer_instance

instance bounds_anyName : F.Bounds base cur k Parse.anyName := by
  unfold Parse.anyName
  infer_instance

instance bounds_spread : F.Bounds base cur k (Parse.spread g scope) := by
  unfold Parse.spread
  infer_instance

/-! ### Binding patterns -/

instance bounds_withDefault (start : Nat) (left : Node) [Below k base start]
    [Below k start cur] [IsBehind F k start left] :
    F.Bounds base cur k (Parse.withDefault g scope start left) := by
  apply @Bounds.weaken _ _ _ _ _ _ start _ ?_ inferInstance
  unfold Parse.withDefault
  infer_instance

instance bounds_patternWithDefault : F.Bounds base cur k (Parse.patternWithDefault g scope) := by
  unfold Parse.patternWithDefault
  infer_instance

instance bounds_restPattern : F.Bounds base cur k (Parse.restPattern g scope) := by
  unfold Parse.restPattern
  infer_instance

instance bounds_separatedWithRest {α : Type} [Lying α] (close : String) (item : Parse α)
    [∀ k, F.Bounds cur cur k item] :
    F.Bounds base cur k (Parse.separatedWithRest g scope close item) := by
  unfold Parse.separatedWithRest
  apply Bounds.of_loop
  rintro ⟨items, rest, isFirst⟩
  infer_instance

instance bounds_propertyName : F.Bounds base cur k (Parse.propertyName g scope) := by
  constructor
  · intro r a r'
    exact goes_of_keeps fun _ => inferInstance
  · intro r a r' hrun hclean hholds hcur hk
    obtain ⟨start, s, hs, h⟩ := bind_eq_ok hrun
    cases hs
    obtain ⟨source, s, hs, h⟩ := bind_eq_ok h
    cases hs
    obtain ⟨l, s, hs, h⟩ := bind_eq_ok h
    obtain ⟨hl, rfl⟩ := current_eq_ok hs
    split at h
    · obtain ⟨⟨⟩, s, hadvance, h⟩ := bind_eq_ok h
      cases h
      exact ⟨lies_lexeme hadvance hholds ⟨_, hl.symm⟩ hcur hk, trivial⟩
    · obtain ⟨⟨⟩, s, hadvance, h⟩ := bind_eq_ok h
      cases h
      exact ⟨lies_lexeme hadvance hholds ⟨_, hl.symm⟩ hcur hk, trivial⟩
    · exact (inferInstance : F.Bounds base cur k _).lies h hclean hholds hcur hk
    · exact (inferInstance : F.Bounds base cur k _).lies h hclean hholds hcur hk

instance bounds_objectPattern : F.Bounds base cur k (Parse.objectPattern g scope) := by
  have hkeeps : ∀ F : Footing, F.Keeps True (Parse.objectPattern g scope) := fun _ => inferInstance
  unfold Parse.objectPattern at *
  exact .of_leaf hkeeps fun _ => inferInstance

instance bounds_arrayPattern : F.Bounds base cur k (Parse.arrayPattern g scope) := by
  have hkeeps : ∀ F : Footing, F.Keeps True (Parse.arrayPattern g scope) := fun _ => inferInstance
  unfold Parse.arrayPattern at *
  exact .of_leaf hkeeps fun _ => inferInstance

instance bounds_pattern : F.Bounds base cur k (Parse.pattern g scope) := by
  unfold Parse.pattern
  infer_instance

instance bounds_parameters : F.Bounds base cur k (Parse.parameters g scope) := by
  unfold Parse.parameters
  infer_instance

/-! ### Functions -/

instance bounds_functionBody : F.Bounds base cur k (Parse.functionBody g scope) := by
  unfold Parse.functionBody
  infer_instance

instance bounds_parametersAndBody (isGenerator isAsync : Bool) :
    F.Bounds base cur k (Parse.parametersAndBody g isGenerator isAsync) := by
  unfold Parse.parametersAndBody
  infer_instance

instance bounds_method (isGenerator isAsync : Bool) :
    F.Bounds base cur k (Parse.method g isGenerator isAsync) := by
  unfold Parse.method
  infer_instance

instance bounds_functionParts (isAsync needsName : Bool) (nameScope : Bool → Scope) :
    F.Bounds base cur k (Parse.functionParts g isAsync needsName nameScope) := by
  unfold Parse.functionParts
  infer_instance

instance bounds_functionExpression : F.Bounds base cur k (Parse.functionExpression g) := by
  unfold Parse.functionExpression
  refine .of_start fun start => .of_step fun isAsync => .of_bind ?_
  rintro ⟨isGenerator, name, params, body⟩
  infer_instance

instance bounds_functionDeclaration (single : Bool) :
    F.Bounds base cur k (Parse.functionDeclaration g single scope) := by
  unfold Parse.functionDeclaration
  refine .of_start fun start => .of_step fun isAsync => .of_bind ?_
  rintro ⟨isGenerator, name, params, body⟩
  infer_instance

instance bounds_arrowBody (start : Nat) (isAsync : Bool) (params : List Node) [Below k base start]
    [Below k start cur] [IsBehind F k start params] :
    F.Bounds base cur k (Parse.arrowBody g scope start isAsync params) := by
  apply @Bounds.weaken _ _ _ _ _ _ start _ ?_ inferInstance
  unfold Parse.arrowBody
  infer_instance

instance bounds_arrowHead : F.Bounds base cur k (Parse.arrowHead g scope) := by
  unfold Parse.arrowHead
  infer_instance

instance bounds_parenthesizedArrow : F.Bounds base cur k (Parse.parenthesizedArrow? g scope) := by
  unfold Parse.parenthesizedArrow?
  apply Bounds.of_step
  intro l
  split
  · infer_instance
  · refine .of_start fun start => .of_step fun sign => ?_
    cases sign with
    | noArrow => infer_instance
    | arrow => infer_instance
    | unclear =>
        apply Bounds.of_step
        intro r
        split
        · infer_instance
        · refine .of_bind fun head => ?_
          rcases head with _ | ⟨isAsync, params⟩ <;> infer_instance

instance bounds_asyncArrow : F.Bounds base cur k (Parse.asyncArrow? g scope) := by
  unfold Parse.asyncArrow?
  infer_instance

/-! ### Assignment targets -/

omit [Below k base cur] in
theorem target_eq_ok {n m : Node} {r r' : Reader} (h : Parse.target n r = .ok m r') :
  m = n.asTarget ∧ r'.lexed = r.lexed ∧ r'.lastEnd = r.lastEnd ∧ r'.lexFaults = r.lexFaults
    ∧ r'.comments = r.comments
  := by
  obtain ⟨s, r₀, hs, h⟩ := bind_eq_ok h
  cases hs
  obtain ⟨⟨⟩, r₁, hset, h⟩ := bind_eq_ok h
  cases hset
  obtain ⟨⟨⟩, r₂, hnote, h⟩ := bind_eq_ok h
  generalize (coverTarget r.trailing n).refusal = refusal at h
  cases refusal with
  | some f => cases h
  | none =>
      cases h
      unfold Parse.noteIf at hnote
      split at hnote <;> cases hnote <;> exact ⟨rfl, rfl, rfl, rfl, rfl⟩

instance bounds_target (n : Node) [h : IsBehind F k base n] :
    F.Bounds base cur k (Parse.target n) := by
  constructor
  · intro r m r' hrun hclean
    obtain ⟨-, hlexed, hend, hfaults, hcomments⟩ := target_eq_ok hrun
    rw [hfaults] at hclean
    refine ⟨hclean, fun hholds => ⟨?_, Nat.le_of_eq hend.symm, Nat.le_of_eq (by rw [hlexed])⟩⟩
    constructor
    · rw [hlexed]
      exact hholds.admits
    · rw [hend]
      exact hholds.lastEnd
    · rw [hcomments]
      exact hholds.comments
    · rw [hend, hlexed]
      exact hholds.follows
    · rw [hend, hlexed]
      exact hholds.order
    · rw [hlexed, hcomments]
      exact hholds.descend
  · intro r m r' hrun _ _ _ hk
    obtain ⟨rfl, -, hend, -⟩ := target_eq_ok hrun
    rw [hend]
    exact (h.lies hk).asTarget

instance bounds_simpleTarget (n : Node) [IsBehind F k base n] :
    F.Bounds base cur k (Parse.simpleTarget n) := by
  unfold Parse.simpleTarget
  split <;> infer_instance

/-! ### Classes -/

instance bounds_accessorFunction (kind : PropertyKind) :
    F.Bounds base cur k (Parse.accessorFunction g kind) := by
  unfold Parse.accessorFunction
  infer_instance

instance bounds_classExpression : F.Bounds base cur k (Parse.classExpression g scope) := by
  unfold Parse.classExpression
  infer_instance

instance bounds_classDeclaration (single : Bool) :
    F.Bounds base cur k (Parse.classDeclaration g single scope) := by
  unfold Parse.classDeclaration
  infer_instance

/-! ### Expressions -/

instance bounds_expression : F.Bounds base cur k (Parse.expression g scope) := by
  unfold Parse.expression
  infer_instance

theorem lies_regex {r r' : Reader} {n : Node} (h : Parse.regex r = .ok n r')
    (hclean : r'.lexFaults = []) (hholds : F.Holds r)
    (hslash : (r.lexed.lexeme.isMark "/" || r.lexed.lexeme.isMark "/=") = true)
    (hcur : cur ≤ r.lexed.start) (hk : k.holds r.lastEnd) :
  Lying.lies F base r'.lastEnd n
  := by
  obtain ⟨⟨⟩, s, hfirst, hrest⟩ := bind_eq_ok h
  have hs : s.lexFaults = [] := Keeps.clean (fun _ => inferInstance) hrest hclean
  have hnext := ((@keeps_asRegex F True).keeps hfirst hs).2 trivial hholds
  cases hfirst
  have hread : r.lexed.asRegex.lexeme = .regex ∧ r.lexed.asRegex.start = r.lexed.start := by
    rw [Lexed.asRegex, if_pos hslash]
    exact ⟨rfl, rfl⟩
  rw [← hread.2] at hcur
  exact lies_literal hrest hnext.1 (fun _ => hread.1) hcur hk

omit [g.Bounded F] [Below k base cur] in
/-- A piece of a template is a lexeme at which the reader stands and which it takes. -/
theorem templatePiece_eq_ok {tagged : Bool} {r r' : Reader} {x : Unit ⊕ Unit}
    (h : Parse.templatePiece g scope tagged r = .ok x r') (hclean : r'.lexFaults = [])
    (hholds : F.Holds r) :
  (∃ part valid, r.lexed.lexeme = .template part valid) ∧ r.lexed.stop ≤ r'.lastEnd
  := by
  obtain ⟨l, s, hs, hpiece⟩ := bind_eq_ok h
  obtain ⟨hl, rfl⟩ := current_eq_ok hs
  split at hpiece
  · next part valid =>
      obtain ⟨⟨⟩, noted, hnote, h⟩ := bind_eq_ok hpiece
      obtain ⟨⟨⟩, taken, hadvance, h⟩ := bind_eq_ok h
      obtain ⟨htaken, hrest⟩ := goes_of_keeps (fun _ => inferInstance) h hclean
      obtain ⟨hnoted, hadvances⟩ := goes_of_keeps (fun _ => inferInstance) hadvance htaken
      obtain ⟨-, hnotes⟩ := goes_of_keeps (fun _ => inferInstance) hnote hnoted
      obtain ⟨-, hle, -⟩ := hrest (hadvances (hnotes hholds).1).1
      have hlexed : noted.lexed = s.lexed := by
        unfold Parse.noteIf at hnote
        split at hnote <;> cases hnote <;> rfl
      have hend : taken.lastEnd = s.lexed.stop := by
        obtain ⟨faults, heq⟩ := advance_eq noted
        rw [heq] at hadvance
        cases hadvance
        rw [← hlexed]
        rfl
      rw [hend] at hle
      exact ⟨⟨part, valid, hl.symm⟩, hle⟩
  · cases hpiece

omit [g.Bounded F] [Below k base cur] in
/-- A template begins with the lexeme at which the reader stood, and the pieces behind it do not
lead back. -/
theorem template_eq_ok {tagged : Bool} {r r' : Reader} {n : Node}
    (h : Parse.template g scope tagged r = .ok n r') (hclean : r'.lexFaults = [])
    (hholds : F.Holds r) :
  (∃ raw, n = .mk 0 ⟨r.lexed.start, r'.lastEnd⟩ (.templateLiteral raw))
    ∧ (∃ part valid, r.lexed.lexeme = .template part valid) ∧ r.lexed.stop ≤ r'.lastEnd
  := by
  obtain ⟨start, s, hs, h⟩ := bind_eq_ok h
  cases hs
  obtain ⟨source, s, hs, h⟩ := bind_eq_ok h
  cases hs
  obtain ⟨⟨⟩, s, hloop, h⟩ := bind_eq_ok h
  cases h
  obtain ⟨_, _, hs, hloop⟩ := bind_eq_ok hloop
  cases hs
  rw [Parse.loopFor] at hloop
  obtain ⟨x, s, hfirst, hmore⟩ := bind_eq_ok hloop
  refine ⟨⟨_, rfl⟩, ?_⟩
  cases x with
  | inl =>
      have hkeeps (F : Footing) : F.Keeps True (Parse.loopFor (' ' :: ' ' :: r.lexed.rest)
          (fun _ => Parse.templatePiece g scope tagged) ()) :=
        (keeps_loopFor (fun _ => inferInstance) _ _).imp fun _ => ⟨trivial, trivial⟩
      obtain ⟨hs, hgoes⟩ := goes_of_keeps hkeeps hmore hclean
      obtain ⟨hlexeme, hend⟩ := templatePiece_eq_ok g scope hfirst hs hholds
      obtain ⟨-, hfirst⟩ := goes_of_keeps (fun _ => inferInstance) hfirst hs
      exact ⟨hlexeme, Nat.le_trans hend (hgoes (hfirst hholds).1).2.1⟩
  | inr =>
      cases hmore
      exact templatePiece_eq_ok g scope hfirst hclean hholds

instance bounds_template (tagged : Bool) : F.Bounds base cur k (Parse.template g scope tagged) := by
  constructor
  · intro r n r'
    exact goes_of_keeps fun _ => inferInstance
  · intro r n r' hrun hclean hholds hcur hk
    obtain ⟨⟨raw, rfl⟩, hlexeme, hend⟩ := template_eq_ok g scope hrun hclean hholds
    have hbelow : Below k base cur := inferInstance
    refine ⟨Nat.le_trans (hbelow.le hk) hcur, Nat.le_refl _, ?_⟩
    refine Node.sound_iff.mpr ⟨⟨nofun, nofun, ?_⟩, nofun⟩
    rintro _ ⟨⟩
    exact ⟨r.lexed, hholds.admits, hlexeme, rfl, hend⟩

instance bounds_closeParenthesis (start : Nat) (items : List Node) [Below k base start]
    [Below k start cur] [hitems : IsBehind F k start items] :
    F.Bounds base cur k (Parse.closeParenthesis start items) := by
  apply @Bounds.weaken _ _ _ _ _ _ start _ ?_ inferInstance
  unfold Parse.closeParenthesis
  split
  · infer_instance
  · next item =>
      have hitem : IsBehind F k start item := ⟨fun hk => hitems.lies hk item (by simp)⟩
      infer_instance
  · infer_instance

instance bounds_parenthesized : F.Bounds base cur k (Parse.parenthesized g scope) := by
  unfold Parse.parenthesized
  infer_instance

instance bounds_element : F.Bounds base cur k (Parse.element g scope) := by
  unfold Parse.element
  infer_instance

instance bounds_array : F.Bounds base cur k (Parse.array g scope) := by
  unfold Parse.array
  infer_instance

instance bounds_propertyRest (start : Nat) (key : Node) (isName computed : Bool)
    [Below k base start] [Below k start cur] [IsBehind F k start key] :
    F.Bounds base cur k (Parse.propertyRest g scope start key isName computed) := by
  apply @Bounds.weaken _ _ _ _ _ _ start _ ?_ inferInstance
  unfold Parse.propertyRest
  apply Bounds.of_step
  intro atColon
  split
  · split <;> infer_instance
  · infer_instance

instance bounds_accessor (start : Nat) (kind : PropertyKind) [Below k base start]
    [Below k start cur] :
    F.Bounds base cur k (Parse.accessor g scope start kind) := by
  apply @Bounds.weaken _ _ _ _ _ _ start _ ?_ inferInstance
  unfold Parse.accessor
  infer_instance

instance bounds_property : F.Bounds base cur k (Parse.property g scope) := by
  unfold Parse.property
  infer_instance

instance bounds_object : F.Bounds base cur k (Parse.object g scope) := by
  unfold Parse.object
  infer_instance

instance bounds_argument : F.Bounds base cur k (Parse.argument g scope) := by
  unfold Parse.argument
  infer_instance

instance bounds_arguments : F.Bounds base cur k (Parse.arguments g scope) := by
  unfold Parse.arguments
  infer_instance

instance bounds_superAccess : F.Bounds base cur k Parse.superAccess := by
  unfold Parse.superAccess
  infer_instance

instance bounds_importExpression : F.Bounds base cur k (Parse.importExpression g scope) := by
  unfold Parse.importExpression
  infer_instance

instance bounds_namedMember (start : Nat) (left : Node) (isOptional : Bool) [Below k base start]
    [Below k start cur] [IsBehind F k start left] :
    F.Bounds base cur k (Parse.namedMember start left isOptional) := by
  apply @Bounds.weaken _ _ _ _ _ _ start _ ?_ inferInstance
  unfold Parse.namedMember
  infer_instance

instance bounds_computedMember (start : Nat) (left : Node) (isOptional : Bool) [Below k base start]
    [Below k start cur] [IsBehind F k start left] :
    F.Bounds base cur k (Parse.computedMember g scope start left isOptional) := by
  apply @Bounds.weaken _ _ _ _ _ _ start _ ?_ inferInstance
  unfold Parse.computedMember
  infer_instance

instance bounds_tagged (start : Nat) (left : Node) (inChain : Bool) [Below k base start]
    [Below k start cur] [IsBehind F k start left] :
    F.Bounds base cur k (Parse.tagged g scope start left inChain) := by
  apply @Bounds.weaken _ _ _ _ _ _ start _ ?_ inferInstance
  unfold Parse.tagged
  infer_instance

instance bounds_optionalMember (start : Nat) (left : Node) [Below k base start]
    [Below k start cur] [IsBehind F k start left] :
    F.Bounds base cur k (Parse.optionalMember g scope start left) := by
  apply @Bounds.weaken _ _ _ _ _ _ start _ ?_ inferInstance
  unfold Parse.optionalMember
  infer_instance

instance bounds_member (start : Nat) (allowsChain : Bool) (left : Node) (inChain : Bool)
    [Below k base start] [Below k start cur] [IsBehind F k start left] :
    F.Bounds base cur k (Parse.member g scope start allowsChain left inChain) := by
  apply @Bounds.weaken _ _ _ _ _ _ start _ ?_ inferInstance
  unfold Parse.member
  infer_instance

instance bounds_members (start : Nat) (allowsChain : Bool) (left : Node) (inChain : Bool)
    [Below k base start] [Below k start cur] [IsBehind F k start left] :
    F.Bounds base cur k (Parse.members g scope start allowsChain left inChain) := by
  apply @Bounds.weaken _ _ _ _ _ _ start _ ?_ inferInstance
  unfold Parse.members
  apply Bounds.of_loop
  rintro ⟨left, inChain⟩
  infer_instance

instance bounds_newCallee : F.Bounds base cur k (Parse.newCallee g scope) := by
  unfold Parse.newCallee
  infer_instance

instance bounds_newExpression : F.Bounds base cur k (Parse.newExpression g scope) := by
  unfold Parse.newExpression
  infer_instance

theorem lies_primaryWord {w : String} {r r' : Reader} {n : Node}
    (h : Parse.primaryWord g scope w r = .ok n r') (hclean : r'.lexFaults = [])
    (hholds : F.Holds r) (hw : ∃ escaped, r.lexed.lexeme = .word w escaped)
    (hcur : cur ≤ r.lexed.start) (hk : k.holds r.lastEnd) :
  Lying.lies F base r'.lastEnd n
  := by
  unfold Parse.primaryWord at h
  split at h
  · exact (inferInstance : F.Bounds base cur k _).lies h hclean hholds hcur hk
  · exact lies_literal h hholds (fun _ => hw) hcur hk
  · exact lies_literal h hholds (fun _ => hw) hcur hk
  · exact lies_literal h hholds (fun _ => hw) hcur hk
  · exact (inferInstance : F.Bounds base cur k _).lies h hclean hholds hcur hk
  · exact (inferInstance : F.Bounds base cur k _).lies h hclean hholds hcur hk
  · exact (inferInstance : F.Bounds base cur k _).lies h hclean hholds hcur hk

instance bounds_primary : F.Bounds base cur k (Parse.primary g scope) := by
  constructor
  · intro r a r'
    exact goes_of_keeps fun _ => inferInstance
  · intro r a r' hrun hclean hholds hcur hk
    obtain ⟨l, s, hs, h⟩ := bind_eq_ok hrun
    obtain ⟨hl, rfl⟩ := current_eq_ok hs
    split at h
    · exact lies_primaryWord g scope h hclean hholds ⟨_, hl.symm⟩ hcur hk
    · exact lies_literal h hholds (fun _ => ⟨_, hl.symm⟩) hcur hk
    · exact lies_literal h hholds (fun _ => ⟨_, hl.symm⟩) hcur hk
    case h_9 | h_10 =>
      apply lies_regex h hclean hholds _ hcur hk
      rw [← hl]
      rfl
    all_goals exact (inferInstance : F.Bounds base cur k _).lies h hclean hholds hcur hk

instance bounds_call (start : Nat) (left : Node) (inChain : Bool) [Below k base start]
    [Below k start cur] [IsBehind F k start left] :
    F.Bounds base cur k (Parse.call g scope start left inChain) := by
  apply @Bounds.weaken _ _ _ _ _ _ start _ ?_ inferInstance
  unfold Parse.call
  infer_instance

instance bounds_calls (start : Nat) (left : Node) [Below k base start]
    [Below k start cur] [IsBehind F k start left] :
    F.Bounds base cur k (Parse.calls g scope start left) := by
  apply @Bounds.weaken _ _ _ _ _ _ start _ ?_ inferInstance
  unfold Parse.calls
  apply Bounds.of_loop
  rintro ⟨left, inChain⟩
  infer_instance

instance bounds_leftHand : F.Bounds base cur k (Parse.leftHand g scope) := by
  unfold Parse.leftHand
  infer_instance

omit [g.Lawful] [g.Bounded F] [Below k base cur] in
theorem countedOperand_eq_ok {start : Nat} {n : Node} {r r' : Reader}
    (h : Parse.countedOperand g scope start r = .ok n r') :
  ∃ operand, g.unary scope r = .ok operand r' ∧
    n = if r.lexed.lexeme.isMark "++" || r.lexed.lexeme.isMark "--"
      then .mk 0 ⟨start, operand.span.stop⟩ operand.kind else operand
  := by
  obtain ⟨isNested, s, hs, h⟩ := bind_eq_ok h
  cases hs
  obtain ⟨operand, s, hs, h⟩ := bind_eq_ok h
  cases h
  exact ⟨operand, hs, rfl⟩

instance bounds_countedOperand (start : Nat) [hbase : Below k base start]
    [hstart : Below k start cur] :
    F.Bounds base cur k (Parse.countedOperand g scope start) := by
  have hunary : F.Bounds base cur k (g.unary scope) := inferInstance
  constructor
  · intro r n r' hrun hclean
    obtain ⟨operand, hrun, -⟩ := countedOperand_eq_ok g scope hrun
    apply hunary.goes hrun hclean
  · intro r n r' hrun hclean hholds hcur hk
    obtain ⟨operand, hoperand, rfl⟩ := countedOperand_eq_ok g scope hrun
    have hlies := hunary.lies hoperand hclean hholds hcur hk
    split
    · next hmark =>
        have hbehind := (Level.Bounded.unary k cur scope).lies hoperand hclean hholds hcur hk
        apply hlies.startingAt (hbase.le hk)
        · exact Nat.le_trans (hstart.le hk) hbehind.start
        · exact Level.Bounded.counted F scope hoperand hmark
    · exact hlies

instance bounds_update : F.Bounds base cur k (Parse.update g scope) := by
  unfold Parse.update
  infer_instance

instance bounds_awaitExpression : F.Bounds base cur k (Parse.awaitExpression g scope) := by
  unfold Parse.awaitExpression
  infer_instance

instance bounds_unary : F.Bounds base cur k (Parse.unary g scope) := by
  unfold Parse.unary
  infer_instance

instance bounds_privateIn : F.Bounds base cur k (Parse.privateIn g scope) := by
  unfold Parse.privateIn
  infer_instance

instance bounds_operation (start : Nat) (leftParen : Bool) (left : Node) (operator : String)
    (own : Nat) [Below k base start] [Below k start cur] [IsBehind F k start left] :
    F.Bounds base cur k (Parse.operation g scope start leftParen left operator own) := by
  apply @Bounds.weaken _ _ _ _ _ _ start _ ?_ inferInstance
  unfold Parse.operation
  infer_instance

instance bounds_operationAt (rank start : Nat) (leftParen : Bool) (left : Node)
    (operator : String) [Below k base start] [Below k start cur] [IsBehind F k start left] :
    F.Bounds base cur k (Parse.operationAt g scope rank start leftParen left operator) := by
  apply @Bounds.weaken _ _ _ _ _ _ start _ ?_ inferInstance
  unfold Parse.operationAt
  split <;> infer_instance

instance bounds_operators (rank start : Nat) (leftParen : Bool) (left : Node) [Below k base start]
    [Below k start cur] [IsBehind F k start left] :
    F.Bounds base cur k (Parse.operators g scope rank start leftParen left) := by
  apply @Bounds.weaken _ _ _ _ _ _ start _ ?_ inferInstance
  unfold Parse.operators
  infer_instance

instance bounds_binary (rank : Nat) : F.Bounds base cur k (Parse.binary g rank scope) := by
  unfold Parse.binary
  infer_instance

instance bounds_yieldExpression : F.Bounds base cur k (Parse.yieldExpression g scope) := by
  unfold Parse.yieldExpression
  infer_instance

instance bounds_assignmentFrom (start : Nat) (left : Node) [Below k base start]
    [Below k start cur] [IsBehind F k start left] :
    F.Bounds base cur k (Parse.assignmentFrom g scope start left) := by
  apply @Bounds.weaken _ _ _ _ _ _ start _ ?_ inferInstance
  unfold Parse.assignmentFrom
  infer_instance

instance bounds_assignment : F.Bounds base cur k (Parse.assignment g scope) := by
  unfold Parse.assignment
  infer_instance

/-! ### Marks that count -/

omit [g.Lawful] [g.Bounded F] [Below k base cur] in
/-- An expression that begins with a mark that counts up or down is neither a literal nor a
template. -/
theorem isAtom_unary {n : Node} {r r' : Reader} (h : Parse.unary g scope r = .ok n r')
    (hmark : r.lexed.lexeme.isMark "++" || r.lexed.lexeme.isMark "--") :
  Node.isAtom n.kind = false
  := by
  obtain ⟨m, hl, hm⟩ : ∃ m, r.lexed.lexeme = .mark m ∧ (m = "++" ∨ m = "--") := by
    unfold Lexeme.isMark at hmark
    split at hmark
    · next m hl => exact ⟨m, hl, by simpa using hmark⟩
    · cases hmark
  obtain ⟨l, s, hs, h⟩ := bind_eq_ok h
  cases hs
  have hunary : r.lexed.lexeme.spelling ∉ unaryOperators := by
    rw [hl]
    rcases hm with rfl | rfl <;> decide
  have hword : r.lexed.lexeme.isWord "await" = false := by rw [hl]; rfl
  rw [if_neg hunary, hword, if_neg nofun] at h
  obtain ⟨start, s, hs, h⟩ := bind_eq_ok h
  cases hs
  obtain ⟨l, s, hs, h⟩ := bind_eq_ok h
  cases hs
  obtain ⟨isUpdate, s, hs, h⟩ := bind_eq_ok h
  cases hs
  rw [if_pos hmark] at h
  obtain ⟨⟨⟩, s, -, h⟩ := bind_eq_ok h
  obtain ⟨operand, s, -, h⟩ := bind_eq_ok h
  obtain ⟨target, s, -, h⟩ := bind_eq_ok h
  cases h
  rfl

end Footing

end Stencil.Script
