import Stencil.Proofs.Script.Keeping

/-!
# The rules for expressions

The rules for names, patterns, functions, classes and expressions keep a footing if the rules of the
level below them do.  A rule that goes on by cases keeps it in each of them.
-/

namespace Stencil.Script

/-- The rules of a level keep the footing, whatever else is known. -/
class Level.Keeps (F : Footing) (g : Level) : Prop where
  statement : ∀ pre single scope, F.Keeps pre (g.statement single scope)
  assignment : ∀ pre scope, F.Keeps pre (g.assignment scope)
  binary : ∀ pre rank scope, F.Keeps pre (g.binary rank scope)
  unary : ∀ pre scope, F.Keeps pre (g.unary scope)
  leftHand : ∀ pre scope, F.Keeps pre (g.leftHand scope)
  primary : ∀ pre scope, F.Keeps pre (g.primary scope)
  pattern : ∀ pre scope, F.Keeps pre (g.pattern scope)

attribute [instance] Level.Keeps.statement Level.Keeps.assignment Level.Keeps.binary
  Level.Keeps.unary Level.Keeps.leftHand Level.Keeps.primary Level.Keeps.pattern

/-! ### Nodes in another form -/

namespace Node.Stands

variable {P : Nat → Prop} {n : Node}

/-- A node that is taken to begin at another place. -/
theorem startingAt {id start : Nat} (h : n.Stands P) (hstart : P start) :
  (Node.mk id ⟨start, n.span.stop⟩ n.kind).Stands P
  := by
  obtain ⟨⟨⟨-, hstop⟩, hkind⟩, hparts⟩ := stands_iff.mp h
  rw [stands_iff, parts_eq] at *
  exact ⟨⟨⟨hstart, hstop⟩, hkind⟩, hparts⟩

/-- A node that becomes a leaf. -/
theorem leaf {id : Nat} (h : n.Stands P) (typeName : String) :
  (Node.mk id n.span (.other typeName)).Stands P
  := by
  rw [stands_iff, parts_eq]
  exact ⟨⟨h.1.span, trivial⟩, fun m hm => by cases hm⟩

theorem asTarget (h : n.Stands P) :
  n.asTarget.Stands P
  := by
  unfold Node.asTarget
  split
  · exact h.leaf _
  · exact h.leaf _
  · split
    · exact h.leaf _
    · exact h
  · exact h

theorem asHead (h : n.Stands P) :
  (Parse.Node.asHead n).Stands P
  := by
  unfold Parse.Node.asHead
  split
  · exact h
  · exact h
  · exact h.leaf _

theorem closeChain (h : n.Stands P) :
  (Parse.closeChain n).Stands P
  := by
  unfold Parse.closeChain
  split
  · split
    · exact h.leaf _
    · exact h
  · exact h

theorem asDirective {d : Node} (h : n.Stands P) (hd : n.asDirective? = some d) :
  d.Stands P
  := by
  unfold Node.asDirective? at hd
  split at hd
  · split at hd
    · split at hd
      · cases hd
        rw [stands_iff, parts_eq] at h ⊢
        exact h
      · cases hd
    · cases hd
  · cases hd

end Node.Stands

theorem stands_markDirectives {P : Nat → Prop} {nodes : List Node} (h : ∀ n ∈ nodes, n.Stands P) :
  ∀ n ∈ markDirectives nodes, n.Stands P
  := by
  induction nodes with
  | nil => exact h
  | cons n rest ih =>
      obtain ⟨hn, hrest⟩ := List.forall_mem_cons.mp h
      unfold markDirectives
      split
      · next d hd => exact List.forall_mem_cons.mpr ⟨hn.asDirective hd, ih hrest⟩
      · exact h

/-! ### What a target is refused for -/

/-- The expression is not refused because a semicolon is missed. -/
def Covering.IsOther (c : Covering) : Prop := ∀ f ∈ c.refusal, f.isLack = false

namespace Covering

theorem isOther_none {c : Covering} (h : c.refusal = none) :
  c.IsOther
  := by
  intro f hf
  rw [h] at hf
  cases hf

theorem isOther_some {c : Covering} (f : Fault) [hf : f.IsOther] (h : c.refusal = some f) :
  c.IsOther
  := by
  intro f' hf'
  rw [h] at hf'
  cases hf'
  exact hf.other

theorem IsOther.andThen {a b : Covering} (ha : a.IsOther) (hb : b.IsOther) :
  (a.andThen b).IsOther
  := by
  unfold Covering.andThen
  split
  · exact ha
  · exact hb

theorem isOther_faultIf (condition : Bool) :
  (faultIf condition).IsOther
  := isOther_none rfl

end Covering

mutual

theorem isOther_coverTarget (commas : List Nat) (n : Node) :
  (coverTarget commas n).IsOther
  := by
  unfold coverTarget
  split
  · exact Covering.isOther_none rfl
  · split
    · exact Covering.isOther_some (.notAssignable _) rfl
    · exact Covering.isOther_none rfl
  · apply isOther_coverElements
  · apply isOther_coverProperties
  · exact Covering.isOther_some (.notAssignable _) rfl

theorem isOther_coverElements (commas : List Nat) (comma : Bool) (elements : List (Option Node)) :
  (coverElements commas comma elements).IsOther
  := by
  unfold coverElements
  split
  · exact Covering.isOther_none rfl
  · apply isOther_coverElements
  · split
    · exact (isOther_coverTarget commas _).andThen (Covering.isOther_faultIf _)
    · exact Covering.isOther_some .other rfl
  · exact (Covering.isOther_faultIf _).andThen (isOther_coverElements commas comma _)
  · exact (isOther_coverTarget commas _).andThen (isOther_coverElements commas comma _)

theorem isOther_coverProperties (commas : List Nat) (comma : Bool) (properties : List Node) :
  (coverProperties commas comma properties).IsOther
  := by
  unfold coverProperties
  split
  · exact Covering.isOther_none rfl
  · split
    · exact (isOther_coverTarget commas _).andThen (Covering.isOther_faultIf _)
    · exact Covering.isOther_some .other rfl
  · exact (Covering.isOther_faultIf _).andThen (isOther_coverProperties commas comma _)
  · refine Covering.IsOther.andThen ?_ (isOther_coverProperties commas comma _)
    split
    · exact Covering.isOther_none rfl
    · apply isOther_coverTarget
  · apply isOther_coverProperties

end
namespace Footing

variable {F : Footing} {pre : Prop}

instance isPlaced_startingAt (id start : Nat) (n : Node) [h : F.IsPlaced pre n]
    [hstart : F.IsPlaced pre start] : F.IsPlaced pre (Node.mk id ⟨start, n.span.stop⟩ n.kind) :=
  ⟨fun hpre => (h.places hpre).startingAt (hstart.places hpre)⟩

instance isPlaced_asTarget (n : Node) [h : F.IsPlaced pre n] : F.IsPlaced pre n.asTarget :=
  ⟨fun hpre => (h.places hpre).asTarget⟩

instance isPlaced_asHead (n : Node) [h : F.IsPlaced pre n] :
    F.IsPlaced pre (Parse.Node.asHead n) := ⟨fun hpre => (h.places hpre).asHead⟩

instance isPlaced_closeChain (n : Node) [h : F.IsPlaced pre n] :
    F.IsPlaced pre (Parse.closeChain n) := ⟨fun hpre => (h.places hpre).closeChain⟩

instance isPlaced_markDirectives (nodes : List Node) [h : F.IsPlaced pre nodes] :
    F.IsPlaced pre (markDirectives nodes) := ⟨fun hpre => stands_markDirectives (h.places hpre)⟩

variable (g : Level) [g.Keeps F] (scope : Scope)

-- A long rule leads to a search with many steps.
set_option synthInstance.maxSize 10000

/-! ### Names -/

instance keeps_sourceFrom (start : Nat) (source : Text) :
    F.Keeps pre (Parse.sourceFrom start source) := by
  unfold Parse.sourceFrom
  infer_instance

instance keeps_nameHere : F.Keeps pre Parse.nameHere := by
  unfold Parse.nameHere
  infer_instance

instance keeps_noteControlWord : F.Keeps pre (Parse.noteControlWord scope) := by
  unfold Parse.noteControlWord
  infer_instance

instance keeps_reference : F.Keeps pre (Parse.reference scope) := by
  unfold Parse.reference
  infer_instance

instance keeps_boundName : F.Keeps pre (Parse.boundName scope) := by
  unfold Parse.boundName
  infer_instance

instance keeps_anyName : F.Keeps pre Parse.anyName := by
  unfold Parse.anyName
  infer_instance

instance keeps_spread : F.Keeps pre (Parse.spread g scope) := by
  unfold Parse.spread
  infer_instance

instance keeps_nextIs (condition : Lexeme → Bool → Bool) :
    F.Keeps pre (Parse.nextIs condition) := by
  unfold Parse.nextIs
  infer_instance

/-! ### Binding patterns -/

instance keeps_withDefault (start : Nat) (left : Node)
    [F.IsPlaced pre start] [F.IsPlaced pre left] :
    F.Keeps pre (Parse.withDefault g scope start left) := by
  unfold Parse.withDefault
  infer_instance

instance keeps_patternWithDefault : F.Keeps pre (Parse.patternWithDefault g scope) := by
  unfold Parse.patternWithDefault
  infer_instance

instance keeps_restPattern : F.Keeps pre (Parse.restPattern g scope) := by
  unfold Parse.restPattern
  infer_instance

instance keeps_separatedWithRest {α : Type} [Placed α] (close : String) (item : Parse α)
    [∀ pre, F.Keeps pre item] : F.Keeps pre (Parse.separatedWithRest g scope close item) := by
  unfold Parse.separatedWithRest
  apply Keeps.of_loop
  rintro ⟨items, rest, isFirst⟩
  infer_instance

instance keeps_modifiers : F.Keeps pre Parse.modifiers := by
  unfold Parse.modifiers
  infer_instance

instance keeps_propertyName : F.Keeps pre (Parse.propertyName g scope) := by
  unfold Parse.propertyName
  refine .of_bind fun start => .of_bind fun source => .of_bind fun l => ?_
  split <;> infer_instance

instance keeps_boundProperty : F.Keeps pre (Parse.boundProperty g scope) := by
  unfold Parse.boundProperty
  infer_instance

instance keeps_objectPattern : F.Keeps pre (Parse.objectPattern g scope) := by
  unfold Parse.objectPattern
  infer_instance

instance keeps_boundElement : F.Keeps pre (Parse.boundElement g scope) := by
  unfold Parse.boundElement
  infer_instance

instance keeps_arrayPattern : F.Keeps pre (Parse.arrayPattern g scope) := by
  unfold Parse.arrayPattern
  infer_instance

instance keeps_pattern : F.Keeps pre (Parse.pattern g scope) := by
  unfold Parse.pattern
  infer_instance

instance keeps_parameters : F.Keeps pre (Parse.parameters g scope) := by
  unfold Parse.parameters
  infer_instance

/-! ### Functions -/

instance keeps_functionBody : F.Keeps pre (Parse.functionBody g scope) := by
  unfold Parse.functionBody
  infer_instance

instance keeps_parametersAndBody (isGenerator isAsync : Bool) :
    F.Keeps pre (Parse.parametersAndBody g isGenerator isAsync) := by
  unfold Parse.parametersAndBody
  infer_instance

instance keeps_method (isGenerator isAsync : Bool) :
    F.Keeps pre (Parse.method g isGenerator isAsync) := by
  unfold Parse.method
  infer_instance

instance keeps_functionParts (isAsync needsName : Bool) (nameScope : Bool → Scope) :
    F.Keeps pre (Parse.functionParts g isAsync needsName nameScope) := by
  unfold Parse.functionParts
  infer_instance

instance keeps_functionExpression : F.Keeps pre (Parse.functionExpression g) := by
  unfold Parse.functionExpression
  refine .of_bind fun start => .of_bind fun isAsync => .of_bind ?_
  rintro ⟨isGenerator, name, params, body⟩
  infer_instance

instance keeps_functionDeclaration (single : Bool) :
    F.Keeps pre (Parse.functionDeclaration g single scope) := by
  unfold Parse.functionDeclaration
  refine .of_bind fun start => .of_bind fun isAsync => .of_bind ?_
  rintro ⟨isGenerator, name, params, body⟩
  infer_instance

instance keeps_atFunction : F.Keeps pre Parse.atFunction := by
  unfold Parse.atFunction
  infer_instance

instance keeps_arrow : F.Keeps pre Parse.arrow := by
  unfold Parse.arrow
  infer_instance

instance keeps_arrowBody (start : Nat) (isAsync : Bool) (params : List Node)
    [F.IsPlaced pre start] [F.IsPlaced pre params] :
    F.Keeps pre (Parse.arrowBody g scope start isAsync params) := by
  unfold Parse.arrowBody
  infer_instance

instance keeps_arrowHead : F.Keeps pre (Parse.arrowHead g scope) := by
  unfold Parse.arrowHead
  infer_instance

instance keeps_parenthesizedArrow : F.Keeps pre (Parse.parenthesizedArrow? g scope) := by
  unfold Parse.parenthesizedArrow?
  apply Keeps.of_bind
  intro l
  split
  · infer_instance
  · refine .of_bind fun start => .of_bind fun sign => ?_
    cases sign with
    | noArrow => infer_instance
    | arrow => infer_instance
    | unclear =>
        apply Keeps.of_bind
        intro r
        split
        · infer_instance
        · refine .of_bind fun head => ?_
          rcases head with _ | ⟨isAsync, params⟩ <;> infer_instance

instance keeps_asyncArrow : F.Keeps pre (Parse.asyncArrow? g scope) := by
  unfold Parse.asyncArrow?
  infer_instance

/-! ### Assignment targets -/

instance keeps_target (n : Node) [F.IsPlaced pre n] : F.Keeps pre (Parse.target n) := by
  have hrest (r : Reader) : F.Keeps pre (do
      Parse.noteIf (coverTarget r.trailing n).isFaulty
      match (coverTarget r.trailing n).refusal with
      | some f => throw f
      | none => pure n.asTarget) := by
    apply Keeps.of_bind
    intro _
    split
    · next f hf =>
        have : f.IsOther := ⟨isOther_coverTarget r.trailing n f hf⟩
        infer_instance
    · infer_instance
  let g (r : Reader) : Reader :=
    { r with uncovered := r.uncovered.filter (· ∉ (coverTarget r.trailing n).covered) }
  apply Keeps.of_change (g := g) hrest (fun _ => rfl) (fun _ => rfl)
  · exact fun r => ⟨.refl _, List.suffix_refl _, List.suffix_refl _⟩
  · exact fun r h => ⟨h.lexed, h.lexFaults, h.faults⟩
  · exact fun r h => ⟨h.admits, h.lastEnd, h.comments, h.follows, h.order, h.descend⟩

instance keeps_simpleTarget (n : Node) [F.IsPlaced pre n] : F.Keeps pre (Parse.simpleTarget n) := by
  unfold Parse.simpleTarget
  split <;> infer_instance

/-! ### Classes -/

instance keeps_eatBeforeName (w : String) : F.Keeps pre (Parse.eatBeforeName w) := by
  unfold Parse.eatBeforeName
  infer_instance

instance keeps_accessorFunction (kind : PropertyKind) :
    F.Keeps pre (Parse.accessorFunction g kind) := by
  unfold Parse.accessorFunction
  infer_instance

instance keeps_memberName : F.Keeps pre (Parse.memberName g scope) := by
  unfold Parse.memberName
  infer_instance

instance keeps_decorators : F.Keeps pre (Parse.decorators g scope) := by
  unfold Parse.decorators
  infer_instance

instance keeps_staticBlock : F.Keeps pre (Parse.staticBlock g) := by
  unfold Parse.staticBlock
  infer_instance

instance keeps_classMember : F.Keeps pre (Parse.classMember g scope) := by
  unfold Parse.classMember
  infer_instance

instance keeps_classMembers : F.Keeps pre (Parse.classMembers g scope) := by
  unfold Parse.classMembers
  infer_instance

instance keeps_classParts : F.Keeps pre (Parse.classParts g scope) := by
  unfold Parse.classParts
  infer_instance

instance keeps_classExpression : F.Keeps pre (Parse.classExpression g scope) := by
  unfold Parse.classExpression
  infer_instance

instance keeps_classDeclaration (single : Bool) :
    F.Keeps pre (Parse.classDeclaration g single scope) := by
  unfold Parse.classDeclaration
  infer_instance

/-! ### Expressions -/

instance keeps_expression : F.Keeps pre (Parse.expression g scope) := by
  unfold Parse.expression
  infer_instance

instance keeps_literal (value : Text → LiteralValue) : F.Keeps pre (Parse.literal value) := by
  unfold Parse.literal
  infer_instance

instance keeps_regex : F.Keeps pre Parse.regex := by
  unfold Parse.regex
  infer_instance

instance keeps_templatePiece (tagged : Bool) :
    F.Keeps pre (Parse.templatePiece g scope tagged) := by
  unfold Parse.templatePiece
  apply Keeps.of_bind
  intro l
  split <;> infer_instance

instance keeps_template (tagged : Bool) : F.Keeps pre (Parse.template g scope tagged) := by
  unfold Parse.template
  infer_instance

instance keeps_closeParenthesis (start : Nat) (items : List Node) [F.IsPlaced pre start]
    [hitems : F.IsPlaced pre items] : F.Keeps pre (Parse.closeParenthesis start items) := by
  unfold Parse.closeParenthesis
  split
  · infer_instance
  · next item =>
      have hitem : F.IsPlaced pre item := ⟨fun hpre => hitems.places hpre item (by simp)⟩
      infer_instance
  · infer_instance

instance keeps_parenthesized : F.Keeps pre (Parse.parenthesized g scope) := by
  unfold Parse.parenthesized
  infer_instance

instance keeps_element : F.Keeps pre (Parse.element g scope) := by
  unfold Parse.element
  infer_instance

instance keeps_rememberComma (start : Nat) (comma : Bool) :
    F.Keeps pre (Parse.rememberComma start comma) := by
  unfold Parse.rememberComma
  infer_instance

instance keeps_array : F.Keeps pre (Parse.array g scope) := by
  unfold Parse.array
  infer_instance

instance keeps_propertyRest (start : Nat) (key : Node) (isName computed : Bool)
    [F.IsPlaced pre start] [F.IsPlaced pre key] :
    F.Keeps pre (Parse.propertyRest g scope start key isName computed) := by
  unfold Parse.propertyRest
  apply Keeps.of_bind
  intro atColon
  split
  · split <;> infer_instance
  · infer_instance

instance keeps_accessor (start : Nat) (kind : PropertyKind) [F.IsPlaced pre start] :
    F.Keeps pre (Parse.accessor g scope start kind) := by
  unfold Parse.accessor
  infer_instance

instance keeps_property : F.Keeps pre (Parse.property g scope) := by
  unfold Parse.property
  infer_instance

instance keeps_object : F.Keeps pre (Parse.object g scope) := by
  unfold Parse.object
  infer_instance

instance keeps_argument : F.Keeps pre (Parse.argument g scope) := by
  unfold Parse.argument
  infer_instance

instance keeps_arguments : F.Keeps pre (Parse.arguments g scope) := by
  unfold Parse.arguments
  infer_instance

instance keeps_superAccess : F.Keeps pre Parse.superAccess := by
  unfold Parse.superAccess
  infer_instance

instance keeps_importExpression : F.Keeps pre (Parse.importExpression g scope) := by
  unfold Parse.importExpression
  infer_instance

instance keeps_namedMember (start : Nat) (left : Node) (isOptional : Bool)
    [F.IsPlaced pre start] [F.IsPlaced pre left] :
    F.Keeps pre (Parse.namedMember start left isOptional) := by
  unfold Parse.namedMember
  infer_instance

instance keeps_computedMember (start : Nat) (left : Node) (isOptional : Bool)
    [F.IsPlaced pre start] [F.IsPlaced pre left] :
    F.Keeps pre (Parse.computedMember g scope start left isOptional) := by
  unfold Parse.computedMember
  infer_instance

instance keeps_tagged (start : Nat) (left : Node) (inChain : Bool)
    [F.IsPlaced pre start] [F.IsPlaced pre left] :
    F.Keeps pre (Parse.tagged g scope start left inChain) := by
  unfold Parse.tagged
  infer_instance

instance keeps_optionalMember (start : Nat) (left : Node) [F.IsPlaced pre start]
    [F.IsPlaced pre left] : F.Keeps pre (Parse.optionalMember g scope start left) := by
  unfold Parse.optionalMember
  infer_instance

instance keeps_member (start : Nat) (allowsChain : Bool) (left : Node) (inChain : Bool)
    [F.IsPlaced pre start] [F.IsPlaced pre left] :
    F.Keeps pre (Parse.member g scope start allowsChain left inChain) := by
  unfold Parse.member
  infer_instance

instance keeps_members (start : Nat) (allowsChain : Bool) (left : Node) (inChain : Bool)
    [F.IsPlaced pre start] [F.IsPlaced pre left] :
    F.Keeps pre (Parse.members g scope start allowsChain left inChain) := by
  unfold Parse.members
  apply Keeps.of_loop
  rintro ⟨left, inChain⟩
  infer_instance

instance keeps_newCallee : F.Keeps pre (Parse.newCallee g scope) := by
  unfold Parse.newCallee
  infer_instance

instance keeps_newExpression : F.Keeps pre (Parse.newExpression g scope) := by
  unfold Parse.newExpression
  infer_instance

instance keeps_primaryWord (w : String) : F.Keeps pre (Parse.primaryWord g scope w) := by
  unfold Parse.primaryWord
  split <;> infer_instance

instance keeps_primary : F.Keeps pre (Parse.primary g scope) := by
  unfold Parse.primary
  apply Keeps.of_bind
  intro l
  split <;> infer_instance

instance keeps_call (start : Nat) (left : Node) (inChain : Bool) [F.IsPlaced pre start]
    [F.IsPlaced pre left] : F.Keeps pre (Parse.call g scope start left inChain) := by
  unfold Parse.call
  infer_instance

instance keeps_calls (start : Nat) (left : Node) [F.IsPlaced pre start] [F.IsPlaced pre left] :
    F.Keeps pre (Parse.calls g scope start left) := by
  unfold Parse.calls
  apply Keeps.of_loop
  rintro ⟨left, inChain⟩
  infer_instance

instance keeps_leftHand : F.Keeps pre (Parse.leftHand g scope) := by
  unfold Parse.leftHand
  infer_instance

instance keeps_atUpdate : F.Keeps pre Parse.atUpdate := by
  unfold Parse.atUpdate
  infer_instance

instance keeps_atUpdateBehind : F.Keeps pre Parse.atUpdateBehind := by
  unfold Parse.atUpdateBehind
  infer_instance

instance keeps_countedOperand (start : Nat) [F.IsPlaced pre start] :
    F.Keeps pre (Parse.countedOperand g scope start) := by
  unfold Parse.countedOperand
  infer_instance

instance keeps_update : F.Keeps pre (Parse.update g scope) := by
  unfold Parse.update
  infer_instance

instance keeps_atWordWithOperand (w : String) : F.Keeps pre (Parse.atWordWithOperand w) := by
  unfold Parse.atWordWithOperand
  infer_instance

instance keeps_awaitExpression : F.Keeps pre (Parse.awaitExpression g scope) := by
  unfold Parse.awaitExpression
  infer_instance

instance keeps_unary : F.Keeps pre (Parse.unary g scope) := by
  unfold Parse.unary
  infer_instance

instance keeps_privateIn : F.Keeps pre (Parse.privateIn g scope) := by
  unfold Parse.privateIn
  infer_instance

instance keeps_operation (start : Nat) (leftParen : Bool) (left : Node) (operator : String)
    (own : Nat) [F.IsPlaced pre start] [F.IsPlaced pre left] :
    F.Keeps pre (Parse.operation g scope start leftParen left operator own) := by
  unfold Parse.operation
  infer_instance

instance keeps_refuseCast (rank : Nat) (operator : String) :
    F.Keeps pre (Parse.refuseCast rank operator) := by
  unfold Parse.refuseCast
  infer_instance

instance keeps_operationAt (rank start : Nat) (leftParen : Bool) (left : Node) (operator : String)
    [F.IsPlaced pre start] [F.IsPlaced pre left] :
    F.Keeps pre (Parse.operationAt g scope rank start leftParen left operator) := by
  unfold Parse.operationAt
  split <;> infer_instance

instance keeps_operators (rank start : Nat) (leftParen : Bool) (left : Node)
    [F.IsPlaced pre start] [F.IsPlaced pre left] :
    F.Keeps pre (Parse.operators g scope rank start leftParen left) := by
  unfold Parse.operators
  infer_instance

instance keeps_binary (rank : Nat) : F.Keeps pre (Parse.binary g rank scope) := by
  unfold Parse.binary
  infer_instance

instance keeps_yieldOperand : F.Keeps pre (Parse.yieldOperand g scope) := by
  unfold Parse.yieldOperand
  infer_instance

instance keeps_yieldExpression : F.Keeps pre (Parse.yieldExpression g scope) := by
  unfold Parse.yieldExpression
  infer_instance

instance keeps_assignmentFrom (start : Nat) (left : Node) [F.IsPlaced pre start]
    [F.IsPlaced pre left] : F.Keeps pre (Parse.assignmentFrom g scope start left) := by
  unfold Parse.assignmentFrom
  infer_instance

instance keeps_assignment : F.Keeps pre (Parse.assignment g scope) := by
  unfold Parse.assignment
  infer_instance

end Footing

end Stencil.Script
