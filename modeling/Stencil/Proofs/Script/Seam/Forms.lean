import Stencil.Proofs.Script.Seam.Ahead
import Stencil.Proofs.Script.Statements

/-!
# Two readers of patterns, functions and classes

The rules for patterns, functions and classes agree if those of the levels below them do.
-/

namespace Stencil.Script

open Carries (carry)

namespace Seam

/-- The rules of two levels agree, and those for expressions do so up to the end of the code. -/
class Parallel (E : Seam) (g g' : Level) : Prop where
  statement : ∀ single scope, E.Agree false (g.statement single scope) (g'.statement single scope)
  assignment : ∀ scope, E.Agree true (g.assignment scope) (g'.assignment scope)
  binary : ∀ rank scope, E.Agree true (g.binary rank scope) (g'.binary rank scope)
  unary : ∀ scope, E.Agree true (g.unary scope) (g'.unary scope)
  leftHand : ∀ scope, E.Agree true (g.leftHand scope) (g'.leftHand scope)
  primary : ∀ scope, E.Agree true (g.primary scope) (g'.primary scope)
  pattern : ∀ scope, E.Agree false (g.pattern scope) (g'.pattern scope)

/-- No expression begins behind the code. -/
class Refuses (E : Seam) (g : Level) : Prop where
  assignment : ∀ scope, E.Oversteps (g.assignment scope)
  binary : ∀ rank scope, E.Oversteps (g.binary rank scope)
  unary : ∀ scope, E.Oversteps (g.unary scope)
  leftHand : ∀ scope, E.Oversteps (g.leftHand scope)
  primary : ∀ scope, E.Oversteps (g.primary scope)

attribute [instance] Refuses.assignment Refuses.binary Refuses.unary Refuses.leftHand
  Refuses.primary

variable {E : Seam} {t : Bool} (g g' : Level) [h : E.Parallel g g'] [E.Refuses g] [g.Lawful]
  [g'.Lawful] (scope : Scope)

section Level

instance agree_level_statement (single : Bool) :
    E.Agree false (g.statement single scope) (g'.statement single scope) :=
  h.statement single scope

instance agree_level_assignment : E.Agree t (g.assignment scope) (g'.assignment scope) :=
  (h.assignment scope).loose t

instance agree_level_binary (rank : Nat) :
    E.Agree t (g.binary rank scope) (g'.binary rank scope) := (h.binary rank scope).loose t

instance agree_level_unary : E.Agree t (g.unary scope) (g'.unary scope) :=
  (h.unary scope).loose t

instance agree_level_leftHand : E.Agree t (g.leftHand scope) (g'.leftHand scope) :=
  (h.leftHand scope).loose t

instance agree_level_primary : E.Agree t (g.primary scope) (g'.primary scope) :=
  (h.primary scope).loose t

instance agree_level_pattern : E.Agree false (g.pattern scope) (g'.pattern scope) :=
  h.pattern scope

end Level

set_option synthInstance.maxSize 10000

/-! ### Names -/

instance agree_nameHere : E.Agree t Parse.nameHere Parse.nameHere := by
  apply Agree.loose
  unfold Parse.nameHere
  infer_instance

instance stands_noteControlWord :
    E.Stands (Parse.noteControlWord scope) (Parse.noteControlWord scope) := by
  unfold Parse.noteControlWord
  infer_instance

instance agree_reference : E.Agree t (Parse.reference scope) (Parse.reference scope) := by
  apply Agree.loose
  unfold Parse.reference
  infer_instance

instance agree_boundName : E.Agree t (Parse.boundName scope) (Parse.boundName scope) := by
  apply Agree.loose
  unfold Parse.boundName
  infer_instance

instance agree_anyName : E.Agree t Parse.anyName Parse.anyName := by
  apply Agree.loose
  unfold Parse.anyName
  infer_instance

instance oversteps_nameHere : E.Oversteps Parse.nameHere := by
  unfold Parse.nameHere
  infer_instance

instance oversteps_reference : E.Oversteps (Parse.reference scope) := by
  unfold Parse.reference
  infer_instance

instance oversteps_boundName : E.Oversteps (Parse.boundName scope) := by
  unfold Parse.boundName
  infer_instance

instance oversteps_anyName : E.Oversteps Parse.anyName := by
  unfold Parse.anyName
  infer_instance

instance agree_spread : E.Agree t (Parse.spread g scope) (Parse.spread g' scope) := by
  apply Agree.loose
  unfold Parse.spread
  infer_instance

/-! ### Binding patterns -/

instance agree_withDefault (start start' : Nat) (left left' : Node) [E.Carried start start']
    [E.Carried left left'] :
    E.Agree t (Parse.withDefault g scope start left) (Parse.withDefault g' scope start' left') := by
  apply Agree.loose
  unfold Parse.withDefault
  infer_instance

instance agree_patternWithDefault :
    E.Agree false (Parse.patternWithDefault g scope) (Parse.patternWithDefault g' scope) := by
  unfold Parse.patternWithDefault
  infer_instance

instance agree_restPattern :
    E.Agree false (Parse.restPattern g scope) (Parse.restPattern g' scope) := by
  unfold Parse.restPattern
  infer_instance

instance agree_separatedWithRest {α : Type} [Carries α] (close : String) (item item' : Parse α)
    [E.Agree false item item'] :
    E.Agree false (Parse.separatedWithRest g scope close item)
      (Parse.separatedWithRest g' scope close item') := by
  unfold Parse.separatedWithRest
  infer_instance

instance agree_modifiers : E.Agree false Parse.modifiers Parse.modifiers := by
  unfold Parse.modifiers
  infer_instance

instance agree_propertyName :
    E.Agree false (Parse.propertyName g scope) (Parse.propertyName g' scope) := by
  unfold Parse.propertyName
  apply Agree.bind_here
  · intro start source
    apply onward_bind stands_current.toOnward
    intro l
    split <;> exact .of_keeps inferInstance
  · intro start source source' hsources
    apply Agree.bind_current
    intro l
    split <;> infer_instance

instance agree_boundProperty :
    E.Agree false (Parse.boundProperty g scope) (Parse.boundProperty g' scope) := by
  unfold Parse.boundProperty
  infer_instance

instance agree_objectPattern :
    E.Agree false (Parse.objectPattern g scope) (Parse.objectPattern g' scope) := by
  unfold Parse.objectPattern
  infer_instance

instance agree_boundElement :
    E.Agree false (Parse.boundElement g scope) (Parse.boundElement g' scope) := by
  unfold Parse.boundElement
  infer_instance

instance agree_arrayPattern :
    E.Agree false (Parse.arrayPattern g scope) (Parse.arrayPattern g' scope) := by
  unfold Parse.arrayPattern
  infer_instance

instance agree_pattern : E.Agree false (Parse.pattern g scope) (Parse.pattern g' scope) := by
  unfold Parse.pattern
  infer_instance

instance oversteps_pattern : E.Oversteps (Parse.pattern g scope) := by
  unfold Parse.pattern Parse.objectPattern Parse.arrayPattern
  infer_instance

instance agree_parameters :
    E.Agree false (Parse.parameters g scope) (Parse.parameters g' scope) := by
  unfold Parse.parameters
  infer_instance

instance oversteps_parameters : E.Oversteps (Parse.parameters g scope) := by
  unfold Parse.parameters
  infer_instance

/-! ### Functions -/

instance agree_functionBody :
    E.Agree t (Parse.functionBody g scope) (Parse.functionBody g' scope) := by
  apply Agree.loose
  unfold Parse.functionBody
  infer_instance

instance oversteps_functionBody : E.Oversteps (Parse.functionBody g scope) := by
  unfold Parse.functionBody
  infer_instance

instance agree_parametersAndBody (isGenerator isAsync : Bool) :
    E.Agree t (Parse.parametersAndBody g isGenerator isAsync)
      (Parse.parametersAndBody g' isGenerator isAsync) := by
  apply Agree.loose
  unfold Parse.parametersAndBody
  infer_instance

instance oversteps_parametersAndBody (isGenerator isAsync : Bool) :
    E.Oversteps (Parse.parametersAndBody g isGenerator isAsync) := by
  unfold Parse.parametersAndBody
  infer_instance

instance agree_method (isGenerator isAsync : Bool) :
    E.Agree t (Parse.method g isGenerator isAsync) (Parse.method g' isGenerator isAsync) := by
  apply Agree.loose
  unfold Parse.method
  infer_instance

instance agree_functionParts (isAsync needsName : Bool) (nameScope : Bool → Scope) :
    E.Agree t (Parse.functionParts g isAsync needsName nameScope)
      (Parse.functionParts g' isAsync needsName nameScope) := by
  apply Agree.loose
  unfold Parse.functionParts
  infer_instance

instance oversteps_functionParts (isAsync needsName : Bool) (nameScope : Bool → Scope) :
    E.Oversteps (Parse.functionParts g isAsync needsName nameScope) := by
  unfold Parse.functionParts
  infer_instance

instance agree_functionExpression :
    E.Agree t (Parse.functionExpression g) (Parse.functionExpression g') := by
  apply Agree.loose
  unfold Parse.functionExpression
  refine .bind_stands stands_start fun start => ?_
  refine .bind_oversteps inferInstance (fun isAsync => ?_) fun _ => inferInstance
  refine .bind_rests (agree_functionParts g g' _ _ _) ?_ ?_ <;>
    rintro ⟨isGenerator, name, params, body⟩ <;>
    infer_instance

instance agree_functionDeclaration (single : Bool) :
    E.Agree t (Parse.functionDeclaration g single scope)
      (Parse.functionDeclaration g' single scope) := by
  apply Agree.loose
  unfold Parse.functionDeclaration
  refine .bind_stands stands_start fun start => ?_
  refine .bind_oversteps inferInstance (fun isAsync => ?_) fun _ => inferInstance
  refine .bind_rests (agree_functionParts g g' _ _ _) ?_ ?_ <;>
    rintro ⟨isGenerator, name, params, body⟩ <;>
    infer_instance

instance stands_atFunction : E.Stands Parse.atFunction Parse.atFunction := by
  unfold Parse.atFunction
  infer_instance

/-! ### Classes -/

instance agree_eatBeforeName (w : String) :
    E.Agree false (Parse.eatBeforeName w) (Parse.eatBeforeName w) := by
  unfold Parse.eatBeforeName
  infer_instance

instance agree_accessorFunction (kind : PropertyKind) :
    E.Agree t (Parse.accessorFunction g kind) (Parse.accessorFunction g' kind) := by
  apply Agree.loose
  unfold Parse.accessorFunction
  infer_instance

instance agree_memberName :
    E.Agree false (Parse.memberName g scope) (Parse.memberName g' scope) := by
  unfold Parse.memberName
  infer_instance

instance agree_decorators :
    E.Agree false (Parse.decorators g scope) (Parse.decorators g' scope) := by
  unfold Parse.decorators
  infer_instance

instance agree_staticBlock : E.Agree false (Parse.staticBlock g) (Parse.staticBlock g') := by
  unfold Parse.staticBlock
  infer_instance

instance agree_classMember :
    E.Agree false (Parse.classMember g scope) (Parse.classMember g' scope) := by
  unfold Parse.classMember
  infer_instance

instance agree_classMembers :
    E.Agree false (Parse.classMembers g scope) (Parse.classMembers g' scope) := by
  unfold Parse.classMembers
  infer_instance

instance agree_classParts : E.Agree t (Parse.classParts g scope) (Parse.classParts g' scope) := by
  apply Agree.loose
  unfold Parse.classParts
  infer_instance

instance oversteps_classParts : E.Oversteps (Parse.classParts g scope) := by
  unfold Parse.classParts
  infer_instance

instance agree_classExpression :
    E.Agree t (Parse.classExpression g scope) (Parse.classExpression g' scope) := by
  apply Agree.loose
  unfold Parse.classExpression
  infer_instance

instance oversteps_classExpression : E.Oversteps (Parse.classExpression g scope) := by
  unfold Parse.classExpression
  infer_instance

instance agree_classDeclaration (single : Bool) :
    E.Agree t (Parse.classDeclaration g single scope)
      (Parse.classDeclaration g' single scope) := by
  apply Agree.loose
  unfold Parse.classDeclaration
  infer_instance

end Seam

end Stencil.Script
