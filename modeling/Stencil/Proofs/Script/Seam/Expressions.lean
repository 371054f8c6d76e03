import Stencil.Proofs.Script.Seam.Arrows

/-!
# Two readers of expressions

The rules for expressions agree up to the end of the code if those of the levels below them do.
-/

namespace Stencil.Script

open Carries (carry)

namespace Seam

variable {E : Seam} {t : Bool} (g g' : Level) [h : E.Parallel g g'] [E.Refuses g] [g.Lawful]
  [g'.Lawful] (scope : Scope)

set_option synthInstance.maxSize 10000

instance agree_expression :
    E.Agree t (Parse.expression g scope) (Parse.expression g' scope) := by
  apply Agree.loose
  unfold Parse.expression
  infer_instance

instance oversteps_expression : E.Oversteps (Parse.expression g scope) := by
  unfold Parse.expression
  infer_instance

instance agree_literal (value : Text → LiteralValue) :
    E.Agree t (Parse.literal value) (Parse.literal value) := by
  apply Agree.loose
  unfold Parse.literal
  apply Agree.bind_here
  · intro start source
    exact .of_keeps inferInstance
  · intro start source source' hsources
    infer_instance

instance oversteps_literal (value : Text → LiteralValue) : E.Oversteps (Parse.literal value) := by
  unfold Parse.literal
  infer_instance

instance agree_regex : E.Agree t Parse.regex Parse.regex := by
  unfold Parse.regex
  infer_instance

instance agree_templatePiece (tagged : Bool) :
    E.Agree t (Parse.templatePiece g scope tagged) (Parse.templatePiece g' scope tagged) := by
  apply Agree.loose
  unfold Parse.templatePiece
  apply Agree.bind_current
  intro l
  split <;> infer_instance

instance oversteps_templatePiece (tagged : Bool) :
    E.Oversteps (Parse.templatePiece g scope tagged) := by
  unfold Parse.templatePiece
  apply Oversteps.bind_current
  · intro l
    split <;> exact .of_keeps inferInstance
  · infer_instance

instance agree_template (tagged : Bool) :
    E.Agree t (Parse.template g scope tagged) (Parse.template g' scope tagged) := by
  apply Agree.loose
  unfold Parse.template
  apply Agree.bind_here
  · intro start source
    exact .of_keeps inferInstance
  · intro start source source' hsources
    infer_instance

instance agree_closeParenthesis (start start' : Nat) (items items' : List Node)
    [E.Carried start start'] [hitems : E.Carried items items'] :
    E.Agree t (Parse.closeParenthesis start items) (Parse.closeParenthesis start' items') := by
  apply Agree.loose
  obtain rfl : items' = carry E items := hitems.eq
  rcases items with _ | ⟨item, _ | ⟨other, items⟩⟩
  · exact agree_bind_rests (Parse.expect ")") (Parse.expect ")") _ _
  · exact agree_bind_rests (Parse.expect ")") (Parse.expect ")") _ _
  · change E.Agree true
      (Parse.node start (.sequence (item :: other :: items)) >>= fun n =>
        Parse.expect ")" >>= fun _ => pure n)
      (Parse.node start' (.sequence (carry E (item :: other :: items))) >>= fun n =>
        Parse.expect ")" >>= fun _ => pure n)
    infer_instance

instance oversteps_closeParenthesis (start : Nat) (items : List Node) :
    E.Oversteps (Parse.closeParenthesis start items) := by
  unfold Parse.closeParenthesis
  split <;> infer_instance

instance agree_parenthesized :
    E.Agree t (Parse.parenthesized g scope) (Parse.parenthesized g' scope) := by
  apply Agree.loose
  unfold Parse.parenthesized
  infer_instance

instance agree_element :
    E.Agree t (Parse.element g scope) (Parse.element g' scope) := by
  apply Agree.loose
  unfold Parse.element
  infer_instance

instance agree_rememberComma (start start' : Nat) (comma : Bool) [hstart : E.Carried start start'] :
    E.Agree t (Parse.rememberComma start comma) (Parse.rememberComma start' comma) := by
  apply Agree.loose
  obtain rfl : start' = carry E start := hstart.eq
  unfold Parse.rememberComma
  infer_instance

instance agree_array : E.Agree t (Parse.array g scope) (Parse.array g' scope) := by
  apply Agree.loose
  unfold Parse.array
  infer_instance

instance agree_propertyRest (start start' : Nat) (key key' : Node) (isName computed : Bool)
    [hstart : E.Carried start start'] [hkey : E.Carried key key'] :
    E.Agree false (Parse.propertyRest g scope start key isName computed)
      (Parse.propertyRest g' scope start' key' isName computed) := by
  obtain rfl : start' = carry E start := hstart.eq
  obtain rfl : key' = carry E key := hkey.eq
  unfold Parse.propertyRest
  have hname : (carry E key : Node).name? = key.name? := Node.name?_moved E.span key
  rw [hname]
  apply Agree.bind_stands inferInstance
  intro atColon
  change E.Agree false (if isName && !atColon then _ else _) (if isName && !atColon then _ else _)
  split
  · split <;> infer_instance
  · infer_instance

instance agree_accessor (start start' : Nat) (kind : PropertyKind) [E.Carried start start'] :
    E.Agree false (Parse.accessor g scope start kind) (Parse.accessor g' scope start' kind) := by
  unfold Parse.accessor
  infer_instance

instance agree_property : E.Agree false (Parse.property g scope) (Parse.property g' scope) := by
  unfold Parse.property
  infer_instance

instance agree_object : E.Agree t (Parse.object g scope) (Parse.object g' scope) := by
  apply Agree.loose
  unfold Parse.object
  infer_instance

instance agree_argument : E.Agree t (Parse.argument g scope) (Parse.argument g' scope) := by
  apply Agree.loose
  unfold Parse.argument
  infer_instance

instance agree_arguments : E.Agree t (Parse.arguments g scope) (Parse.arguments g' scope) := by
  apply Agree.loose
  unfold Parse.arguments
  infer_instance

instance agree_superAccess : E.Agree t Parse.superAccess Parse.superAccess := by
  apply Agree.loose
  unfold Parse.superAccess
  infer_instance

instance agree_importExpression :
    E.Agree t (Parse.importExpression g scope) (Parse.importExpression g' scope) := by
  apply Agree.loose
  unfold Parse.importExpression
  refine .bind_stands inferInstance fun start => ?_
  apply Agree.bind_rests inferInstance <;>
    intro _ <;>
    infer_instance

instance agree_namedMember (start start' : Nat) (left left' : Node) (isOptional : Bool)
    [E.Carried start start'] [E.Carried left left'] :
    E.Agree t (Parse.namedMember start left isOptional)
      (Parse.namedMember start' left' isOptional) := by
  apply Agree.loose
  unfold Parse.namedMember
  infer_instance

instance agree_computedMember (start start' : Nat) (left left' : Node) (isOptional : Bool)
    [E.Carried start start'] [E.Carried left left'] :
    E.Agree t (Parse.computedMember g scope start left isOptional)
      (Parse.computedMember g' scope start' left' isOptional) := by
  apply Agree.loose
  unfold Parse.computedMember
  infer_instance

instance agree_tagged (start start' : Nat) (left left' : Node) (inChain : Bool)
    [E.Carried start start'] [E.Carried left left'] :
    E.Agree t (Parse.tagged g scope start left inChain)
      (Parse.tagged g' scope start' left' inChain) := by
  apply Agree.loose
  unfold Parse.tagged
  infer_instance

instance oversteps_template (tagged : Bool) : E.Oversteps (Parse.template g scope tagged) := by
  unfold Parse.template
  infer_instance

instance oversteps_tagged (start : Nat) (left : Node) (inChain : Bool) :
    E.Oversteps (Parse.tagged g scope start left inChain) := by
  unfold Parse.tagged
  infer_instance

instance oversteps_computedMember (start : Nat) (left : Node) (isOptional : Bool) :
    E.Oversteps (Parse.computedMember g scope start left isOptional) := by
  unfold Parse.computedMember
  infer_instance

instance oversteps_namedMember (start : Nat) (left : Node) (isOptional : Bool) :
    E.Oversteps (Parse.namedMember start left isOptional) := by
  unfold Parse.namedMember
  infer_instance

instance agree_optionalMember (start start' : Nat) (left left' : Node)
    [E.Carried start start'] [E.Carried left left'] :
    E.Agree t (Parse.optionalMember g scope start left)
      (Parse.optionalMember g' scope start' left') := by
  apply Agree.loose
  unfold Parse.optionalMember
  infer_instance

instance oversteps_optionalMember (start : Nat) (left : Node) :
    E.Oversteps (Parse.optionalMember g scope start left) := by
  unfold Parse.optionalMember
  infer_instance

instance deaf_beginsMember : Deaf fun l _ => Parse.beginsMember l := by
  unfold Parse.beginsMember
  infer_instance

instance agree_member (start start' : Nat) (allowsChain : Bool) (left left' : Node)
    (inChain : Bool) [E.Carried start start'] [E.Carried left left'] :
    E.Agree t (Parse.member g scope start allowsChain left inChain)
      (Parse.member g' scope start' allowsChain left' inChain) := by
  apply Agree.loose
  unfold Parse.member
  infer_instance

instance rests_member (start start' : Nat) (allowsChain : Bool) (left left' : Node)
    (inChain : Bool) [E.Carried start start'] [E.Carried left left'] :
    E.Rests (Parse.member g scope start allowsChain left inChain)
      (Parse.member g' scope start' allowsChain left' inChain) := by
  unfold Parse.member
  infer_instance

instance agree_members (start start' : Nat) (allowsChain : Bool) (left left' : Node)
    (inChain : Bool) [E.Carried start start'] [hleft : E.Carried left left'] :
    E.Agree t (Parse.members g scope start allowsChain left inChain)
      (Parse.members g' scope start' allowsChain left' inChain) := by
  apply Agree.loose
  obtain rfl : left' = carry E left := hleft.eq
  apply Agree.loop_rests _ _ (left, inChain)
  · rintro ⟨left, inChain⟩
    exact agree_member g g' scope start start' allowsChain left (carry E left) inChain
  · rintro ⟨left, inChain⟩
    exact rests_member g g' scope start start' allowsChain left (carry E left) inChain

instance rests_members (start start' : Nat) (allowsChain : Bool) (left left' : Node)
    (inChain : Bool) [E.Carried start start'] [hleft : E.Carried left left'] :
    E.Rests (Parse.members g scope start allowsChain left inChain)
      (Parse.members g' scope start' allowsChain left' inChain) := by
  obtain rfl : left' = carry E left := hleft.eq
  apply Rests.loop _ (left, inChain)
  rintro ⟨left, inChain⟩
  exact rests_member g g' scope start start' allowsChain left (carry E left) inChain

instance oversteps_arguments : E.Oversteps (Parse.arguments g scope) := by
  unfold Parse.arguments
  infer_instance

instance oversteps_importExpression : E.Oversteps (Parse.importExpression g scope) := by
  unfold Parse.importExpression
  infer_instance

instance agree_newCallee : E.Agree t (Parse.newCallee g scope) (Parse.newCallee g' scope) := by
  apply Agree.loose
  unfold Parse.newCallee
  infer_instance

instance oversteps_newCallee : E.Oversteps (Parse.newCallee g scope) := by
  unfold Parse.newCallee
  infer_instance

instance agree_newExpression :
    E.Agree t (Parse.newExpression g scope) (Parse.newExpression g' scope) := by
  apply Agree.loose
  unfold Parse.newExpression
  infer_instance

instance agree_primaryWord (w : String) :
    E.Agree t (Parse.primaryWord g scope w) (Parse.primaryWord g' scope w) := by
  apply Agree.loose
  unfold Parse.primaryWord
  split <;> infer_instance

instance agree_primary : E.Agree t (Parse.primary g scope) (Parse.primary g' scope) := by
  apply Agree.loose
  unfold Parse.primary
  apply Agree.bind_current
  intro l
  split <;> infer_instance

instance oversteps_primary : E.Oversteps (Parse.primary g scope) := by
  unfold Parse.primary
  apply Oversteps.bind_current
  · intro l
    split <;> exact .of_keeps inferInstance
  · exact oversteps_unexpected

instance agree_call (start start' : Nat) (left left' : Node) (inChain : Bool)
    [E.Carried start start'] [E.Carried left left'] :
    E.Agree t (Parse.call g scope start left inChain)
      (Parse.call g' scope start' left' inChain) := by
  apply Agree.loose
  unfold Parse.call
  infer_instance

instance rests_call (start start' : Nat) (left left' : Node) (inChain : Bool)
    [E.Carried start start'] [E.Carried left left'] :
    E.Rests (Parse.call g scope start left inChain)
      (Parse.call g' scope start' left' inChain) := by
  unfold Parse.call
  infer_instance

instance agree_calls (start start' : Nat) (left left' : Node) [E.Carried start start']
    [hleft : E.Carried left left'] :
    E.Agree t (Parse.calls g scope start left) (Parse.calls g' scope start' left') := by
  apply Agree.loose
  obtain rfl : left' = carry E left := hleft.eq
  apply Agree.loop_rests _ _ (left, false)
  · rintro ⟨left, inChain⟩
    exact agree_call g g' scope start start' left (carry E left) inChain
  · rintro ⟨left, inChain⟩
    exact rests_call g g' scope start start' left (carry E left) inChain

instance rests_calls (start start' : Nat) (left left' : Node) [E.Carried start start']
    [hleft : E.Carried left left'] :
    E.Rests (Parse.calls g scope start left) (Parse.calls g' scope start' left') := by
  obtain rfl : left' = carry E left := hleft.eq
  apply Rests.loop _ (left, false)
  rintro ⟨left, inChain⟩
  exact rests_call g g' scope start start' left (carry E left) inChain

instance oversteps_superAccess : E.Oversteps Parse.superAccess := by
  unfold Parse.superAccess
  infer_instance

instance agree_leftHand : E.Agree t (Parse.leftHand g scope) (Parse.leftHand g' scope) := by
  apply Agree.loose
  unfold Parse.leftHand
  infer_instance

instance oversteps_leftHand : E.Oversteps (Parse.leftHand g scope) := by
  unfold Parse.leftHand
  infer_instance

instance stands_atUpdate : E.Stands Parse.atUpdate Parse.atUpdate := by
  unfold Parse.atUpdate
  infer_instance

instance stands_atUpdateBehind : E.Stands Parse.atUpdateBehind Parse.atUpdateBehind := by
  unfold Parse.atUpdateBehind
  infer_instance

instance rests_atUpdateBehind : E.Rests Parse.atUpdateBehind Parse.atUpdateBehind := by
  apply Rests.of_read (fun _ => rfl) (fun _ => rfl)
  intro r r' hmet
  rw [hmet.meets.edge.lexeme, hmet.meets.lexeme]
  rfl

instance agree_countedOperand (start start' : Nat) [E.Carried start start'] :
    E.Agree t (Parse.countedOperand g scope start) (Parse.countedOperand g' scope start') := by
  apply Agree.loose
  unfold Parse.countedOperand
  infer_instance

instance oversteps_countedOperand (start : Nat) :
    E.Oversteps (Parse.countedOperand g scope start) := by
  unfold Parse.countedOperand
  infer_instance

instance agree_update : E.Agree t (Parse.update g scope) (Parse.update g' scope) := by
  apply Agree.loose
  unfold Parse.update
  infer_instance

instance oversteps_update : E.Oversteps (Parse.update g scope) := by
  unfold Parse.update
  infer_instance

instance stands_atWordWithOperand (w : String) :
    E.Stands (Parse.atWordWithOperand w) (Parse.atWordWithOperand w) := by
  unfold Parse.atWordWithOperand
  infer_instance

instance agree_awaitExpression :
    E.Agree t (Parse.awaitExpression g scope) (Parse.awaitExpression g' scope) := by
  apply Agree.loose
  unfold Parse.awaitExpression
  infer_instance

instance oversteps_awaitExpression : E.Oversteps (Parse.awaitExpression g scope) := by
  unfold Parse.awaitExpression
  infer_instance

instance agree_unary : E.Agree t (Parse.unary g scope) (Parse.unary g' scope) := by
  apply Agree.loose
  unfold Parse.unary
  infer_instance

instance oversteps_unary : E.Oversteps (Parse.unary g scope) := by
  unfold Parse.unary
  infer_instance

instance agree_privateIn : E.Agree t (Parse.privateIn g scope) (Parse.privateIn g' scope) := by
  apply Agree.loose
  unfold Parse.privateIn
  infer_instance

instance oversteps_privateIn : E.Oversteps (Parse.privateIn g scope) := by
  unfold Parse.privateIn
  infer_instance

instance agree_operation (start start' : Nat) (leftParen : Bool) (left left' : Node)
    (operator : String) (own : Nat) [E.Carried start start'] [E.Carried left left'] :
    E.Agree t (Parse.operation g scope start leftParen left operator own)
      (Parse.operation g' scope start' leftParen left' operator own) := by
  apply Agree.loose
  unfold Parse.operation
  infer_instance

instance oversteps_operation (start : Nat) (leftParen : Bool) (left : Node) (operator : String)
    (own : Nat) : E.Oversteps (Parse.operation g scope start leftParen left operator own) := by
  unfold Parse.operation
  infer_instance

instance agree_refuseCast (rank : Nat) (operator : String) :
    E.Agree t (Parse.refuseCast rank operator) (Parse.refuseCast rank operator) := by
  apply Agree.loose
  unfold Parse.refuseCast
  infer_instance

instance agree_operationAt (rank start start' : Nat) (leftParen : Bool) (left left' : Node)
    (operator : String) [E.Carried start start'] [E.Carried left left'] :
    E.Agree t (Parse.operationAt g scope rank start leftParen left operator)
      (Parse.operationAt g' scope rank start' leftParen left' operator) := by
  apply Agree.loose
  unfold Parse.operationAt
  split <;> infer_instance

instance rests_operationAt (rank start start' : Nat) (leftParen : Bool) (left left' : Node)
    [E.Carried start start'] [E.Carried left left'] :
    E.Rests (Parse.operationAt g scope rank start leftParen left (Lexeme.mark ")").spelling)
      (Parse.operationAt g' scope rank start' leftParen left' (Lexeme.mark ";").spelling) := by
  have hcast : E.Rests (Parse.refuseCast rank ")") (Parse.refuseCast rank ";") :=
    .of_read (fun _ => rfl) (fun _ => rfl) fun _ => rfl
  exact rests_bind (Parse.refuseCast rank ")") (Parse.refuseCast rank ";")
    (fun _ => pure (Sum.inr left)) fun _ => pure (Sum.inr left')

instance agree_operators (rank start start' : Nat) (leftParen : Bool) (left left' : Node)
    [E.Carried start start'] [hleft : E.Carried left left'] :
    E.Agree t (Parse.operators g scope rank start leftParen left)
      (Parse.operators g' scope rank start' leftParen left') := by
  apply Agree.loose
  unfold Parse.operators
  infer_instance

instance rests_operators (rank start start' : Nat) (leftParen : Bool) (left left' : Node)
    [E.Carried start start'] [hleft : E.Carried left left'] :
    E.Rests (Parse.operators g scope rank start leftParen left)
      (Parse.operators g' scope rank start' leftParen left') := by
  unfold Parse.operators
  infer_instance

instance agree_binary (rank : Nat) :
    E.Agree t (Parse.binary g rank scope) (Parse.binary g' rank scope) := by
  apply Agree.loose
  unfold Parse.binary
  infer_instance

instance oversteps_binary (rank : Nat) : E.Oversteps (Parse.binary g rank scope) := by
  unfold Parse.binary
  infer_instance

instance agree_yieldOperand :
    E.Agree t (Parse.yieldOperand g scope) (Parse.yieldOperand g' scope) := by
  apply Agree.loose
  unfold Parse.yieldOperand
  dsimp only
  infer_instance

omit [g.Lawful] in
/-- Behind the code nothing is handed over. -/
theorem yieldOperand_behind {r : Reader} (h : r.lexed.lexeme ∈ [Lexeme.mark ")", .mark ";"]) :
  Parse.yieldOperand g scope r = .ok () r
  := by
  have hends : (!Parse.endsYield r.lexed.lexeme) = false := by
    simp only [List.mem_cons, List.not_mem_nil, or_false] at h
    rcases h with h | h <;> rw [h] <;> decide +kernel
  have hstar : r.lexed.lexeme.isMark "*" = false := by
    simp only [List.mem_cons, List.not_mem_nil, or_false] at h
    rcases h with h | h <;> rw [h] <;> rfl
  unfold Parse.yieldOperand
  change (if !r.lexed.newLine then _ else pure () : Parse Unit) r = _
  split
  · rw [eat_bind]
    change (if r.lexed.lexeme.isMark "*" then _ else _ : Parse Unit) r = _
    rw [hstar]
    change (if !Parse.endsYield r.lexed.lexeme then _ else pure () : Parse Unit) r = _
    rw [hends]
    rfl
  · rfl

instance rests_yieldOperand :
    E.Rests (Parse.yieldOperand g scope) (Parse.yieldOperand g' scope) := by
  refine ⟨.of_keeps inferInstance, ?_⟩
  intro r r' a s hmet hrun hclean
  rw [yieldOperand_behind g scope (by simp [hmet.meets.edge.lexeme])] at hrun
  cases hrun
  rw [yieldOperand_behind g' scope (by simp [hmet.meets.lexeme])]
  exact ⟨r', rfl, hmet⟩

instance agree_yieldExpression :
    E.Agree t (Parse.yieldExpression g scope) (Parse.yieldExpression g' scope) := by
  apply Agree.loose
  unfold Parse.yieldExpression
  infer_instance

instance oversteps_yieldExpression : E.Oversteps (Parse.yieldExpression g scope) := by
  unfold Parse.yieldExpression
  infer_instance

instance agree_assignmentFrom (start start' : Nat) (left left' : Node) [E.Carried start start']
    [E.Carried left left'] :
    E.Agree t (Parse.assignmentFrom g scope start left)
      (Parse.assignmentFrom g' scope start' left') := by
  apply Agree.loose
  unfold Parse.assignmentFrom
  infer_instance

/-- Behind the code neither mark goes on with an expression. -/
instance rests_assignmentFrom (start start' : Nat) (left left' : Node)
    [hleft : E.Carried left left'] :
    E.Rests (Parse.assignmentFrom g scope start left)
      (Parse.assignmentFrom g' scope start' left') := by
  unfold Parse.assignmentFrom
  apply Rests.bind_current
  · intro l
    exact .of_keeps inferInstance
  · have hrest : E.Rests (pure left) (pure left') := inferInstance
    have heat : E.Rests (Parse.eat "?") (Parse.eat "?") := inferInstance
    have hclose : (Lexeme.mark ")").spelling ∉ assignmentOperators := by decide +kernel
    have hsemicolon : (Lexeme.mark ";").spelling ∉ assignmentOperators := by decide +kernel
    rw [if_neg (by simp [Lexeme.isMark]), if_neg hclose, if_neg (by simp [Lexeme.isMark]),
      if_neg hsemicolon]
    infer_instance

instance rests_nameBeforeArrow :
    E.Rests (Parse.ahead Parse.nameBeforeArrow false)
      (Parse.ahead Parse.nameBeforeArrow false) := by
  apply Rests.of_read ahead_nameBeforeArrow ahead_nameBeforeArrow
  intro r r' hmet
  unfold asyncSignAt
  rw [hmet.meets.edge.lexeme, hmet.meets.lexeme]
  rfl

/-- The second parse is for what the first one has no result for. -/
theorem Agree.bind_option {p p' : Parse (Option Node)} {q q' : Parse Node}
    (hp : E.Agree true p p') (hq : E.Agree true q q') (hrests : E.Rests q q') :
  E.Agree true
    (p >>= fun o => match o with
      | some n => pure n
      | none => q)
    (p' >>= fun o => match o with
      | some n => pure n
      | none => q')
  := by
  apply Agree.bind_rests hp
  · rintro (_ | n)
    · exact hq
    · exact agree_stands (pure n) (pure (carry E n))
  · rintro (_ | n)
    · exact hrests
    · exact rests_pure n (carry E n)

theorem Rests.bind_option {p p' : Parse (Option Node)} {q q' : Parse Node} (hp : E.Rests p p')
    (hq : E.Rests q q') :
  E.Rests
    (p >>= fun o => match o with
      | some n => pure n
      | none => q)
    (p' >>= fun o => match o with
      | some n => pure n
      | none => q')
  := by
  apply Rests.bind hp
  rintro (_ | n)
  · exact hq
  · exact rests_pure n (carry E n)

instance rests_asyncArrow :
    E.Rests (Parse.asyncArrow? g scope) (Parse.asyncArrow? g' scope) := by
  unfold Parse.asyncArrow?
  infer_instance

instance agree_assignment : E.Agree t (Parse.assignment g scope) (Parse.assignment g' scope) := by
  apply Agree.loose
  have hplain : E.Agree true (do
      let start ← Parse.start
      let left ← Parse.binary g 0 scope
      Parse.assignmentFrom g scope start left) (do
      let start ← Parse.start
      let left ← Parse.binary g' 0 scope
      Parse.assignmentFrom g' scope start left) := by
    infer_instance
  have hover : E.Oversteps (do
      let start ← Parse.start
      let left ← Parse.binary g 0 scope
      Parse.assignmentFrom g scope start left) := by
    infer_instance
  have hasync := Agree.bind_option (agree_asyncArrow g g' scope) hplain (.of_oversteps hover)
  have harrow := Agree.bind_option (agree_parenthesizedArrow g g' scope) hasync
    (.bind_option (rests_asyncArrow g g' scope) (.of_oversteps hover))
  unfold Parse.assignment
  refine .bind_stands (stands_atWord _) fun atYield =>
    .bind_stands (stands_atWordWithOperand _) fun operand => ?_
  exact @agree_ite _ _ _ _ _ _ _ _ _ _ (agree_yieldExpression g g' scope) harrow

instance oversteps_assignment : E.Oversteps (Parse.assignment g scope) := by
  unfold Parse.assignment
  refine Oversteps.bind_rest (.of_keeps inferInstance) fun atYield =>
    Oversteps.bind_rest (.of_keeps inferInstance) fun operand => ?_
  split
  · infer_instance
  · apply Oversteps.bind_stays (a := none)
    · intro r hedge
      rw [parenthesizedArrow_apply, hedge.lexeme]
      rfl
    · exact .of_keeps inferInstance
    · apply Oversteps.bind_stays (a := none)
      · intro r hedge
        unfold Parse.asyncArrow?
        change (Parse.ahead Parse.nameBeforeArrow false >>= fun b => _) r = _
        rw [bind_of_ok _ (ahead_nameBeforeArrow r)]
        rw [hedge.lexeme]
        rfl
      · exact .of_keeps inferInstance
      · infer_instance

end Seam

end Stencil.Script
