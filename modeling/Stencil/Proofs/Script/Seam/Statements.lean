import Stencil.Proofs.Script.Seam.Expressions

/-!
# Two readers of statements

The rules for statements agree if those of the levels below them do.  So the rules of all levels
agree, level by level.
-/

namespace Stencil.Script

open Carries (carry)

namespace Seam

variable {E : Seam} {t : Bool} (g g' : Level) [h : E.Parallel g g'] [E.Refuses g] [g.Lawful]
  [g'.Lawful] (scope : Scope)

set_option synthInstance.maxSize 10000

/-! ### Imports and exports -/

instance agree_moduleName : E.Agree false Parse.moduleName Parse.moduleName := by
  unfold Parse.moduleName
  apply Agree.bind_current
  intro l
  split <;> infer_instance

instance agree_moduleSource : E.Agree false Parse.moduleSource Parse.moduleSource := by
  unfold Parse.moduleSource
  apply Agree.bind_current
  intro l
  split <;> infer_instance

instance agree_importAttribute : E.Agree false Parse.importAttribute Parse.importAttribute := by
  unfold Parse.importAttribute
  infer_instance

instance agree_importAttributes : E.Agree false Parse.importAttributes Parse.importAttributes := by
  unfold Parse.importAttributes
  infer_instance

instance agree_moduleSpecifier : E.Agree false Parse.moduleSpecifier Parse.moduleSpecifier := by
  unfold Parse.moduleSpecifier
  infer_instance

instance agree_moduleSpecifiers : E.Agree false Parse.moduleSpecifiers Parse.moduleSpecifiers := by
  unfold Parse.moduleSpecifiers
  infer_instance

instance agree_importNamespace :
    E.Agree false (Parse.importNamespace scope) (Parse.importNamespace scope) := by
  unfold Parse.importNamespace
  infer_instance

instance agree_importBindings :
    E.Agree false (Parse.importBindings scope) (Parse.importBindings scope) := by
  unfold Parse.importBindings
  infer_instance

instance agree_fromModule : E.Agree false Parse.fromModule Parse.fromModule := by
  unfold Parse.fromModule
  infer_instance

instance agree_importDeclaration :
    E.Agree false (Parse.importDeclaration scope) (Parse.importDeclaration scope) := by
  unfold Parse.importDeclaration
  refine .bind_stands inferInstance fun start => ?_
  refine .bind_loose inferInstance fun _ => ?_
  apply Agree.bind_current
  intro l
  split <;> infer_instance

instance agree_exportDefault :
    E.Agree false (Parse.exportDefault g scope) (Parse.exportDefault g' scope) := by
  unfold Parse.exportDefault
  infer_instance

instance agree_exportDeclaration :
    E.Agree false (Parse.exportDeclaration g scope) (Parse.exportDeclaration g' scope) := by
  unfold Parse.exportDeclaration
  infer_instance

/-! ### Statements -/

instance agree_block : E.Agree false (Parse.block g scope) (Parse.block g' scope) := by
  unfold Parse.block
  infer_instance

instance agree_inParentheses :
    E.Agree false (Parse.inParentheses g scope) (Parse.inParentheses g' scope) := by
  unfold Parse.inParentheses
  infer_instance

instance agree_declarator :
    E.Agree false (Parse.declarator g scope) (Parse.declarator g' scope) := by
  unfold Parse.declarator
  infer_instance

instance agree_declarators (kind : DeclarationKind) (inHead : Bool) :
    E.Agree false (Parse.declarators g scope kind inHead)
      (Parse.declarators g' scope kind inHead) := by
  unfold Parse.declarators
  infer_instance

instance agree_variableStatement (single : Bool) :
    E.Agree false (Parse.variableStatement g single scope)
      (Parse.variableStatement g' single scope) := by
  unfold Parse.variableStatement
  infer_instance

instance agree_endExpression (start start' : Nat) (n n' : Node) [E.Carried start start']
    [E.Carried n n'] :
    E.Agree false (Parse.endExpression start n) (Parse.endExpression start' n') := by
  unfold Parse.endExpression
  infer_instance

instance agree_expressionStatement :
    E.Agree false (Parse.expressionStatement g scope) (Parse.expressionStatement g' scope) := by
  unfold Parse.expressionStatement
  infer_instance

instance oversteps_declarator : E.Oversteps (Parse.declarator g scope) := by
  unfold Parse.declarator
  infer_instance

instance oversteps_declarators (kind : DeclarationKind) (inHead : Bool) :
    E.Oversteps (Parse.declarators g scope kind inHead) := by
  unfold Parse.declarators
  infer_instance

omit [E.Refuses g] in
/-- Where variables are declared, the next lexeme is the same one for both readers. -/
theorem Paired.lexeme_next_of_variableStatement {r r' s : Reader} {n : Node} {single : Bool}
    (h : E.Paired r r') (hrun : Parse.variableStatement g single scope r = .ok n s)
    (hclean : E.Clean s) :
  r'.next.lexed.lexeme = r.next.lexed.lexeme
  := by
  obtain ⟨start, m, hstart, hrun⟩ := Footing.bind_eq_ok hrun
  cases hstart
  obtain ⟨l, m, hcurrent, hrun⟩ := Footing.bind_eq_ok hrun
  cases hcurrent
  obtain ⟨⟨⟩, m, hadvance, hrun⟩ := Footing.bind_eq_ok hrun
  have hover : E.Oversteps (do
      let items ← Parse.declarators g scope (Parse.declarationKind r.lexed.lexeme.spelling) false
      Parse.endStatement
      Parse.noteIf (single && Parse.declarationKind r.lexed.lexeme.spelling != .var)
      Parse.node r.lexed.start (.variableDeclaration
        (Parse.declarationKind r.lexed.lexeme.spelling) items)) := by
    infer_instance
  obtain ⟨faults, hnext⟩ := Footing.advance_eq r
  obtain ⟨faults', hnext'⟩ := Footing.advance_eq r'
  rcases (agree_advance (t := false)).goes h hadvance (hover.back hrun hclean) with
    ⟨m', hadvance', hpaired | ⟨⟨⟩, -⟩⟩ | ⟨-, hedge⟩
  · obtain ⟨v, w, hreads⟩ := hpaired.twin
    rw [hnext] at hadvance
    rw [hnext'] at hadvance'
    cases hadvance
    cases hadvance'
    exact hreads.lexeme
  · exact (hover.never hedge hrun hclean).elim

/-- Whatever cannot be declared in the first text cannot be declared in the second one. -/
theorem endsLet_of_looks {single : Bool} {l l' : Lexed} (hlooks : l.Looks l')
    (h : Parse.endsLet single l.lexeme = true) :
  Parse.endsLet single l'.lexeme = true
  := by
  rcases hlooks with ⟨hlexeme, -⟩ | ⟨hbehind, hbehind'⟩
  · rwa [hlexeme]
  · have hsingle : single = true := by
      rcases hbehind with hedge | hend
      · rw [hedge.lexeme] at h
        simpa [Parse.endsLet, Lexeme.isMark] using h
      · cases hl : l.lexeme <;>
          simp_all [Parse.endsLet, Lexeme.isMark, Lexeme.isEnd]
    rcases hbehind' with hmark | hend
    · rw [hmark]
      simp [Parse.endsLet, Lexeme.isMark]
    · cases hl : l'.lexeme <;>
        simp_all [Parse.endsLet, Lexeme.isMark, Lexeme.isEnd]

instance agree_letDeclaration (single : Bool) :
    E.Agree false (Parse.letDeclaration g single scope)
      (Parse.letDeclaration g' single scope) := by
  constructor
  · exact .of_keeps inferInstance
  · intro r r' n s hpaired hrun hclean
    obtain ⟨v, w, hreads⟩ := hpaired.twin
    change (if Parse.endsLet single r.next.lexed.lexeme then _ else _ : Parse Node) r = _ at hrun
    change E.Outcome false n s
      ((if Parse.endsLet single r'.next.lexed.lexeme then _ else _ : Parse Node) r')
    cases hends : Parse.endsLet single r.next.lexed.lexeme with
    | true =>
        have hname : E.Agree false (do
            let start ← Parse.start
            let n ← Parse.reference scope
            Parse.endExpression start n) (do
            let start ← Parse.start
            let n ← Parse.reference scope
            Parse.endExpression start n) := by
          infer_instance
        rw [hends] at hrun
        have hends' : Parse.endsLet single r'.next.lexed.lexeme = true :=
          endsLet_of_looks hreads.looks hends
        rw [hends']
        exact hname.goes hpaired hrun hclean
    | false =>
        rw [hends] at hrun
        rw [hpaired.lexeme_next_of_variableStatement g scope hrun hclean, hends]
        exact (agree_variableStatement g g' scope single).goes hpaired hrun hclean

instance agree_letStatement (single : Bool) :
    E.Agree false (Parse.letStatement g single scope)
      (Parse.letStatement g' single scope) := by
  unfold Parse.letStatement
  infer_instance

instance agree_ifStatement :
    E.Agree false (Parse.ifStatement g scope) (Parse.ifStatement g' scope) := by
  unfold Parse.ifStatement
  infer_instance

instance agree_doStatement :
    E.Agree false (Parse.doStatement g scope) (Parse.doStatement g' scope) := by
  unfold Parse.doStatement
  infer_instance

instance agree_whileStatement :
    E.Agree false (Parse.whileStatement g scope) (Parse.whileStatement g' scope) := by
  unfold Parse.whileStatement
  infer_instance

section

variable (start start' : Nat) (isAwaited : Bool) [E.Carried start start']

instance agree_countedLoop (init init' : Option Node) (isLacking isLacking' : Bool)
    [E.Carried init init'] [hlacking : E.Carried isLacking isLacking'] :
    E.Agree false (Parse.countedLoop g scope start isAwaited init isLacking)
      (Parse.countedLoop g' scope start' isAwaited init' isLacking') := by
  obtain rfl : isLacking' = isLacking := hlacking.eq
  unfold Parse.countedLoop
  refine .bind_loose inferInstance fun _ => .bind_loose inferInstance fun _ => ?_
  infer_instance

instance agree_keyLoop (left left' : Node) [E.Carried left left'] :
    E.Agree false (Parse.keyLoop g scope start isAwaited left)
      (Parse.keyLoop g' scope start' isAwaited left') := by
  unfold Parse.keyLoop
  infer_instance

instance agree_elementLoop (left left' : Node) [E.Carried left left'] :
    E.Agree false (Parse.elementLoop g scope start left)
      (Parse.elementLoop g' scope start' left') := by
  unfold Parse.elementLoop
  infer_instance

instance stands_atHeadDeclaration :
    E.Stands Parse.atHeadDeclaration Parse.atHeadDeclaration := by
  unfold Parse.atHeadDeclaration
  infer_instance

instance agree_loopOverDeclaration :
    E.Agree false (Parse.loopOverDeclaration g scope start isAwaited)
      (Parse.loopOverDeclaration g' scope start' isAwaited) := by
  unfold Parse.loopOverDeclaration
  infer_instance

instance agree_loopOverExpression :
    E.Agree false (Parse.loopOverExpression g scope start isAwaited)
      (Parse.loopOverExpression g' scope start' isAwaited) := by
  unfold Parse.loopOverExpression
  infer_instance

end

instance agree_forStatement :
    E.Agree false (Parse.forStatement g scope) (Parse.forStatement g' scope) := by
  unfold Parse.forStatement
  infer_instance

instance agree_jumpLabel : E.Agree false (Parse.jumpLabel scope) (Parse.jumpLabel scope) := by
  unfold Parse.jumpLabel
  infer_instance

instance agree_breakStatement :
    E.Agree false (Parse.breakStatement scope) (Parse.breakStatement scope) := by
  unfold Parse.breakStatement
  infer_instance

instance agree_continueStatement :
    E.Agree false (Parse.continueStatement scope) (Parse.continueStatement scope) := by
  unfold Parse.continueStatement
  infer_instance

instance agree_returnStatement :
    E.Agree false (Parse.returnStatement g scope) (Parse.returnStatement g' scope) := by
  unfold Parse.returnStatement
  infer_instance

instance agree_withStatement :
    E.Agree false (Parse.withStatement g scope) (Parse.withStatement g' scope) := by
  unfold Parse.withStatement
  infer_instance

instance agree_switchCase :
    E.Agree false (Parse.switchCase g scope) (Parse.switchCase g' scope) := by
  unfold Parse.switchCase
  infer_instance

instance agree_switchStatement :
    E.Agree false (Parse.switchStatement g scope) (Parse.switchStatement g' scope) := by
  unfold Parse.switchStatement
  infer_instance

instance agree_throwStatement :
    E.Agree false (Parse.throwStatement g scope) (Parse.throwStatement g' scope) := by
  unfold Parse.throwStatement
  infer_instance

instance agree_catchClause :
    E.Agree false (Parse.catchClause g scope) (Parse.catchClause g' scope) := by
  unfold Parse.catchClause
  infer_instance

instance agree_tryStatement :
    E.Agree false (Parse.tryStatement g scope) (Parse.tryStatement g' scope) := by
  unfold Parse.tryStatement
  infer_instance

instance agree_debuggerStatement :
    E.Agree false Parse.debuggerStatement Parse.debuggerStatement := by
  unfold Parse.debuggerStatement
  infer_instance

instance agree_emptyStatement : E.Agree false Parse.emptyStatement Parse.emptyStatement := by
  unfold Parse.emptyStatement
  infer_instance

instance agree_statementOfWord (single : Bool) (w : String) (escaped : Bool) :
    E.Agree false (Parse.statementOfWord g single scope w escaped)
      (Parse.statementOfWord g' single scope w escaped) := by
  unfold Parse.statementOfWord
  split <;> infer_instance

instance agree_statement (single : Bool) :
    E.Agree false (Parse.statement g single scope) (Parse.statement g' single scope) := by
  unfold Parse.statement
  apply Agree.bind_current
  intro l
  split <;> infer_instance

/-! ### Levels -/

/-- The rules of the next levels agree. -/
instance parallel_above : E.Parallel g.above g'.above where
  statement single scope := agree_statement g g' scope single
  assignment scope := agree_assignment g g' scope
  binary rank scope := agree_binary g g' scope rank
  unary scope := agree_unary g g' scope
  leftHand scope := agree_leftHand g g' scope
  primary scope := agree_primary g g' scope
  pattern scope := agree_pattern g g' scope

omit h in
/-- No expression of the next level begins behind the code. -/
instance refuses_above : E.Refuses g.above where
  assignment scope := oversteps_assignment g scope
  binary rank scope := oversteps_binary g scope rank
  unary scope := oversteps_unary g scope
  leftHand scope := oversteps_leftHand g scope
  primary scope := oversteps_primary g scope

omit h in
/-- The level that understands nothing agrees with each other one. -/
instance parallel_bottom : E.Parallel Level.bottom g' where
  statement single scope := agree_stands Parse.unexpected (g'.statement single scope)
  assignment scope := agree_stands Parse.unexpected (g'.assignment scope)
  binary rank scope := agree_stands Parse.unexpected (g'.binary rank scope)
  unary scope := agree_stands Parse.unexpected (g'.unary scope)
  leftHand scope := agree_stands Parse.unexpected (g'.leftHand scope)
  primary scope := agree_stands Parse.unexpected (g'.primary scope)
  pattern scope := agree_stands Parse.unexpected (g'.pattern scope)

instance refuses_bottom : E.Refuses Level.bottom where
  assignment _ := oversteps_unexpected
  binary _ _ := oversteps_unexpected
  unary _ := oversteps_unexpected
  leftHand _ := oversteps_unexpected
  primary _ := oversteps_unexpected

instance refuses_ofHeight (height : Nat) : E.Refuses (Level.ofHeight height) := by
  induction height with
  | zero => exact refuses_bottom
  | succ height ih => exact refuses_above (Level.ofHeight height)

/-- What the rules of a level understand in the first text is understood by the rules of each higher
level in the second one. -/
theorem parallel_ofHeight {height height' : Nat} (hle : height ≤ height') :
  E.Parallel (Level.ofHeight height) (Level.ofHeight height')
  := by
  induction height generalizing height' with
  | zero => exact parallel_bottom (Level.ofHeight height')
  | succ height ih =>
      cases height' with
      | zero => cases hle
      | succ height' =>
          have hparallel := ih (Nat.le_of_succ_le_succ hle)
          exact parallel_above (Level.ofHeight height) (Level.ofHeight height')

end Seam

end Stencil.Script
