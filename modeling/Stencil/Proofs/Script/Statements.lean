import Stencil.Proofs.Script.Order

/-!
# The rules for statements

The rules for imports, exports and statements keep a footing if the rules of the level below them
do, and so every level keeps it.  The nodes of a script therefore begin and end at places.
-/

namespace Stencil.Script

namespace Footing

variable {F : Footing} {pre : Prop} (g : Level) [g.Lawful] (scope : Scope)

set_option synthInstance.maxSize 10000

/-! ### Imports and exports -/

instance keeps_moduleName : F.Keeps pre Parse.moduleName := by
  unfold Parse.moduleName
  apply Keeps.of_bind
  intro l
  split <;> infer_instance

instance keeps_moduleSource : F.Keeps pre Parse.moduleSource := by
  unfold Parse.moduleSource
  apply Keeps.of_bind
  intro l
  split <;> infer_instance

instance keeps_importAttribute : F.Keeps pre Parse.importAttribute := by
  unfold Parse.importAttribute
  infer_instance

instance keeps_importAttributes : F.Keeps pre Parse.importAttributes := by
  unfold Parse.importAttributes
  infer_instance

instance keeps_moduleSpecifier : F.Keeps pre Parse.moduleSpecifier := by
  unfold Parse.moduleSpecifier
  infer_instance

instance keeps_moduleSpecifiers : F.Keeps pre Parse.moduleSpecifiers := by
  unfold Parse.moduleSpecifiers
  infer_instance

instance keeps_importNamespace : F.Keeps pre (Parse.importNamespace scope) := by
  unfold Parse.importNamespace
  infer_instance

instance keeps_importBindings : F.Keeps pre (Parse.importBindings scope) := by
  unfold Parse.importBindings
  infer_instance

instance keeps_fromModule : F.Keeps pre Parse.fromModule := by
  unfold Parse.fromModule
  infer_instance

instance keeps_importDeclaration : F.Keeps pre (Parse.importDeclaration scope) := by
  unfold Parse.importDeclaration
  refine .of_bind fun start => .of_bind fun _ => .of_bind fun l => ?_
  split <;> infer_instance

instance keeps_exportDefault : F.Keeps pre (Parse.exportDefault g scope) := by
  unfold Parse.exportDefault
  infer_instance

instance keeps_exportDeclaration : F.Keeps pre (Parse.exportDeclaration g scope) := by
  unfold Parse.exportDeclaration
  infer_instance

/-! ### Statements -/

instance keeps_block : F.Keeps pre (Parse.block g scope) := by
  unfold Parse.block
  infer_instance

instance keeps_inParentheses : F.Keeps pre (Parse.inParentheses g scope) := by
  unfold Parse.inParentheses
  infer_instance

instance keeps_declarator : F.Keeps pre (Parse.declarator g scope) := by
  unfold Parse.declarator
  infer_instance

instance keeps_declarators (kind : DeclarationKind) (inHead : Bool) :
    F.Keeps pre (Parse.declarators g scope kind inHead) := by
  unfold Parse.declarators
  infer_instance

instance keeps_variableStatement (single : Bool) :
    F.Keeps pre (Parse.variableStatement g single scope) := by
  unfold Parse.variableStatement
  infer_instance

instance keeps_endExpression (start : Nat) (n : Node) [F.IsPlaced pre start] [F.IsPlaced pre n] :
    F.Keeps pre (Parse.endExpression start n) := by
  unfold Parse.endExpression
  infer_instance

instance keeps_expressionStatement : F.Keeps pre (Parse.expressionStatement g scope) := by
  unfold Parse.expressionStatement
  infer_instance

instance keeps_letDeclaration (single : Bool) :
    F.Keeps pre (Parse.letDeclaration g single scope) := by
  unfold Parse.letDeclaration
  infer_instance

instance keeps_letStatement (single : Bool) : F.Keeps pre (Parse.letStatement g single scope) := by
  unfold Parse.letStatement
  infer_instance

instance keeps_ifStatement : F.Keeps pre (Parse.ifStatement g scope) := by
  rw [ifStatement_eq]
  refine .of_bind fun start => .of_bind fun _ => .of_bind fun test => ?_
  -- what is known of the statements after `if` cannot be read off where they are placed
  refine .of_bind_knowing (fun hholds => stop_le_start_branches g scope hholds.inOrder) ?_
  rintro ⟨consequent, alternate⟩
  cases alternate with
  | none => infer_instance
  | some alternate =>
      exact @keeps_node F _ start _ inferInstance inferInstance ⟨fun h => h.2 alternate rfl⟩

instance keeps_doStatement : F.Keeps pre (Parse.doStatement g scope) := by
  unfold Parse.doStatement
  infer_instance

instance keeps_whileStatement : F.Keeps pre (Parse.whileStatement g scope) := by
  unfold Parse.whileStatement
  infer_instance

instance keeps_countedLoop (start : Nat) (isAwaited : Bool) (init : Option Node) (isLacking : Bool)
    [F.IsPlaced pre start] [F.IsPlaced pre init] :
    F.Keeps pre (Parse.countedLoop g scope start isAwaited init isLacking) := by
  unfold Parse.countedLoop
  infer_instance

instance keeps_keyLoop (start : Nat) (isAwaited : Bool) (left : Node)
    [F.IsPlaced pre start] [F.IsPlaced pre left] :
    F.Keeps pre (Parse.keyLoop g scope start isAwaited left) := by
  unfold Parse.keyLoop
  infer_instance

instance keeps_elementLoop (start : Nat) (left : Node)
    [F.IsPlaced pre start] [F.IsPlaced pre left] :
    F.Keeps pre (Parse.elementLoop g scope start left) := by
  unfold Parse.elementLoop
  infer_instance

instance keeps_atHeadDeclaration : F.Keeps pre Parse.atHeadDeclaration := by
  unfold Parse.atHeadDeclaration
  infer_instance

instance keeps_loopOverDeclaration (start : Nat) (isAwaited : Bool) [F.IsPlaced pre start] :
    F.Keeps pre (Parse.loopOverDeclaration g scope start isAwaited) := by
  unfold Parse.loopOverDeclaration
  infer_instance

instance keeps_loopOverExpression (start : Nat) (isAwaited : Bool) [F.IsPlaced pre start] :
    F.Keeps pre (Parse.loopOverExpression g scope start isAwaited) := by
  unfold Parse.loopOverExpression
  infer_instance

instance keeps_forStatement : F.Keeps pre (Parse.forStatement g scope) := by
  unfold Parse.forStatement
  infer_instance

instance keeps_jumpLabel : F.Keeps pre (Parse.jumpLabel scope) := by
  unfold Parse.jumpLabel
  infer_instance

instance keeps_breakStatement : F.Keeps pre (Parse.breakStatement scope) := by
  unfold Parse.breakStatement
  infer_instance

instance keeps_continueStatement : F.Keeps pre (Parse.continueStatement scope) := by
  unfold Parse.continueStatement
  infer_instance

instance keeps_returnStatement : F.Keeps pre (Parse.returnStatement g scope) := by
  unfold Parse.returnStatement
  infer_instance

instance keeps_withStatement : F.Keeps pre (Parse.withStatement g scope) := by
  unfold Parse.withStatement
  infer_instance

instance keeps_switchCase : F.Keeps pre (Parse.switchCase g scope) := by
  unfold Parse.switchCase
  infer_instance

omit [g.Lawful] in
/-- A case of a switch begins where the reader stands. -/
theorem start_switchCase (r : Reader) (n : Node) (r' : Reader)
    (h : Parse.switchCase g scope r = .ok n r') :
  n.span.start = r.lexed.start
  := by
  obtain ⟨start, s, hstart, hrest⟩ := bind_eq_ok h
  cases hstart
  exact Parse.Gives.gives (Q := fun n _ => n.span.start = r.lexed.start) hrest

instance keeps_switchStatement : F.Keeps pre (Parse.switchStatement g scope) := by
  unfold Parse.switchStatement
  refine .of_bind fun start => .of_bind fun _ => .of_bind fun value => .of_bind fun _ => ?_
  refine .of_bind_knowing (R := Ascending) (fun hholds hrun hclean => ?_) inferInstance
  exact ascending_many (fun _ _ => inferInstance) (fun _ _ => inferInstance)
    (start_switchCase g scope) hholds.inOrder hrun hclean

instance keeps_throwStatement : F.Keeps pre (Parse.throwStatement g scope) := by
  unfold Parse.throwStatement
  infer_instance

instance keeps_catchClause : F.Keeps pre (Parse.catchClause g scope) := by
  unfold Parse.catchClause
  infer_instance

instance keeps_tryStatement : F.Keeps pre (Parse.tryStatement g scope) := by
  unfold Parse.tryStatement
  infer_instance

instance keeps_debuggerStatement : F.Keeps pre Parse.debuggerStatement := by
  unfold Parse.debuggerStatement
  infer_instance

instance keeps_emptyStatement : F.Keeps pre Parse.emptyStatement := by
  unfold Parse.emptyStatement
  infer_instance

instance keeps_statementOfWord (single : Bool) (w : String) (escaped : Bool) :
    F.Keeps pre (Parse.statementOfWord g single scope w escaped) := by
  unfold Parse.statementOfWord
  split <;> infer_instance

instance keeps_statement (single : Bool) : F.Keeps pre (Parse.statement g single scope) := by
  unfold Parse.statement
  apply Keeps.of_bind
  intro l
  split <;> infer_instance

/-! ### Levels -/

instance lawful_bottom : Level.bottom.Lawful where
  statement _ _ := Parse.gives_unexpected
  keeps _ :=
    { statement := fun _ _ _ => keeps_unexpected
      assignment := fun _ _ => keeps_unexpected
      binary := fun _ _ _ => keeps_unexpected
      unary := fun _ _ => keeps_unexpected
      leftHand := fun _ _ => keeps_unexpected
      primary := fun _ _ => keeps_unexpected
      pattern := fun _ _ => keeps_unexpected }

instance lawful_above : g.above.Lawful where
  statement single scope := Parse.ends_statement g scope single
  keeps _ :=
    { statement := fun _ single scope => keeps_statement g scope single
      assignment := fun _ scope => keeps_assignment g scope
      binary := fun _ rank scope => keeps_binary g scope rank
      unary := fun _ scope => keeps_unary g scope
      leftHand := fun _ scope => keeps_leftHand g scope
      primary := fun _ scope => keeps_primary g scope
      pattern := fun _ scope => keeps_pattern g scope }

/-- The rules of every level keep every footing. -/
instance lawful_ofHeight (height : Nat) : (Level.ofHeight height).Lawful := by
  induction height with
  | zero => exact lawful_bottom
  | succ height ih => exact lawful_above _

instance keeps_script : F.Keeps pre (Parse.script g) := by
  unfold Parse.script
  infer_instance

end Footing

/-! ### Scripts -/

/-- The reader at the beginning of a script, after the line that tells how to run it. -/
def Reader.atStart (t : Text) : Reader :=
  .ofText (Text.width (interpreterLine t)) (t.drop (interpreterLine t).length)

/-- The footing bears the text: a reader can begin to read it there, and its ends are places. -/
structure Footing.Bears (F : Footing) (t : Text) : Prop where
  first : (Reader.atStart t).lexFaults = [] → F.Holds (Reader.atStart t)
  start : F.place 0
  stop : F.place (Text.width t)

/-- A script is what is read from the beginning of a text without any fault. -/
theorem Parsed.exists_run_of_ofText {t : Text} {parsed : Parsed} (h : ofText t = .ok parsed) :
  ∃ body r, Parse.script (Level.ofHeight (t.length + 2)) (Reader.atStart t) = .ok body r
    ∧ r.allFaults = []
    ∧ parsed = ⟨.mk 0 ⟨0, Text.width t⟩ (.program body), r.comments.reverse⟩
  := by
  unfold ofText at h
  dsimp only at h
  split at h
  · next body r hrun =>
      split at h
      · next hfaults =>
          cases h
          exact ⟨body, r, hrun, hfaults, rfl⟩
      · cases h
  · split at h <;> cases h

/-- What is read from the beginning of a text without any fault is a script. -/
theorem Parsed.ofText_of_run {t : Text} {body : List Node} {r : Reader}
    (hrun : Parse.script (Level.ofHeight (t.length + 2)) (Reader.atStart t) = .ok body r)
    (hfaults : r.allFaults = []) :
  ofText t = .ok ⟨.mk 0 ⟨0, Text.width t⟩ (.program body), r.comments.reverse⟩
  := by
  unfold Reader.atStart at hrun
  unfold ofText
  dsimp only
  rw [hrun]
  dsimp only
  rw [hfaults]

theorem Reader.lexFaults_of_allFaults {r : Reader} (h : r.allFaults = []) :
  r.lexFaults = []
  := by
  simp only [allFaults, List.append_eq_nil_iff, List.reverse_eq_nil_iff] at h
  exact h.1.1

/-- The nodes of a script begin and end at places, in its choices and switches the branches go on
from each other, and its comments have the property. -/
theorem Parsed.stands_of_ofText {F : Footing} {t : Text} {parsed : Parsed} (hbears : F.Bears t)
    (h : ofText t = .ok parsed) :
  parsed.tree.Stands F.place ∧ ∀ s ∈ parsed.comments, F.comment s
  := by
  obtain ⟨body, r, hrun, hfaults, rfl⟩ := exists_run_of_ofText h
  have hkeeps : F.Keeps True (Parse.script (Level.ofHeight (t.length + 2))) :=
    Footing.keeps_script _
  obtain ⟨hfirst, hbody⟩ := hkeeps.keeps hrun (r.lexFaults_of_allFaults hfaults)
  obtain ⟨hholds, hbody⟩ := hbody trivial (hbears.first hfirst)
  constructor
  · refine Node.stands_iff.mpr ⟨⟨⟨hbears.start, hbears.stop⟩, trivial⟩, ?_⟩
    intro n hn
    rw [Node.parts_eq] at hn
    apply hbody n
    simpa [Kind.parts, Node.kind] using hn
  · intro s hs
    apply hholds.comments s (List.mem_reverse.mp hs)

theorem Reader.IsPlain.allFaults {r : Reader} (h : r.IsPlain) :
  ∀ f ∈ r.allFaults, f.isLack = false
  := by
  have hlexFaults := h.lexFaults
  have hfaults := h.faults
  simp only [Reader.allFaults, List.mem_append, List.mem_reverse, List.mem_map]
  rintro f ((hf | hf) | ⟨-, -, rfl⟩)
  · apply hlexFaults f hf
  · apply hfaults f hf
  · rfl

/-- The nodes of a program begin and end at places. -/
theorem Program.endsAt_of_ofText {F : Footing} {t : Text} {p : Program} (hbears : F.Bears t)
    (h : ofText t = .ok p) :
  p.tree.EndsAt F.place
  := by
  obtain ⟨parsed, hparsed, htree, -⟩ := parsed_of_ofText h
  have hspans := spans_of_moved (run_of_lowered htree).1
  intro n hn
  have hmem := List.mem_map_of_mem (f := Node.span) hn
  rw [hspans] at hmem
  obtain ⟨m, hm, hspan⟩ := List.mem_map.mp hmem
  rw [← hspan]
  apply (Parsed.stands_of_ofText hbears hparsed).1.1 m hm

/-- In a program the branches of choices and switches go on from each other. -/
theorem Program.diverges_of_ofText {F : Footing} {t : Text} {p : Program} (hbears : F.Bears t)
    (h : ofText t = .ok p) :
  p.tree.Diverges
  := by
  obtain ⟨parsed, hparsed, htree, -⟩ := parsed_of_ofText h
  exact diverges_of_moved (Parsed.stands_of_ofText hbears hparsed).1.2 (run_of_lowered htree).1

end Stencil.Script
