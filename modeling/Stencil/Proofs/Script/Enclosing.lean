import Stencil.Proofs.Script.Edges
import Stencil.Proofs.Script.Parts

/-!
# Nodes enclose their parts

The rules for imports, exports and statements have bounds if the rules of the level below them do,
and so every level has.  In the tree of a script every node therefore encloses its parts, and every
literal covers a lexeme that says its value.
-/

namespace Stencil.Script

namespace Footing

variable {F : Footing} {k : Knowledge} {base cur : Nat} (g : Level) [g.Lawful] [g.Bounded F]
  (scope : Scope) [Below k base cur]

set_option synthInstance.maxSize 10000

/-! ### Statements -/

instance bounds_importDeclaration : F.Bounds base cur k (Parse.importDeclaration scope) := by
  have hkeeps : ∀ F : Footing, F.Keeps True (Parse.importDeclaration scope) :=
    fun _ => inferInstance
  unfold Parse.importDeclaration at *
  refine .of_leaf hkeeps fun start => @Parse.gives_bind _ _ _ _ fun _ =>
    @Parse.gives_bind _ _ _ _ fun l => ?_
  dsimp only
  split <;> infer_instance

instance bounds_exportDeclaration : F.Bounds base cur k (Parse.exportDeclaration g scope) := by
  have hkeeps : ∀ F : Footing, F.Keeps True (Parse.exportDeclaration g scope) :=
    fun _ => inferInstance
  unfold Parse.exportDeclaration at *
  exact .of_leaf hkeeps fun _ => inferInstance

instance bounds_block : F.Bounds base cur k (Parse.block g scope) := by
  unfold Parse.block
  infer_instance

instance bounds_inParentheses : F.Bounds base cur k (Parse.inParentheses g scope) := by
  unfold Parse.inParentheses
  infer_instance

instance bounds_declarator : F.Bounds base cur k (Parse.declarator g scope) := by
  unfold Parse.declarator
  infer_instance

instance bounds_declarators (kind : DeclarationKind) (inHead : Bool) :
    F.Bounds base cur k (Parse.declarators g scope kind inHead) := by
  unfold Parse.declarators
  infer_instance

instance bounds_variableStatement (single : Bool) :
    F.Bounds base cur k (Parse.variableStatement g single scope) := by
  unfold Parse.variableStatement
  infer_instance

instance bounds_endExpression (start : Nat) (n : Node) [Below k base start]
    [Below k start cur] [IsBehind F k start n] :
    F.Bounds base cur k (Parse.endExpression start n) := by
  apply @Bounds.weaken _ _ _ _ _ _ start _ ?_ inferInstance
  unfold Parse.endExpression
  infer_instance

instance bounds_expressionStatement : F.Bounds base cur k (Parse.expressionStatement g scope) := by
  unfold Parse.expressionStatement
  infer_instance

instance bounds_letDeclaration (single : Bool) :
    F.Bounds base cur k (Parse.letDeclaration g single scope) := by
  unfold Parse.letDeclaration
  infer_instance

instance bounds_letStatement (single : Bool) :
    F.Bounds base cur k (Parse.letStatement g single scope) := by
  unfold Parse.letStatement
  infer_instance

instance bounds_ifStatement : F.Bounds base cur k (Parse.ifStatement g scope) := by
  unfold Parse.ifStatement
  infer_instance

instance bounds_doStatement : F.Bounds base cur k (Parse.doStatement g scope) := by
  unfold Parse.doStatement
  infer_instance

instance bounds_whileStatement : F.Bounds base cur k (Parse.whileStatement g scope) := by
  unfold Parse.whileStatement
  infer_instance

instance bounds_countedLoop (start : Nat) (isAwaited : Bool) (init : Option Node)
    (isLacking : Bool) [Below k base start]
    [Below k start cur] [IsBehind F k start init] :
    F.Bounds base cur k (Parse.countedLoop g scope start isAwaited init isLacking) := by
  apply @Bounds.weaken _ _ _ _ _ _ start _ ?_ inferInstance
  unfold Parse.countedLoop
  refine .of_step fun _ => .of_step fun _ => .of_step fun l => ?_
  split <;> infer_instance

instance bounds_keyLoop (start : Nat) (isAwaited : Bool) (left : Node) [Below k base start]
    [Below k start cur] [IsBehind F k start left] :
    F.Bounds base cur k (Parse.keyLoop g scope start isAwaited left) := by
  apply @Bounds.weaken _ _ _ _ _ _ start _ ?_ inferInstance
  unfold Parse.keyLoop
  infer_instance

instance bounds_elementLoop (start : Nat) (left : Node) [Below k base start]
    [Below k start cur] [IsBehind F k start left] :
    F.Bounds base cur k (Parse.elementLoop g scope start left) := by
  apply @Bounds.weaken _ _ _ _ _ _ start _ ?_ inferInstance
  unfold Parse.elementLoop
  infer_instance

instance bounds_loopOverDeclaration (start : Nat) (isAwaited : Bool) [Below k base start]
    [Below k start cur] :
    F.Bounds base cur k (Parse.loopOverDeclaration g scope start isAwaited) := by
  apply @Bounds.weaken _ _ _ _ _ _ start _ ?_ inferInstance
  unfold Parse.loopOverDeclaration
  infer_instance

instance bounds_loopOverExpression (start : Nat) (isAwaited : Bool) [Below k base start]
    [Below k start cur] :
    F.Bounds base cur k (Parse.loopOverExpression g scope start isAwaited) := by
  apply @Bounds.weaken _ _ _ _ _ _ start _ ?_ inferInstance
  unfold Parse.loopOverExpression
  infer_instance

instance bounds_forStatement : F.Bounds base cur k (Parse.forStatement g scope) := by
  unfold Parse.forStatement
  infer_instance

instance bounds_jumpLabel : F.Bounds base cur k (Parse.jumpLabel scope) := by
  unfold Parse.jumpLabel
  infer_instance

instance bounds_breakStatement : F.Bounds base cur k (Parse.breakStatement scope) := by
  unfold Parse.breakStatement
  infer_instance

instance bounds_continueStatement : F.Bounds base cur k (Parse.continueStatement scope) := by
  unfold Parse.continueStatement
  infer_instance

instance bounds_returnStatement : F.Bounds base cur k (Parse.returnStatement g scope) := by
  unfold Parse.returnStatement
  infer_instance

instance bounds_withStatement : F.Bounds base cur k (Parse.withStatement g scope) := by
  unfold Parse.withStatement
  infer_instance

instance bounds_switchCase : F.Bounds base cur k (Parse.switchCase g scope) := by
  unfold Parse.switchCase
  infer_instance

instance bounds_switchStatement : F.Bounds base cur k (Parse.switchStatement g scope) := by
  unfold Parse.switchStatement
  infer_instance

instance bounds_throwStatement : F.Bounds base cur k (Parse.throwStatement g scope) := by
  unfold Parse.throwStatement
  infer_instance

instance bounds_catchClause : F.Bounds base cur k (Parse.catchClause g scope) := by
  unfold Parse.catchClause
  infer_instance

instance bounds_tryStatement : F.Bounds base cur k (Parse.tryStatement g scope) := by
  unfold Parse.tryStatement
  infer_instance

instance bounds_debuggerStatement : F.Bounds base cur k Parse.debuggerStatement := by
  unfold Parse.debuggerStatement
  infer_instance

instance bounds_emptyStatement : F.Bounds base cur k Parse.emptyStatement := by
  unfold Parse.emptyStatement
  infer_instance

instance bounds_statementOfWord (single : Bool) (w : String) (escaped : Bool) :
    F.Bounds base cur k (Parse.statementOfWord g single scope w escaped) := by
  unfold Parse.statementOfWord
  split <;> infer_instance

instance bounds_statement (single : Bool) :
    F.Bounds base cur k (Parse.statement g single scope) := by
  unfold Parse.statement
  apply Bounds.of_step
  intro l
  split <;> infer_instance

/-! ### Levels -/

instance bounded_bottom : Level.bottom.Bounded F where
  statement _ _ _ _ := bounds_unexpected
  assignment _ _ _ := bounds_unexpected
  binary _ _ _ _ := bounds_unexpected
  unary _ _ _ := bounds_unexpected
  leftHand _ _ _ := bounds_unexpected
  primary _ _ _ := bounds_unexpected
  pattern _ _ _ := bounds_unexpected
  counted _ r _ _ h _ := by
    obtain ⟨f, s, hstops, -⟩ := unexpected_eq (α := Node) r
    change (Parse.unexpected : Parse Node) r = _ at h
    rw [hstops] at h
    cases h

omit [Below k base cur] in
instance bounded_above : g.above.Bounded F where
  statement _ _ single scope := bounds_statement g scope single
  assignment _ _ scope := bounds_assignment g scope
  binary _ _ rank scope := bounds_binary g scope rank
  unary _ _ scope := bounds_unary g scope
  leftHand _ _ scope := bounds_leftHand g scope
  primary _ _ scope := bounds_primary g scope
  pattern _ _ scope := bounds_pattern g scope
  counted scope _ _ _ h hmark := isAtom_unary g scope h hmark

/-- The rules of every level have bounds. -/
instance bounded_ofHeight (height : Nat) : (Level.ofHeight height).Bounded F := by
  induction height with
  | zero => exact bounded_bottom
  | succ height ih => exact bounded_above _

instance bounds_script : F.Bounds base cur k (Parse.script g) := by
  unfold Parse.script
  infer_instance

end Footing

/-! ### Scripts -/

theorem Node.le_width_of_endsAt {t : Text} {n : Node} (h : n.EndsAt t.IsEdge) :
  n.span.stop ≤ Text.width t
  := by
  obtain ⟨front, rest, rfl, hstop, -⟩ := h.span.2
  rw [← hstop, Text.width_append]
  exact Nat.le_add_right _ _

/-- In the tree of a script the nodes enclose their parts, and the literals and templates are made
of lexemes. -/
theorem Parsed.sound_of_ofText {t : Text} {parsed : Parsed} (h : ofText t = .ok parsed) :
  parsed.tree.Sound (edges t)
  := by
  have hends := (stands_of_ofText (bears_edges t) h).1.1
  obtain ⟨body, r, hrun, hfaults, rfl⟩ := exists_run_of_ofText h
  have hclean := r.lexFaults_of_allFaults hfaults
  have hbounds : (edges t).Bounds 0 0 .nothing (Parse.script (Level.ofHeight (t.length + 2))) :=
    Footing.bounds_script _
  obtain ⟨hstart, -⟩ := hbounds.goes hrun hclean
  have hbody := hbounds.lies hrun hclean ((bears_edges t).first hstart) (Nat.zero_le _) trivial
  rw [Node.endsAt_iff] at hends
  rw [Node.sound_iff, Node.parts_eq] at *
  have hmem : ∀ n ∈ (Kind.program body).parts, n ∈ body := by simp [Kind.parts, Kind.fields]
  refine ⟨⟨fun n hn => ?_, ?_⟩, fun n hn => (hbody n (hmem n hn)).sound⟩
  · exact Span.encloses_iff.mpr ⟨Nat.zero_le _, Node.le_width_of_endsAt (hends.2 n hn)⟩
  · exact Node.isLexed_of_isAtom rfl

/-! ### Lowered trees -/

theorem isLexed_moved {F : Footing} {n : Node} :
  (n.moved id).IsLexed F ↔ n.IsLexed F
  := by
  have hspan : (n.moved id).span = n.span := Node.span_moved id n
  constructor
  · intro h
    constructor
    · intro value raw hkind
      rw [← hspan]
      apply h.literal value raw
      rw [Node.kind_moved, Kind.moved_eq_literal, hkind]
    · intro raw hkind
      rw [← hspan]
      apply h.template raw
      rw [Node.kind_moved, Kind.moved_eq_templateLiteral, hkind]
  · intro h
    constructor
    · intro value raw hkind
      rw [Node.kind_moved, Kind.moved_eq_literal] at hkind
      rw [hspan]
      apply h.literal value raw hkind
    · intro raw hkind
      rw [Node.kind_moved, Kind.moved_eq_templateLiteral] at hkind
      rw [hspan]
      apply h.template raw hkind

/-- Whether a tree is sound does not depend on the numbers of the nodes. -/
theorem sound_of_moved {F : Footing} {n m : Node} (h : n.Sound F)
    (hmoved : m.moved id = n.moved id) :
  m.Sound F
  := by
  have hiff (k : Node) : (k.moved id).Sound F ↔ k.Sound F := by
    unfold Node.Sound
    rw [Node.preorder_moved, List.forall_mem_map]
    simp only [Node.parts_moved, List.forall_mem_map, Node.span_moved, id_eq, isLexed_moved]
  rwa [← hiff, hmoved, hiff]

/-- In the tree of a program the nodes enclose their parts, and the literals and templates are made
of lexemes. -/
theorem Program.sound_of_ofText {t : Text} {p : Program} (h : ofText t = .ok p) :
  p.tree.Sound (edges t)
  := by
  obtain ⟨parsed, hparsed, htree, -⟩ := parsed_of_ofText h
  exact sound_of_moved (Parsed.sound_of_ofText hparsed) (run_of_lowered htree).1

end Stencil.Script
