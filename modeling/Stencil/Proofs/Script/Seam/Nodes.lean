import Stencil.Proofs.Script.Seam.Agreement

/-!
# Nodes at two places

The tree that the second reader builds is the tree of the first one at other places.  It is of the
same kind at each node, and whatever the grammar makes of a tree it makes of the other one as well.
-/

namespace Stencil.Script

open Carries (carry)

namespace Seam

variable {E : Seam}

/-! ### Kinds -/

section Kinds

variable (a a' b b' c c' : Node) (k k' : List (Option Node)) (l l' : List Node)
  (o o' p p' q q' : Option Node) (x x' y y' z z' : Bool)

instance carried_expressionStatement [ha : E.Carried a a'] [hx : E.Carried x x'] :
    E.Carried (Kind.expressionStatement a x) (.expressionStatement a' x') :=
  ⟨by simp [carry, Kind.moved, ha.eq, hx.eq]⟩

instance carried_blockStatement [hl : E.Carried l l'] :
    E.Carried (Kind.blockStatement l) (.blockStatement l') :=
  ⟨by simp [carry, Kind.moved, hl.eq]⟩

instance carried_emptyStatement :
    E.Carried (Kind.emptyStatement : Kind Node) .emptyStatement := ⟨rfl⟩

instance carried_variableDeclaration (kind : DeclarationKind) [hl : E.Carried l l'] :
    E.Carried (Kind.variableDeclaration kind l) (.variableDeclaration kind l') :=
  ⟨by simp [carry, Kind.moved, hl.eq]⟩

instance carried_variableDeclarator [ha : E.Carried a a'] [ho : E.Carried o o'] :
    E.Carried (Kind.variableDeclarator a o) (.variableDeclarator a' o') :=
  ⟨by simp [carry, Kind.moved, ha.eq, ho.eq]⟩

instance carried_functionDeclaration [ho : E.Carried o o'] [hl : E.Carried l l']
    [ha : E.Carried a a'] :
    E.Carried (Kind.functionDeclaration o l a) (.functionDeclaration o' l' a') :=
  ⟨by simp [carry, Kind.moved, ho.eq, hl.eq, ha.eq]⟩

instance carried_ifStatement [ha : E.Carried a a'] [hb : E.Carried b b'] [ho : E.Carried o o'] :
    E.Carried (Kind.ifStatement a b o) (.ifStatement a' b' o') :=
  ⟨by simp [carry, Kind.moved, ha.eq, hb.eq, ho.eq]⟩

instance carried_switchStatement [ha : E.Carried a a'] [hl : E.Carried l l'] :
    E.Carried (Kind.switchStatement a l) (.switchStatement a' l') :=
  ⟨by simp [carry, Kind.moved, ha.eq, hl.eq]⟩

instance carried_switchCase [ho : E.Carried o o'] [hl : E.Carried l l'] :
    E.Carried (Kind.switchCase o l) (.switchCase o' l') :=
  ⟨by simp [carry, Kind.moved, ho.eq, hl.eq]⟩

instance carried_forStatement [ho : E.Carried o o'] [hp : E.Carried p p'] [hq : E.Carried q q']
    [ha : E.Carried a a'] :
    E.Carried (Kind.forStatement o p q a) (.forStatement o' p' q' a') :=
  ⟨by simp [carry, Kind.moved, ho.eq, hp.eq, hq.eq, ha.eq]⟩

instance carried_forInStatement [ha : E.Carried a a'] [hb : E.Carried b b'] [hc : E.Carried c c'] :
    E.Carried (Kind.forInStatement a b c) (.forInStatement a' b' c') :=
  ⟨by simp [carry, Kind.moved, ha.eq, hb.eq, hc.eq]⟩

instance carried_forOfStatement [ha : E.Carried a a'] [hb : E.Carried b b'] [hc : E.Carried c c'] :
    E.Carried (Kind.forOfStatement a b c) (.forOfStatement a' b' c') :=
  ⟨by simp [carry, Kind.moved, ha.eq, hb.eq, hc.eq]⟩

instance carried_whileStatement [ha : E.Carried a a'] [hb : E.Carried b b'] :
    E.Carried (Kind.whileStatement a b) (.whileStatement a' b') :=
  ⟨by simp [carry, Kind.moved, ha.eq, hb.eq]⟩

instance carried_doWhileStatement [ha : E.Carried a a'] [hb : E.Carried b b'] :
    E.Carried (Kind.doWhileStatement a b) (.doWhileStatement a' b') :=
  ⟨by simp [carry, Kind.moved, ha.eq, hb.eq]⟩

instance carried_tryStatement [ha : E.Carried a a'] [ho : E.Carried o o'] [hp : E.Carried p p'] :
    E.Carried (Kind.tryStatement a o p) (.tryStatement a' o' p') :=
  ⟨by simp [carry, Kind.moved, ha.eq, ho.eq, hp.eq]⟩

instance carried_catchClause [ho : E.Carried o o'] [ha : E.Carried a a'] :
    E.Carried (Kind.catchClause o a) (.catchClause o' a') :=
  ⟨by simp [carry, Kind.moved, ho.eq, ha.eq]⟩

instance carried_breakStatement [ho : E.Carried o o'] :
    E.Carried (Kind.breakStatement o) (.breakStatement o') :=
  ⟨by simp [carry, Kind.moved, ho.eq]⟩

instance carried_continueStatement [ho : E.Carried o o'] :
    E.Carried (Kind.continueStatement o) (.continueStatement o') :=
  ⟨by simp [carry, Kind.moved, ho.eq]⟩

instance carried_returnStatement [ho : E.Carried o o'] :
    E.Carried (Kind.returnStatement o) (.returnStatement o') :=
  ⟨by simp [carry, Kind.moved, ho.eq]⟩

instance carried_throwStatement [ha : E.Carried a a'] :
    E.Carried (Kind.throwStatement a) (.throwStatement a') :=
  ⟨by simp [carry, Kind.moved, ha.eq]⟩

instance carried_labeledStatement [ha : E.Carried a a'] [hb : E.Carried b b'] :
    E.Carried (Kind.labeledStatement a b) (.labeledStatement a' b') :=
  ⟨by simp [carry, Kind.moved, ha.eq, hb.eq]⟩

instance carried_withStatement [ha : E.Carried a a'] [hb : E.Carried b b'] :
    E.Carried (Kind.withStatement a b) (.withStatement a' b') :=
  ⟨by simp [carry, Kind.moved, ha.eq, hb.eq]⟩

instance carried_debuggerStatement :
    E.Carried (Kind.debuggerStatement : Kind Node) .debuggerStatement := ⟨rfl⟩

instance carried_identifier (name : Text) :
    E.Carried (Kind.identifier name : Kind Node) (.identifier name) := ⟨rfl⟩

instance carried_literal (value : LiteralValue) (raw : Text) :
    E.Carried (Kind.literal value raw : Kind Node) (.literal value raw) := ⟨rfl⟩

instance carried_templateLiteral (raw : Text) :
    E.Carried (Kind.templateLiteral raw : Kind Node) (.templateLiteral raw) := ⟨rfl⟩

instance carried_taggedTemplate [ha : E.Carried a a'] [hb : E.Carried b b'] :
    E.Carried (Kind.taggedTemplate a b) (.taggedTemplate a' b') :=
  ⟨by simp [carry, Kind.moved, ha.eq, hb.eq]⟩

instance carried_thisExpression :
    E.Carried (Kind.thisExpression : Kind Node) .thisExpression := ⟨rfl⟩

instance carried_arrayExpression [hk : E.Carried k k'] :
    E.Carried (Kind.arrayExpression k) (.arrayExpression k') :=
  ⟨by simp [carry, Kind.moved, hk.eq]⟩

instance carried_objectExpression [hl : E.Carried l l'] :
    E.Carried (Kind.objectExpression l) (.objectExpression l') :=
  ⟨by simp [carry, Kind.moved, hl.eq]⟩

instance carried_property (kind : PropertyKind) [ha : E.Carried a a'] [hb : E.Carried b b']
    [hx : E.Carried x x'] [hy : E.Carried y y'] [hz : E.Carried z z'] :
    E.Carried (Kind.property a b kind x y z) (.property a' b' kind x' y' z') :=
  ⟨by simp [carry, Kind.moved, ha.eq, hb.eq, hx.eq, hy.eq, hz.eq]⟩

instance carried_spreadElement [ha : E.Carried a a'] :
    E.Carried (Kind.spreadElement a) (.spreadElement a') :=
  ⟨by simp [carry, Kind.moved, ha.eq]⟩

instance carried_restElement [ha : E.Carried a a'] :
    E.Carried (Kind.restElement a) (.restElement a') :=
  ⟨by simp [carry, Kind.moved, ha.eq]⟩

instance carried_assignmentPattern [ha : E.Carried a a'] [hb : E.Carried b b'] :
    E.Carried (Kind.assignmentPattern a b) (.assignmentPattern a' b') :=
  ⟨by simp [carry, Kind.moved, ha.eq, hb.eq]⟩

instance carried_functionExpression [ho : E.Carried o o'] [hl : E.Carried l l']
    [ha : E.Carried a a'] :
    E.Carried (Kind.functionExpression o l a) (.functionExpression o' l' a') :=
  ⟨by simp [carry, Kind.moved, ho.eq, hl.eq, ha.eq]⟩

instance carried_arrowFunction [hl : E.Carried l l'] [ha : E.Carried a a'] [hx : E.Carried x x'] :
    E.Carried (Kind.arrowFunction l a x) (.arrowFunction l' a' x') :=
  ⟨by simp [carry, Kind.moved, hl.eq, ha.eq, hx.eq]⟩

instance carried_unary (operator : String) [ha : E.Carried a a'] :
    E.Carried (Kind.unary operator a) (.unary operator a') :=
  ⟨by simp [carry, Kind.moved, ha.eq]⟩

instance carried_update (operator : String) [hx : E.Carried x x'] [ha : E.Carried a a'] :
    E.Carried (Kind.update operator x a) (.update operator x' a') :=
  ⟨by simp [carry, Kind.moved, hx.eq, ha.eq]⟩

instance carried_binary (operator : String) [ha : E.Carried a a'] [hb : E.Carried b b'] :
    E.Carried (Kind.binary operator a b) (.binary operator a' b') :=
  ⟨by simp [carry, Kind.moved, ha.eq, hb.eq]⟩

instance carried_logical (operator : String) [ha : E.Carried a a'] [hb : E.Carried b b'] :
    E.Carried (Kind.logical operator a b) (.logical operator a' b') :=
  ⟨by simp [carry, Kind.moved, ha.eq, hb.eq]⟩

instance carried_assignment (operator : String) [ha : E.Carried a a'] [hb : E.Carried b b'] :
    E.Carried (Kind.assignment operator a b) (.assignment operator a' b') :=
  ⟨by simp [carry, Kind.moved, ha.eq, hb.eq]⟩

instance carried_conditional [ha : E.Carried a a'] [hb : E.Carried b b'] [hc : E.Carried c c'] :
    E.Carried (Kind.conditional a b c) (.conditional a' b' c') :=
  ⟨by simp [carry, Kind.moved, ha.eq, hb.eq, hc.eq]⟩

instance carried_call [ha : E.Carried a a'] [hl : E.Carried l l'] [hx : E.Carried x x'] :
    E.Carried (Kind.call a l x) (.call a' l' x') :=
  ⟨by simp [carry, Kind.moved, ha.eq, hl.eq, hx.eq]⟩

instance carried_new [ha : E.Carried a a'] [hl : E.Carried l l'] :
    E.Carried (Kind.new a l) (.new a' l') :=
  ⟨by simp [carry, Kind.moved, ha.eq, hl.eq]⟩

instance carried_member [ha : E.Carried a a'] [hb : E.Carried b b'] [hx : E.Carried x x']
    [hy : E.Carried y y'] :
    E.Carried (Kind.member a b x y) (.member a' b' x' y') :=
  ⟨by simp [carry, Kind.moved, ha.eq, hb.eq, hx.eq, hy.eq]⟩

instance carried_sequence [hl : E.Carried l l'] : E.Carried (Kind.sequence l) (.sequence l') :=
  ⟨by simp [carry, Kind.moved, hl.eq]⟩

instance carried_other (name : String) :
    E.Carried (Kind.other name : Kind Node) (.other name) := ⟨rfl⟩

end Kinds

/-! ### What the grammar makes of nodes -/

theorem carry_nodes (l : List Node) :
  carry E l = l.map (Node.moved E.span)
  := rfl

section Nodes

variable (n n' m m' : Node) (l l' : List Node)

instance carried_isSome_name [h : E.Carried n n'] : E.Carried n.name?.isSome n'.name?.isSome :=
  ⟨by rw [h.eq]; exact congrArg Option.isSome (Node.name?_moved E.span n)⟩

instance carried_isNone_name [h : E.Carried n n'] : E.Carried n.name?.isNone n'.name?.isNone :=
  ⟨by rw [h.eq]; exact congrArg Option.isNone (Node.name?_moved E.span n)⟩

instance carried_beq_typeName (name : String) [h : E.Carried n n'] :
    E.Carried (n.typeName == name) (n'.typeName == name) :=
  ⟨by rw [h.eq]; exact congrArg (· == name) (Node.typeName_moved E.span n)⟩

theorem moved_mk (id : Nat) (span : Span) (kind : Kind Node) :
  (Node.mk id span kind).moved E.span = .mk 0 (E.span span) (kind.moved E.span)
  := by rw [Node.moved]

/-- A node that is taken to begin at another place. -/
instance carried_startingAt (start start' : Nat) [hstart : E.Carried start start']
    [h : E.Carried n n'] : E.Carried (Node.mk 0 ⟨start, n.span.stop⟩ n.kind)
      (Node.mk 0 ⟨start', n'.span.stop⟩ n'.kind) := by
  constructor
  rw [h.eq, hstart.eq]
  obtain ⟨id, span, kind⟩ := n
  rfl

/-- A node that becomes a leaf. -/
theorem moved_leaf (name : String) :
  (Node.mk 0 n.span (.other name)).moved E.span = .mk 0 (n.moved E.span).span (.other name)
  := by rw [moved_mk, Node.span_moved, Kind.moved]

theorem isPrivateName_moved :
  (n.moved E.span).isPrivateName = n.isPrivateName
  := by
  obtain ⟨id, span, kind⟩ := n
  unfold Node.isPrivateName
  rw [moved_mk]
  cases kind <;> rfl

instance carried_asTarget [h : E.Carried n n'] : E.Carried n.asTarget n'.asTarget := by
  constructor
  rw [h.eq]
  change (n.moved E.span).asTarget = n.asTarget.moved E.span
  have hleaf := moved_leaf (E := E) n
  obtain ⟨id, span, kind⟩ := n
  cases kind with
  | member object name computed optional =>
      unfold Node.asTarget
      rw [moved_mk] at *
      dsimp only [Node.kind, Kind.moved]
      rw [isPrivateName_moved]
      split
      · exact (hleaf _).symm
      · rw [moved_mk, Kind.moved]
  | arrayExpression => exact (hleaf _).symm
  | objectExpression => exact (hleaf _).symm
  | _ => rfl

instance carried_asHead [h : E.Carried n n'] :
    E.Carried (Parse.Node.asHead n) (Parse.Node.asHead n') := by
  constructor
  rw [h.eq]
  obtain ⟨id, span, kind⟩ := n
  cases kind <;> rfl

instance carried_closeChain [h : E.Carried n n'] :
    E.Carried (Parse.closeChain n) (Parse.closeChain n') := by
  constructor
  rw [h.eq]
  change Parse.closeChain (n.moved E.span) = (Parse.closeChain n).moved E.span
  have hleaf := moved_leaf (E := E) n
  obtain ⟨id, span, kind⟩ := n
  cases kind with
  | member object name computed optional =>
      unfold Parse.closeChain
      rw [moved_mk] at *
      dsimp only [Node.kind, Kind.moved]
      rw [isPrivateName_moved]
      split
      · exact (hleaf _).symm
      · rw [moved_mk, Kind.moved]
  | _ => rfl

theorem span_start (s : Span) :
  (E.span s).start = s.start + E.shift
  := rfl

/-- Nodes that begin at the same place do so in the second text as well. -/
theorem beq_span_start (s s' : Span) :
  ((E.span s).start == (E.span s').start) = (s.start == s'.start)
  := by
  rw [span_start, span_start, Bool.eq_iff_iff, beq_iff_eq, beq_iff_eq]
  omega

theorem asDirective?_moved :
  (n.moved E.span).asDirective? = n.asDirective?.map (Node.moved E.span)
  := by
  obtain ⟨id, span, kind⟩ := n
  cases kind with
  | expressionStatement expression isDirective =>
      obtain ⟨id', span', kind'⟩ := expression
      cases kind' with
      | literal value raw =>
          cases value with
          | string text =>
              by_cases hstart : span'.start = span.start <;>
                simp [moved_mk, Kind.moved, Node.asDirective?, Node.kind, Node.span, span_start,
                  hstart]
          | _ => rfl
      | _ => rfl
  | _ => rfl

instance carried_markDirectives [h : E.Carried l l'] :
    E.Carried (markDirectives l) (markDirectives l') := by
  constructor
  rw [h.eq]
  clear h
  change markDirectives (l.map (Node.moved E.span)) = (markDirectives l).map (Node.moved E.span)
  induction l with
  | nil => rfl
  | cons n l ih =>
      rw [List.map_cons, markDirectives, markDirectives, asDirective?_moved]
      cases n.asDirective? with
      | none => rfl
      | some d => exact congrArg (_ :: ·) ih

theorem isLogical_moved :
  Parse.isLogical (n.moved E.span) = Parse.isLogical n
    ∧ Parse.isPlainLogical (n.moved E.span) = Parse.isPlainLogical n
  := by
  obtain ⟨id, span, kind⟩ := n
  cases kind <;> exact ⟨rfl, rfl⟩

instance carried_mixesBadly (operator : String) (x x' y y' : Bool) [h : E.Carried n n']
    [h' : E.Carried m m'] [hx : E.Carried x x'] [hy : E.Carried y y'] :
    E.Carried (Parse.mixesBadly operator n m x y) (Parse.mixesBadly operator n' m' x' y') := by
  constructor
  obtain rfl : x' = x := hx.eq
  obtain rfl : y' = y := hy.eq
  rw [h.eq, h'.eq]
  change Parse.mixesBadly operator (n.moved E.span) (m.moved E.span) x' y' = _
  unfold Parse.mixesBadly
  rw [(isLogical_moved n).2, (isLogical_moved m).1, (isLogical_moved m).2]
  rfl

instance carried_isPatternRest (o o' : Option Node) [h : E.Carried o o'] :
    E.Carried (Parse.isPatternRest o) (Parse.isPatternRest o') := by
  constructor
  rw [h.eq]
  rcases o with _ | ⟨id, span, kind⟩
  · rfl
  · cases kind with
    | restElement argument => exact congrArg Option.isNone (Node.name?_moved E.span argument)
    | _ => rfl

instance carried_lacksValue (kind : DeclarationKind) [h : E.Carried n n'] :
    E.Carried (Parse.lacksValue kind n) (Parse.lacksValue kind n') := by
  constructor
  rw [h.eq]
  obtain ⟨id, span, k⟩ := n
  cases k with
  | variableDeclarator target init =>
      have hname := Node.name?_moved E.span target
      cases init with
      | none => exact congrArg (fun name => kind == .const || Option.isNone name) hname
      | some value => rfl
  | _ => rfl

theorem carried_any {l l' : List Node} {f : Node → Bool} (hf : ∀ n, E.Carried (f n) (f (carry E n)))
    (h : E.Carried l l') :
  E.Carried (l.any f) (l'.any f)
  := by
  constructor
  rw [h.eq]
  change (l.map _).any f = l.any f
  rw [List.any_map]
  congr 1
  funext n
  exact (hf n).eq

instance carried_any_lacksValue (kind : DeclarationKind) [h : E.Carried l l'] :
    E.Carried (l.any (Parse.lacksValue kind)) (l'.any (Parse.lacksValue kind)) :=
  carried_any (fun _ => inferInstance) h

instance carried_any_beq_typeName (name : String) [h : E.Carried l l'] :
    E.Carried (l.any (·.typeName == name)) (l'.any (·.typeName == name)) :=
  carried_any (fun _ => inferInstance) h

instance carried_bne_length (k : Nat) [h : E.Carried l l'] :
    E.Carried (l.length != k) (l'.length != k) := by
  constructor
  rw [h.eq]
  exact congrArg (· != k) (List.length_map _)

instance carried_hasOtherParams (kind : PropertyKind) [h : E.Carried n n'] :
    E.Carried (Parse.hasOtherParams kind n) (Parse.hasOtherParams kind n') := by
  constructor
  rw [h.eq]
  change Parse.hasOtherParams kind (n.moved E.span) = Parse.hasOtherParams kind n
  obtain ⟨id, span, k⟩ := n
  cases k with
  | functionExpression name params body =>
      have hempty := (carried_isEmpty (E := E) params (carry E params)).eq
      have hlength := (carried_bne_length (E := E) params (carry E params) 1).eq
      have hany := (carried_any_beq_typeName (E := E) params (carry E params) "RestElement").eq
      rw [moved_mk, Kind.moved, movedAll_eq_map]
      change (if kind == .get then !(carry E params).isEmpty
        else (carry E params).length != 1 || (carry E params).any (·.typeName == "RestElement")) = _
      rw [hempty, hlength, hany]
      rfl
  | _ => rfl

end Nodes

/-! ### Targets -/

/-- The same is found on reading two expressions as targets, at the places of the two texts. -/
structure Covers (E : Seam) (c c' : Covering) : Prop where
  refusal : c'.refusal.isSome = c.refusal.isSome
  isFaulty : c'.isFaulty = c.isFaulty
  covered : c'.covered = c.covered.map (· + E.shift)

variable {a a' b b' : Covering}

theorem covers_empty :
  Covers E {} {}
  := ⟨rfl, rfl, rfl⟩

theorem covers_refusal (f f' : Fault) :
  Covers E { refusal := some f } { refusal := some f' }
  := ⟨rfl, rfl, rfl⟩

theorem covers_faultIf (x : Bool) :
  Covers E (.faultIf x) (.faultIf x)
  := ⟨rfl, rfl, rfl⟩

theorem Covers.andThen (ha : Covers E a a') (hb : Covers E b b') :
  Covers E (a.andThen b) (a'.andThen b')
  := by
  have hrefusal := ha.refusal
  unfold Covering.andThen
  cases h : a.refusal with
  | some f =>
      rw [h] at hrefusal
      obtain ⟨f', h'⟩ := Option.isSome_iff_exists.mp hrefusal
      rw [h']
      exact ha
  | none =>
      rw [h] at hrefusal
      rw [Option.isSome_eq_false_iff.mp hrefusal |> Option.isNone_iff_eq_none.mp]
      refine ⟨hb.refusal, ?_, ?_⟩
      · rw [ha.isFaulty, hb.isFaulty]
      · rw [ha.covered, hb.covered, List.map_append]

theorem isChain_moved (n : Node) :
  (n.moved E.span).isChain = n.isChain
  := by
  induction n using Node.inductionOnParts with
  | step n ih =>
      obtain ⟨id, span, kind⟩ := n
      have hparts (m : Node) (hm : m ∈ kind.parts) := ih m (by rwa [Node.parts_eq])
      rw [moved_mk]
      cases kind with
      | member object name computed optional =>
          rw [Kind.moved, Node.isChain, Node.isChain, hparts object (by simp [Kind.parts]),
            Node.span_moved, beq_span_start]
      | call callee arguments optional =>
          rw [Kind.moved, Node.isChain, Node.isChain, hparts callee (by simp [Kind.parts]),
            Node.span_moved, beq_span_start]
      | _ => rfl

theorem contains_moved (commas : List Nat) (s : Span) :
  (commas.map (· + E.shift)).contains (E.span s).start = commas.contains s.start
  := by
  rw [Bool.eq_iff_iff, List.contains_iff_mem, List.contains_iff_mem]
  exact List.mem_map_of_injective fun n m h => Nat.add_right_cancel h

mutual

theorem covers_coverTarget (commas : List Nat) (n : Node) :
  Covers E (coverTarget commas n) (coverTarget (commas.map (· + E.shift)) (n.moved E.span))
  := by
  obtain ⟨id, span, kind⟩ := n
  cases kind with
  | identifier name => exact covers_empty
  | member object name computed optional =>
      have hchain := isChain_moved (E := E) (.mk id span (.member object name computed optional))
      rw [moved_mk, Kind.moved] at *
      unfold coverTarget
      rw [hchain]
      split
      · exact covers_refusal _ _
      · exact covers_empty
  | arrayExpression elements =>
      rw [moved_mk, Kind.moved, movedOptions_eq_map]
      unfold coverTarget
      rw [contains_moved]
      apply covers_coverElements
  | objectExpression properties =>
      rw [moved_mk, Kind.moved, movedAll_eq_map]
      unfold coverTarget
      rw [contains_moved]
      apply covers_coverProperties
  | _ => exact covers_refusal (.notAssignable span) (.notAssignable (E.span span))

theorem covers_coverElements (commas : List Nat) (comma : Bool) (elements : List (Option Node)) :
  Covers E (coverElements commas comma elements)
    (coverElements (commas.map (· + E.shift)) comma (elements.map (Option.map (Node.moved E.span))))
  := by
  cases elements with
  | nil => exact covers_empty
  | cons element rest =>
      have hrest := covers_coverElements commas comma rest
      cases element with
      | none => exact hrest
      | some n =>
          obtain ⟨id, span, kind⟩ := n
          rw [List.map_cons, Option.map_some]
          cases kind with
          | spreadElement argument =>
              rw [moved_mk, Kind.moved]
              unfold coverElements
              rw [List.isEmpty_map]
              split
              · apply (covers_coverTarget commas argument).andThen (covers_faultIf comma)
              · exact covers_refusal _ _
          | assignment operator left right =>
              rw [moved_mk, Kind.moved]
              unfold coverElements
              exact (covers_faultIf _).andThen hrest
          | _ => exact (covers_coverTarget commas (.mk id span _)).andThen hrest

theorem covers_coverProperties (commas : List Nat) (comma : Bool) (properties : List Node) :
  Covers E (coverProperties commas comma properties)
    (coverProperties (commas.map (· + E.shift)) comma (properties.map (Node.moved E.span)))
  := by
  cases properties with
  | nil => exact covers_empty
  | cons n rest =>
      have hrest := covers_coverProperties commas comma rest
      obtain ⟨id, span, kind⟩ := n
      rw [List.map_cons]
      cases kind with
      | spreadElement argument =>
          rw [moved_mk, Kind.moved]
          unfold coverProperties
          rw [List.isEmpty_map]
          split
          · apply (covers_coverTarget commas argument).andThen (covers_faultIf comma)
          · exact covers_refusal _ _
      | property key value kind computed shorthand method =>
          have hvalue : Covers E
              (if shorthand then { covered := [span.start] } else coverTarget commas value)
              (if shorthand then { covered := [(E.span span).start] }
                else coverTarget (commas.map (· + E.shift)) (value.moved E.span)) := by
            split
            · exact ⟨rfl, rfl, rfl⟩
            · apply covers_coverTarget
          have hboth := hvalue.andThen hrest
          obtain ⟨id', span', kind'⟩ := value
          cases kind' with
          | assignment operator left right =>
              rw [moved_mk, Kind.moved]
              unfold coverProperties
              exact (covers_faultIf _).andThen hrest
          | _ => exact hboth
      | _ => exact hrest

end

end Seam

end Stencil.Script
