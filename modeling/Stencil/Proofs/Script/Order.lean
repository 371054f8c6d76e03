import Stencil.Proofs.Script.Expressions

/-!
# The order of statements

A reader never goes back, so what it reads later stands behind what it has read.  A statement ends
where the last lexeme of it does, and what follows it begins behind that.  So the statement after
`else` begins behind the one before it, and the cases of a switch begin one after the other.
-/

namespace Stencil.Script

/-! ### Where a rule leaves its node -/

/-- If the parse gets through, its node and the reader at its end are as told. -/
class Parse.Gives (Q : Node → Reader → Prop) (p : Parse Node) : Prop where
  gives : ∀ {r n r'}, p r = .ok n r' → Q n r'

/-- The node of the parse ends where the last lexeme does that the parse has taken. -/
abbrev Parse.Ends (p : Parse Node) : Prop := Parse.Gives (fun n r => n.span.stop = r.lastEnd) p

/-- The node of the parse begins at the given offset. -/
abbrev Parse.BeginsAt (start : Nat) (p : Parse Node) : Prop :=
  Parse.Gives (fun n _ => n.span.start = start) p

namespace Parse

variable {α : Type} {Q : Node → Reader → Prop}

instance gives_bind (p : Parse α) (f : α → Parse Node) [h : ∀ a, Gives Q (f a)] :
    Gives Q (p >>= f) := by
  constructor
  intro r n r' hrun
  obtain ⟨a, s, -, hrest⟩ := Footing.bind_eq_ok hrun
  exact (h a).gives hrest

instance gives_ite (c : Prop) [Decidable c] (p q : Parse Node) [hp : Gives Q p] [hq : Gives Q q] :
    Gives Q (if c then p else q) := by
  split
  · exact hp
  · exact hq

instance gives_unexpected : Gives Q (unexpected : Parse Node) := by
  constructor
  intro r n r' hrun
  obtain ⟨f, s, hstops, -⟩ := Footing.unexpected_eq (α := Node) r
  rw [hstops] at hrun
  cases hrun

instance ends_node (start : Nat) (kind : Kind Node) : (node start kind).Ends := by
  constructor
  intro r n r' hrun
  cases hrun
  rfl

instance beginsAt_node (start : Nat) (kind : Kind Node) : (node start kind).BeginsAt start := by
  constructor
  intro r n r' hrun
  cases hrun
  rfl

end Parse

/-- The statements of a level end with the last lexeme that is taken for them. -/
class Level.Ends (g : Level) : Prop where
  statement : ∀ single scope, (g.statement single scope).Ends

attribute [instance] Level.Ends.statement

namespace Parse

variable (g : Level) (scope : Scope)

-- A long rule leads to a search with many steps.
set_option synthInstance.maxSize 10000

instance ends_block : (block g scope).Ends := by
  unfold block
  infer_instance

instance ends_variableStatement (single : Bool) : (variableStatement g single scope).Ends := by
  unfold variableStatement
  infer_instance

instance ends_endExpression (start : Nat) (n : Node) : (endExpression start n).Ends := by
  unfold endExpression
  infer_instance

instance ends_expressionStatement : (expressionStatement g scope).Ends := by
  unfold expressionStatement
  infer_instance

instance ends_letDeclaration (single : Bool) : (letDeclaration g single scope).Ends := by
  unfold letDeclaration
  infer_instance

instance ends_letStatement (single : Bool) : (letStatement g single scope).Ends := by
  unfold letStatement
  infer_instance

instance ends_ifStatement : (ifStatement g scope).Ends := by
  unfold ifStatement
  infer_instance

instance ends_doStatement : (doStatement g scope).Ends := by
  unfold doStatement
  infer_instance

instance ends_whileStatement : (whileStatement g scope).Ends := by
  unfold whileStatement
  infer_instance

instance ends_countedLoop (start : Nat) (isAwaited : Bool) (init : Option Node)
    (isLacking : Bool) : (countedLoop g scope start isAwaited init isLacking).Ends := by
  unfold countedLoop
  infer_instance

instance ends_keyLoop (start : Nat) (isAwaited : Bool) (left : Node) :
    (keyLoop g scope start isAwaited left).Ends := by
  unfold keyLoop
  infer_instance

instance ends_elementLoop (start : Nat) (left : Node) :
    (elementLoop g scope start left).Ends := by
  unfold elementLoop
  infer_instance

instance ends_loopOverDeclaration (start : Nat) (isAwaited : Bool) :
    (loopOverDeclaration g scope start isAwaited).Ends := by
  unfold loopOverDeclaration
  infer_instance

instance ends_loopOverExpression (start : Nat) (isAwaited : Bool) :
    (loopOverExpression g scope start isAwaited).Ends := by
  unfold loopOverExpression
  infer_instance

instance ends_forStatement : (forStatement g scope).Ends := by
  unfold forStatement
  infer_instance

instance ends_breakStatement : (breakStatement scope).Ends := by
  unfold breakStatement
  infer_instance

instance ends_continueStatement : (continueStatement scope).Ends := by
  unfold continueStatement
  infer_instance

instance ends_returnStatement : (returnStatement g scope).Ends := by
  unfold returnStatement
  infer_instance

instance ends_withStatement : (withStatement g scope).Ends := by
  unfold withStatement
  infer_instance

instance ends_switchStatement : (switchStatement g scope).Ends := by
  unfold switchStatement
  infer_instance

instance ends_throwStatement : (throwStatement g scope).Ends := by
  unfold throwStatement
  infer_instance

instance ends_tryStatement : (tryStatement g scope).Ends := by
  unfold tryStatement
  infer_instance

instance ends_debuggerStatement : debuggerStatement.Ends := by
  unfold debuggerStatement
  infer_instance

instance ends_emptyStatement : emptyStatement.Ends := by
  unfold emptyStatement
  infer_instance

instance ends_functionDeclaration (single : Bool) : (functionDeclaration g single scope).Ends := by
  unfold functionDeclaration
  infer_instance

instance ends_classDeclaration (single : Bool) : (classDeclaration g single scope).Ends := by
  unfold classDeclaration
  infer_instance

instance ends_importDeclaration : (importDeclaration scope).Ends := by
  unfold importDeclaration
  refine @gives_bind _ _ _ _ fun start => @gives_bind _ _ _ _ fun _ =>
    @gives_bind _ _ _ _ fun l => ?_
  split <;> infer_instance

instance ends_exportDeclaration : (exportDeclaration g scope).Ends := by
  unfold exportDeclaration
  infer_instance

instance ends_statementOfWord (single : Bool) (w : String) (escaped : Bool) :
    (statementOfWord g single scope w escaped).Ends := by
  unfold statementOfWord
  split <;> infer_instance

instance ends_statement (single : Bool) : (statement g single scope).Ends := by
  unfold statement
  refine @gives_bind _ _ _ _ fun l => ?_
  split <;> infer_instance

end Parse

/-! ### Readers that go on -/

/-- The reader stands behind the last lexeme it has taken and behind the comments it has met. -/
structure Reader.InOrder (r : Reader) : Prop where
  lastEnd : r.lastEnd ≤ r.lexed.start
  lexed : r.lexed.start ≤ r.lexed.stop
  descend : Descend 0 r.lexed.start r.comments

namespace Footing

theorem Holds.inOrder {F : Footing} {r : Reader} (h : F.Holds r) :
  r.InOrder
  := ⟨h.order, F.order h.admits, h.descend⟩

/-- The lexemes that begin at or behind two offsets, with the offsets at or behind the first one as
places. -/
def beyond (low mark : Nat) : Footing where
  admits l := (low ≤ l.start ∧ mark ≤ l.start) ∧ l.start ≤ l.stop
  place n := low ≤ n
  comment _ := True
  follows _ _ _ := True
  lacks _ := True
  start h := h.1.1
  stop h := Nat.le_trans h.1.1 h.2
  comments _ _ _ := trivial
  next h hclean := by
    obtain ⟨⟨hlow, hmark⟩, hstop⟩ := h
    obtain ⟨hstart, hnext⟩ := order_lex hclean
    exact ⟨⟨by omega, by omega⟩, hnext⟩
  regex h _ := by
    unfold Lexed.asRegex
    split
    · exact ⟨h.1, Nat.le_add_right ..⟩
    · exact h
  template h _ := by
    unfold Lexed.asTemplate
    split
    · exact ⟨h.1, Nat.le_add_right ..⟩
    · exact h
  operator h _ := by
    unfold Lexed.asOperator
    split
    · exact ⟨h.1, Nat.le_add_right ..⟩
    · exact h
  behind _ _ := trivial
  lack _ _ _ _ := trivial
  order h := h.2

variable {α : Type} [Placed α] {p : Parse α} {r r' : Reader} {a : α}

/-- A parse that keeps every footing goes on from where it starts: the reader stays in order and
does not go back, and the nodes of the result begin and end behind the lexeme before it. -/
theorem Keeps.goesOn (hp : ∀ F : Footing, F.Keeps True p) (hrun : p r = .ok a r')
    (hclean : r'.lexFaults = []) (h : r.InOrder) :
  r'.InOrder ∧ r.lastEnd ≤ r'.lastEnd ∧ r.lexed.start ≤ r'.lexed.start
    ∧ Placed.placed (r.lastEnd ≤ ·) a
  := by
  have hfirst : (beyond r.lastEnd 0).Holds r :=
    ⟨⟨⟨h.lastEnd, Nat.zero_le _⟩, h.lexed⟩, Nat.le_refl _, fun _ _ => trivial, trivial,
      h.lastEnd, h.descend⟩
  have hsecond : (beyond 0 r.lexed.start).Holds r :=
    ⟨⟨⟨Nat.zero_le _, Nat.le_refl _⟩, h.lexed⟩, Nat.zero_le _, fun _ _ => trivial, trivial,
      h.lastEnd, h.descend⟩
  obtain ⟨hend, hplaced⟩ := ((hp _).keeps hrun hclean).2 trivial hfirst
  obtain ⟨hstart, -⟩ := ((hp _).keeps hrun hclean).2 trivial hsecond
  exact ⟨hend.inOrder, hend.lastEnd, hstart.admits.1.2, hplaced⟩

/-- A parse that keeps every footing and gets through without a fault of a lexeme starts without
one. -/
theorem Keeps.clean (hp : ∀ F : Footing, F.Keeps True p) (hrun : p r = .ok a r')
    (hclean : r'.lexFaults = []) :
  r.lexFaults = []
  := ((hp (beyond 0 0)).keeps hrun hclean).1

end Footing

/-! ### Levels -/

/-- The rules of a level keep every footing, and its statements end with the last lexeme that is
taken for them. -/
class Level.Lawful (g : Level) : Prop extends g.Ends where
  keeps : ∀ F : Footing, g.Keeps F

attribute [instance] Level.Lawful.keeps

namespace Footing

variable {F : Footing} {pre : Prop} (g : Level) [g.Lawful] (scope : Scope)

/-! ### Choices -/

/-- The statements of a choice. -/
def branches : Parse (Node × Option Node) := do
  let consequent ← g.statement true scope
  let alternate ← if ← Parse.eatWord "else" then some <$> g.statement true scope else pure none
  pure (consequent, alternate)

instance keeps_branches : F.Keeps pre (branches g scope) := by
  unfold branches
  infer_instance

/-- The statement after `else` begins behind the end of the one before it. -/
theorem stop_le_start_branches {r r' : Reader} {x : Node × Option Node} (h : r.InOrder)
    (hrun : branches g scope r = .ok x r') (hclean : r'.lexFaults = []) :
  ∀ alternate ∈ x.2, x.1.span.stop ≤ alternate.span.start
  := by
  obtain ⟨consequent, s, hconsequent, hrest⟩ := bind_eq_ok hrun
  obtain ⟨hasElse, u, heat, hrest⟩ := bind_eq_ok hrest
  cases hasElse with
  | false =>
      cases hrest
      simp
  | true =>
      obtain ⟨alternate, w, halternate, hrest⟩ := bind_eq_ok hrest
      rw [map_eq_pure_bind] at halternate
      obtain ⟨n, v, hn, hv⟩ := bind_eq_ok halternate
      cases hv
      cases hrest
      have hu := Keeps.clean (fun F => (Level.Lawful.keeps F).statement True true scope) hn hclean
      have hs := Keeps.clean (fun _ => inferInstance) heat hu
      obtain ⟨hsorder, -⟩ := Keeps.goesOn
        (fun F => (Level.Lawful.keeps F).statement True true scope) hconsequent hs h
      obtain ⟨huorder, hlater, -⟩ := Keeps.goesOn (fun _ => inferInstance) heat hu hsorder
      obtain ⟨-, -, -, hplaced⟩ := Keeps.goesOn
        (fun F => (Level.Lawful.keeps F).statement True true scope) hn hclean huorder
      have hends := (Level.Ends.statement true scope).gives hconsequent
      rintro _ ⟨⟩
      calc
        consequent.span.stop = s.lastEnd := hends
        _ ≤ u.lastEnd := hlater
        _ ≤ n.span.start := hplaced.1.span.1

omit [g.Lawful] in
/-- A choice takes its test and then its statements. -/
theorem ifStatement_eq :
  Parse.ifStatement g scope = (do
    let start ← Parse.start
    Parse.advance
    let test ← Parse.inParentheses g scope
    let x ← branches g scope
    Parse.node start (.ifStatement test x.1 x.2))
  := by
  unfold Parse.ifStatement branches
  congr 1
  funext start
  congr 1
  funext _
  congr 1
  funext test
  simp only [bind_assoc, pure_bind]
  congr 1
  funext consequent
  congr 1
  funext hasElse
  cases hasElse <;> simp

/-! ### Switches -/

/-- The nodes of a list begin one after the other. -/
abbrev Ascending (nodes : List Node) : Prop := (nodes.map (·.span.start)).Pairwise (· ≤ ·)

section Many

variable {α β : Type} [Placed α] [Placed β] {done : Parse Bool} {item : Parse Node}

/-- What each step of a repetition keeps holds in the end. -/
theorem of_loopFor {step : α → Parse (α ⊕ β)} (hstep : ∀ (F : Footing) pre a,
      F.Keeps (pre ∧ F.Places a) (step a))
    {I : α → Reader → Prop} {Q : β → Prop}
    (hleft : ∀ {a r a' s}, I a r → step a r = .ok (.inl a') s → s.lexFaults = [] → I a' s)
    (hright : ∀ {a r b s}, I a r → step a r = .ok (.inr b) s → Q b)
    (budget : Text) {a : α} {r r' : Reader} {b : β} (h : I a r)
    (hrun : Parse.loopFor budget step a r = .ok b r') (hclean : r'.lexFaults = []) :
  Q b
  := by
  induction budget generalizing a r with
  | nil =>
      obtain ⟨f, s, hstops, -⟩ := unexpected_eq (α := β) r
      rw [Parse.loopFor, hstops] at hrun
      cases hrun
  | cons c budget ih =>
      rw [Parse.loopFor] at hrun
      obtain ⟨x, s, hfirst, hrest⟩ := bind_eq_ok hrun
      cases x with
      | inl a' =>
          have hkeeps := keeps_loopFor (hstep (beyond 0 0) True) budget a'
          exact ih (hleft h hfirst (hkeeps.keeps hrest hclean).1) hrest
      | inr b' =>
          cases hrest
          exact hright h hfirst

theorem Ascending.concat {nodes : List Node} {n : Node} (h : Ascending nodes)
    (hn : ∀ m ∈ nodes, m.span.start ≤ n.span.start) :
  Ascending (nodes ++ [n])
  := by
  rw [Ascending, List.map_append, List.pairwise_append]
  refine ⟨h, List.pairwise_singleton _ _, ?_⟩
  simpa using hn

/-- Items that begin where the reader stands begin one after the other. -/
theorem ascending_many (hdone : ∀ (F : Footing) pre, F.Keeps pre done)
    (hitem : ∀ (F : Footing) pre, F.Keeps pre item)
    (hstart : ∀ r n r', item r = .ok n r' → n.span.start = r.lexed.start)
    {nodes : List Node} {r r' : Reader} (h : r.InOrder)
    (hrun : Parse.many done item r = .ok nodes r') (hclean : r'.lexFaults = []) :
  Ascending nodes
  := by
  obtain ⟨r₀, s, hget, hloop⟩ := bind_eq_ok hrun
  cases hget
  let I (items : List Node) (r : Reader) : Prop :=
    r.InOrder ∧ Ascending items.reverse ∧ ∀ n ∈ items, n.span.start ≤ r.lexed.start
  refine of_loopFor (I := I) (fun F pre items => inferInstance) ?_ ?_ _
    ⟨h, List.Pairwise.nil, by simp⟩ hloop hclean
  · rintro items r items' s ⟨horder, hitems, hbefore⟩ hstep hclean
    obtain ⟨isDone, u, hfirst, hstep⟩ := bind_eq_ok hstep
    cases isDone with
    | true => cases hstep
    | false =>
        obtain ⟨n, v, hn, hrest⟩ := bind_eq_ok hstep
        cases hrest
        have hu := Keeps.clean (fun F => hitem F True) hn hclean
        obtain ⟨huorder, -, hle, -⟩ := Keeps.goesOn (fun F => hdone F True) hfirst hu horder
        obtain ⟨hsorder, -, hlater, -⟩ := Keeps.goesOn (fun F => hitem F True) hn hclean huorder
        have hbegins := hstart _ _ _ hn
        refine ⟨hsorder, ?_, ?_⟩
        · rw [List.reverse_cons]
          apply hitems.concat
          intro m hm
          have := hbefore m (List.mem_reverse.mp hm)
          omega
        · rw [List.forall_mem_cons]
          refine ⟨by omega, fun m hm => ?_⟩
          have := hbefore m hm
          omega
  · rintro items r nodes s ⟨-, hitems, -⟩ hstep
    obtain ⟨isDone, u, -, hstep⟩ := bind_eq_ok hstep
    cases isDone with
    | true =>
        cases hstep
        exact hitems
    | false =>
        obtain ⟨n, v, -, hrest⟩ := bind_eq_ok hstep
        cases hrest

end Many

end Footing

/-! ### Lowered trees -/

theorem diverges_moved {kind : Kind Node} :
  (kind.moved id).Diverges ↔ kind.Diverges
  := by
  cases kind with
  | ifStatement test consequent alternate => cases alternate <;> simp [Kind.moved, Kind.Diverges]
  | switchStatement discriminant cases =>
      simp [Kind.moved, Kind.Diverges, List.map_map, Function.comp_def]
  | _ => rfl

/-- Whether the branches go on from each other does not depend on the numbers of the nodes. -/
theorem diverges_of_moved {n m : Node} (h : n.Diverges) (hmoved : m.moved id = n.moved id) :
  m.Diverges
  := by
  have hiff (k : Node) : (k.moved id).Diverges ↔ k.Diverges := by
    unfold Node.Diverges
    rw [Node.preorder_moved, List.forall_mem_map]
    simp only [Node.kind_moved, diverges_moved]
  rwa [← hiff, hmoved, hiff]

end Stencil.Script
