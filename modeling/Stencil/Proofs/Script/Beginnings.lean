import Stencil.Proofs.Script.Edges
import Stencil.Proofs.Script.Numbering
import Stencil.Proofs.Script.Seam.Arrows

/-!
# Where an expression is read as a statement

Some expressions begin as other statements do: an object like a block, a function and a class like
their declarations.  Where such a lexeme stands at the beginning of a statement, the other statement
is read, whatever follows.  Where neither such a lexeme nor a word that begins a statement stands
there, an expression is read.
-/

namespace Stencil

open Text

namespace Script

/-! ### Statements that begin as expressions do -/

/-- The reader stands at a lexeme with which both an expression and another statement may begin. -/
def Reader.AtOtherStatement (r : Reader) : Prop :=
  r.lexed.lexeme = .mark "\x7b" ∨ r.lexed.lexeme.isWord "class" = true
    ∨ Parse.atFunction r = .ok true r

/-- The types of these statements. -/
def otherStatements : List String := ["BlockStatement", "ClassDeclaration", "FunctionDeclaration"]

namespace Parse

variable {g : Level} {single : Bool} {scope : Scope} {r s : Reader} {n : Node}

/-- The node begins where the reader stands and is one of the other statements. -/
def IsOtherAt (r : Reader) (n : Node) : Prop :=
  n.span.start = r.lexed.start ∧ n.typeName ∈ otherStatements

theorem isOtherAt_block (h : block g scope r = .ok n s) :
  IsOtherAt r n
  := by
  obtain ⟨_, _, hstart, h⟩ := Footing.bind_eq_ok h
  cases hstart
  obtain ⟨_, _, -, h⟩ := Footing.bind_eq_ok h
  obtain ⟨_, _, -, h⟩ := Footing.bind_eq_ok h
  obtain ⟨_, _, -, h⟩ := Footing.bind_eq_ok h
  cases h
  exact ⟨rfl, List.mem_cons_self ..⟩

theorem isOtherAt_classDeclaration (h : classDeclaration g single scope r = .ok n s) :
  IsOtherAt r n
  := by
  obtain ⟨_, _, hstart, h⟩ := Footing.bind_eq_ok h
  cases hstart
  obtain ⟨_, _, -, h⟩ := Footing.bind_eq_ok h
  obtain ⟨_, _, -, h⟩ := Footing.bind_eq_ok h
  cases h
  exact ⟨rfl, List.mem_cons_of_mem _ (List.mem_cons_self ..)⟩

theorem isOtherAt_functionDeclaration (h : functionDeclaration g single scope r = .ok n s) :
  IsOtherAt r n
  := by
  obtain ⟨_, _, hstart, h⟩ := Footing.bind_eq_ok h
  cases hstart
  obtain ⟨_, _, -, h⟩ := Footing.bind_eq_ok h
  obtain ⟨⟨_, _, _, _⟩, _, -, h⟩ := Footing.bind_eq_ok h
  obtain ⟨_, _, -, h⟩ := Footing.bind_eq_ok h
  cases h
  exact ⟨rfl, List.mem_cons_of_mem _ (List.mem_cons_of_mem _ (List.mem_cons_self ..))⟩

/-- A semicolon is an empty statement. -/
theorem statement_semicolon (h : r.lexed.lexeme = .mark ";") :
  statement g single scope r = .ok (.mk 0 r.span .emptyStatement) r.next
  := by
  obtain ⟨⟨lexeme, _, _, _, _, _, _, _⟩, _, _, _, _, _, _, _⟩ := r
  obtain rfl : lexeme = .mark ";" := h
  rfl

theorem atFunction_eq (r : Reader) :
  atFunction r = if r.lexed.lexeme.isWord "function" then .ok true r
    else if r.lexed.lexeme.isWord "async" then
      nextIs (fun l newLine => l.isWord "function" && !newLine) r
    else .ok false r
  := by
  change (if _ then _ else _ : Parse Bool) r = _
  split
  · rfl
  · change (if _ then _ else _ : Parse Bool) r = _
    split <;> rfl

theorem statement_apply (r : Reader) :
  statement g single scope r = (match r.lexed.lexeme with
    | .mark "\x7b" => block g scope
    | .mark ";" => emptyStatement
    | .mark "@" => do
      decorators g scope
      if ← atWord "class" then classDeclaration g single scope
      else if ← atWord "export" then exportDeclaration g scope
      else unexpected
    | .word w escaped => statementOfWord g single scope w escaped
    | _ => expressionStatement g scope : Parse Node) r
  := rfl

/-- Where one of the other statements may begin, it is read. -/
theorem isOtherAt_statement (hat : r.AtOtherStatement)
    (h : statement g single scope r = .ok n s) :
  IsOtherAt r n
  := by
  rw [statement_apply] at h
  rcases hat with hbrace | hclass | hfunction
  · rw [hbrace] at h
    exact isOtherAt_block h
  · cases hl : r.lexed.lexeme with
    | word w escaped =>
        rw [hl] at h hclass
        obtain rfl : w = "class" := by simpa [Lexeme.isWord] using hclass
        exact isOtherAt_classDeclaration h
    | _ =>
        rw [hl] at hclass
        cases hclass
  · cases hl : r.lexed.lexeme with
    | word w escaped =>
        rw [hl] at h
        have hw : w = "function" ∨ w = "async" := by
          rw [atFunction_eq, hl] at hfunction
          simp only [Lexeme.isWord, beq_iff_eq] at hfunction
          split at hfunction
          · exact Or.inl ‹_›
          · split at hfunction
            · exact Or.inr ‹_›
            · cases hfunction
        have hdeclared : statementOfWord g single scope w escaped r
            = functionDeclaration g single scope r := by
          have hbind : ∀ f : Bool → Parse Node, (atFunction >>= f) r = f true r := by
            intro f
            change EStateM.bind atFunction f r = _
            rw [EStateM.bind, hfunction]
          rcases hw with rfl | rfl
          · exact hbind _
          · exact hbind _
        exact isOtherAt_functionDeclaration (hdeclared.symm.trans h)
    | _ =>
        rw [atFunction_eq, hl] at hfunction
        cases hfunction

end Parse

/-! ### Statements that are expressions -/

/-- The words that begin a statement and no expression, or a declaration and an expression. -/
def statementWords : List String :=
  ["if", "do", "while", "for", "continue", "break", "with", "switch", "throw", "try", "debugger",
    "class", "export", "return", "var", "const", "function"]

/-- The lexeme that the reader stands at begins a statement that is no expression, or may begin
one. -/
def Reader.beginsOther (r : Reader) : Bool :=
  match r.lexed.lexeme with
  | .mark m => m ∈ ["\x7b", ";", "@"]
  | .word w escaped =>
    w ∈ statementWords || (w == "let" && !escaped)
      || (w == "import" && !(r.lexed.after.lexeme.isMark "." || r.lexed.after.lexeme.isMark "("))
      || (w == "using" && r.lexed.after.lexeme.isName && !r.lexed.after.newLine)
      || (w == "async" && r.lexed.after.lexeme.isWord "function" && !r.lexed.after.newLine)
  | _ => false

namespace Parse

variable {g : Level} {single : Bool} {scope : Scope} {r s u : Reader} {n : Node}

theorem atFunction_of_word {w : String} {escaped : Bool} (hl : r.lexed.lexeme = .word w escaped)
    (hfunction : w ≠ "function")
    (hasync : (w == "async" && r.lexed.after.lexeme.isWord "function" && !r.lexed.after.newLine)
      = false) :
  atFunction r = .ok false r
  := by
  have hword : (Lexeme.word w escaped).isWord "function" = false :=
    beq_eq_false_iff_ne.mpr hfunction
  rw [atFunction_eq, hl, hword, if_neg Bool.false_ne_true]
  split
  · next h =>
      have h : (w == "async") = true := h
      rw [h, Bool.true_and] at hasync
      rw [Seam.nextIs_apply]
      exact congrArg (EStateM.Result.ok · r) hasync
  · rfl

theorem statementOfWord_of_expression {w : String} {escaped : Bool}
    (hl : r.lexed.lexeme = .word w escaped) (h : r.beginsOther = false) :
  statementOfWord g single scope w escaped r = expressionStatement g scope r
  := by
  unfold Reader.beginsOther at h
  rw [hl] at h
  simp only [Bool.or_eq_false_iff, decide_eq_false_iff_not] at h
  obtain ⟨⟨⟨⟨hwords, hlet⟩, himport⟩, husing⟩, hasync⟩ := h
  unfold statementOfWord
  split
  case h_17 =>
    have hescaped : escaped = true := by simpa using hlet
    rw [if_pos hescaped]
  case h_18 =>
    rw [Seam.bind_of_ok _ (Seam.nextIs_apply _ _)]
    have hnext : (r.lexed.after.lexeme.isMark "." || r.lexed.after.lexeme.isMark "(") = true := by
      rwa [beq_self_eq_true, Bool.true_and, Bool.not_eq_false'] at himport
    change (if (r.lexed.after.lexeme.isMark "." || r.lexed.after.lexeme.isMark "(") = true then _
      else _ : Parse Node) r = _
    rw [if_pos hnext]
  case h_19 =>
    rw [Seam.bind_of_ok _ (Seam.nextIs_apply _ _)]
    rw [beq_self_eq_true, Bool.true_and] at husing
    change (if (r.lexed.after.lexeme.isName && !r.lexed.after.newLine) = true then _
      else _ : Parse Node) r = _
    rw [if_neg (ne_true_of_eq_false husing)]
  case h_20 =>
    have hfunction : w ≠ "function" := by
      rintro rfl
      exact hwords (by decide)
    rw [Seam.bind_of_ok _ (atFunction_of_word hl hfunction hasync)]
    rfl
  all_goals exact (hwords (by decide)).elim

/-- Where no other statement begins, an expression is read as a statement. -/
theorem statement_of_expression (h : r.beginsOther = false) :
  statement g single scope r = expressionStatement g scope r
  := by
  rw [statement_apply]
  generalize hl : r.lexed.lexeme = l
  split
  · rw [Reader.beginsOther, hl] at h
    cases h
  · rw [Reader.beginsOther, hl] at h
    cases h
  · rw [Reader.beginsOther, hl] at h
    cases h
  · exact statementOfWord_of_expression hl h
  · rfl

/-- Behind an expression a semicolon ends the statement. -/
theorem expressionStatement_of_semicolon (hrun : expression g scope r = .ok n u)
    (hmark : u.lexed.lexeme = .mark ";") :
  expressionStatement g scope r
    = .ok (.mk 0 ⟨r.lexed.start, u.lexed.stop⟩ (.expressionStatement n false)) u.next
  := by
  have hends : endStatement u = .ok () u.next := by
    obtain ⟨⟨lexeme, _, _, _, _, _, _, _⟩, _, _, _, _, _, _, _⟩ := u
    obtain rfl : lexeme = .mark ";" := hmark
    rfl
  change (expression g scope >>= fun n => _) r = _
  rw [Seam.bind_of_ok _ hrun]
  change (if n.name?.isSome && u.lexed.lexeme.isMark ":" then _ else _ : Parse Node) u = _
  have hcolon : u.lexed.lexeme.isMark ":" = false := by
    rw [hmark]
    rfl
  rw [hcolon, Bool.and_false, if_neg Bool.false_ne_true, endExpression, Seam.bind_of_ok _ hends]
  rfl

/-! ### The second statement of a script -/

section Many

variable {done : Parse Bool} {item : Parse Node} {taken nodes : List Node} {r r' : Reader}

/-- A step of a repetition that collects nodes. -/
abbrev collect (done : Parse Bool) (item : Parse Node) (taken : List Node) :
    Parse (List Node ⊕ List Node) := do
  if ← done then pure (.inr taken.reverse) else pure (.inl ((← item) :: taken))

/-- A repetition ends with the nodes it has taken, or takes one more and goes on. -/
theorem loopFor_collect {c : Char} {budget : Text}
    (hrun : loopFor (c :: budget) (collect done item) taken r = .ok nodes r') :
  nodes = taken.reverse ∧ done r = .ok true r'
    ∨ ∃ u n v, done r = .ok false u ∧ item u = .ok n v
      ∧ loopFor budget (collect done item) (n :: taken) v = .ok nodes r'
  := by
  rw [loopFor] at hrun
  obtain ⟨x, v, hstep, hrest⟩ := Footing.bind_eq_ok hrun
  obtain ⟨isDone, u, hdone, hstep⟩ := Footing.bind_eq_ok hstep
  cases isDone with
  | true =>
      cases hstep
      cases hrest
      exact Or.inl ⟨rfl, hdone⟩
  | false =>
      obtain ⟨n, v, hitem, hstep⟩ := Footing.bind_eq_ok hstep
      cases hstep
      exact Or.inr ⟨u, n, v, hdone, hitem, hrest⟩

/-- A repetition keeps the nodes that were taken. -/
theorem exists_append_of_loopFor {budget : Text}
    (hrun : loopFor budget (collect done item) taken r = .ok nodes r') :
  ∃ rest, nodes = taken.reverse ++ rest
  := by
  induction budget generalizing taken r with
  | nil =>
      obtain ⟨f, s, hstops, -⟩ := Footing.unexpected_eq (α := List Node) r
      rw [loopFor, hstops] at hrun
      cases hrun
  | cons c budget ih =>
      rcases loopFor_collect hrun with ⟨rfl, -⟩ | ⟨_, n, _, -, -, hrest⟩
      · exact ⟨[], (List.append_nil _).symm⟩
      · obtain ⟨rest, rfl⟩ := ih hrest
        exact ⟨n :: rest, by simp⟩

/-- A repetition takes one more node where it is not done. -/
theorem loopFor_collect_more {c : Char} {budget : Text} {n : Node} {s : Reader}
    (hdone : done r = .ok false r) (hitem : item r = .ok n s) :
  loopFor (c :: budget) (collect done item) taken r
    = loopFor budget (collect done item) (n :: taken) s
  := by
  have hstep : collect done item taken r = .ok (.inl (n :: taken)) s := by
    rw [collect, Seam.bind_of_ok _ hdone, if_neg Bool.false_ne_true]
    exact Seam.bind_of_ok _ hitem
  rw [loopFor, Seam.bind_of_ok _ hstep]

theorem loopFor_collect_done {c : Char} {budget : Text} (hdone : done r = .ok true r) :
  loopFor (c :: budget) (collect done item) taken r = .ok taken.reverse r
  := by
  have hstep : collect done item taken r = .ok (.inr taken.reverse) r := by
    rw [collect, Seam.bind_of_ok _ hdone]
    rfl
  rw [loopFor, Seam.bind_of_ok _ hstep]
  rfl

end Many

/-- A script of two statements. -/
theorem script_of_two {a b : Node} {v : Reader} (hfirst : r.lexed.lexeme.isEnd = false)
    (ha : g.statement false {} r = .ok a u) (hsecond : u.lexed.lexeme.isEnd = false)
    (hb : g.statement false {} u = .ok b v) (hend : v.lexed.lexeme.isEnd = true) :
  script g r = .ok (markDirectives [a, b]) v
  := by
  have hmany : many atEnd (g.statement false {}) r = .ok [a, b] v := by
    have hr : atEnd r = .ok false r := congrArg (EStateM.Result.ok · r) hfirst
    have hu : atEnd u = .ok false u := congrArg (EStateM.Result.ok · u) hsecond
    have hv : atEnd v = .ok true v := congrArg (EStateM.Result.ok · v) hend
    change loopFor (' ' :: ' ' :: ' ' :: r.lexed.rest) (collect atEnd (g.statement false {})) [] r
      = _
    rw [loopFor_collect_more hr ha, loopFor_collect_more hu hb, loopFor_collect_done hv]
    rfl
  exact Seam.bind_of_ok _ hmany

end Parse

/-- At a lexeme with which another statement may begin the text has not come to its end. -/
theorem Reader.AtOtherStatement.isEnd_eq_false {r : Reader} (h : r.AtOtherStatement) :
  r.lexed.lexeme.isEnd = false
  := by
  cases hl : r.lexed.lexeme with
  | stop | malformed =>
      rcases h with h | h | h
      · rw [hl] at h
        cases h
      · rw [hl] at h
        cases h
      · rw [Parse.atFunction_eq, hl] at h
        cases h
  | _ => rfl

/-- A script that begins with a semicolon and goes on behind it has a second statement, which is
read there. -/
theorem Parsed.exists_second_of_ofText {t : Text} {parsed : Parsed} (h : ofText t = .ok parsed)
    (hfirst : (Reader.atStart t).lexed.lexeme = .mark ";")
    (hmore : (Reader.atStart t).next.lexed.lexeme.isEnd = false) :
  ∃ g m n rest r, parsed.tree = .mk 0 ⟨0, Text.width t⟩ (.program (m :: n :: rest))
    ∧ g.Lawful ∧ Parse.statement g false {} (Reader.atStart t).next = .ok n r ∧ r.lexFaults = []
  := by
  obtain ⟨body, s, hrun, hfaults, rfl⟩ := exists_run_of_ofText h
  have hclean := s.lexFaults_of_allFaults hfaults
  obtain ⟨nodes, s, hmany, hrest⟩ := Footing.bind_eq_ok hrun
  cases hrest
  obtain ⟨_, _, hget, hloop⟩ := Footing.bind_eq_ok hmany
  cases hget
  rcases Parse.loopFor_collect hloop with ⟨-, hdone⟩ | ⟨u, m, v, hdone, hm, hloop⟩
  · change EStateM.Result.ok (Reader.atStart t).lexed.lexeme.isEnd _ = _ at hdone
    rw [hfirst] at hdone
    cases hdone
  -- the first statement is the semicolon, and the second one is read behind it
  obtain ⟨-, rfl⟩ := EStateM.Result.ok.inj hdone
  have hempty : (Level.ofHeight (t.length + 2)).statement false {} (Reader.atStart t)
      = .ok (.mk 0 (Reader.atStart t).span .emptyStatement) (Reader.atStart t).next :=
    Parse.statement_semicolon hfirst
  obtain ⟨rfl, rfl⟩ := EStateM.Result.ok.inj (hempty.symm.trans hm)
  rcases Parse.loopFor_collect hloop with ⟨-, hdone⟩ | ⟨u, n, v, hdone, hn, hloop⟩
  · have hend : (Reader.atStart t).next.lexed.lexeme.isEnd = true :=
      (EStateM.Result.ok.inj hdone).1
    rw [hmore] at hend
    cases hend
  obtain ⟨-, rfl⟩ := EStateM.Result.ok.inj hdone
  obtain ⟨rest, rfl⟩ := Parse.exists_append_of_loopFor hloop
  have hkeeps : ∀ taken, (edges t).Keeps (True ∧ (edges t).Places taken)
      (Parse.collect Parse.atEnd ((Level.ofHeight (t.length + 2)).statement false {}) taken) := by
    intro taken
    infer_instance
  obtain ⟨hv, -⟩ := (Footing.keeps_loopFor hkeeps _ _).keeps hloop hclean
  exact ⟨Level.ofHeight (t.length + 1), _, n, _, v, rfl, inferInstance, hn, hv⟩

/-- A statement that is read at a lexeme of a text begins before the end of the text, and does not
end before the lexeme before it. -/
theorem bounds_of_statement {t : Text} {g : Level} [g.Lawful] {single : Bool} {scope : Scope}
    {r s : Reader} {n : Node} (hholds : (edges t).Holds r) (hmore : r.lexed.lexeme.isEnd = false)
    (hrun : Parse.statement g single scope r = .ok n s) (hclean : s.lexFaults = [])
    (hstart : n.span.start = r.lexed.start) :
  n.span.start < width t ∧ r.lastEnd ≤ n.span.stop
  := by
  have hin : r.lexed.In t := hholds.admits
  constructor
  · have hhere : r.lexed.here ≠ [] := by
      intro hnil
      rw [hin.stops hnil] at hmore
      cases hmore
    obtain ⟨front, heq, hfront⟩ := hin.cut
    obtain ⟨c, rest, hrest⟩ := List.exists_cons_of_ne_nil hhere
    have hc := c.utf8Size_pos
    rw [hstart, heq, hrest, width_append, width_cons]
    omega
  · have hends : n.span.stop = s.lastEnd := (Parse.ends_statement g scope single).gives hrun
    rw [hends]
    exact (Footing.Keeps.goesOn (fun _ => inferInstance) hrun hclean hholds.inOrder).2.1

/-- A lowered program has the statements of the program. -/
theorem exists_body_of_lowered {span : Span} {body : List Node} {i : Nat} {tree : Node}
    (h : (Node.mk i span (.program body)).lowered = .ok tree) :
  ∃ top lowered, tree = .mk top span (.program lowered)
    ∧ ∀ n ∈ body, ∃ m ∈ lowered, m.span = n.span ∧ m.typeName = n.typeName
  := by
  obtain ⟨hmoved, -⟩ := run_of_lowered h
  obtain ⟨top, span', kind⟩ := tree
  rw [Node.moved, Node.moved, Kind.moved, movedAll_eq_map] at hmoved
  injection hmoved with _ hspan hkind
  cases kind with
  | program lowered =>
      rw [Kind.moved, movedAll_eq_map, Kind.program.injEq] at hkind
      refine ⟨top, lowered, by rw [show span' = span from hspan], ?_⟩
      intro n hn
      have hmem : n.moved id ∈ lowered.map (Node.moved id) := hkind ▸ List.mem_map_of_mem hn
      obtain ⟨m, hm, heq⟩ := List.mem_map.mp hmem
      refine ⟨m, hm, ?_, ?_⟩
      · have hspan := congrArg Node.span heq
        rwa [Node.span_moved, Node.span_moved] at hspan
      · simpa using congrArg Node.typeName heq
  | _ => cases hkind

end Script

end Stencil
