import Stencil.Proofs.Script.Beginnings
import Stencil.Proofs.Script.Brackets
import Stencil.Proofs.Script.Seam.Parentheses
import Stencil.Proofs.Script.Shape

/-!
# Expressions in parentheses and between semicolons

The code of an output tag stands between two semicolons in the script.  Where the code is a single
expression in parentheses, it is the same expression between semicolons: the script is accepted, and
its statements are an empty one and the expression.  The code must not begin as another statement
does.
-/

namespace Stencil

open Text

namespace Script

/-! ### The two scripts -/

/-- The script view of an output tag with the given code and spaces around it. -/
def outputScript (e : Text) : Text := ofString "  ; " ++ (e ++ ofString " \n;")

/-- The script begins with a semicolon. -/
theorem lexed_outputScript (e : Text) :
  (Reader.atStart (outputScript e)).lexed
    = ⟨.mark ";", ';' :: ' ' :: (e ++ ofString " \n;"), 2, 3, ' ' :: (e ++ ofString " \n;"), true,
        [], []⟩
  := by
  have hconsumed := consumed_append [';'] (' ' :: (e ++ ofString " \n;"))
  have hlexed : (Reader.atStart (outputScript e)).lexed
      = ⟨.mark ";", ';' :: ' ' :: (e ++ ofString " \n;"), 2,
        2 + consumed (';' :: ' ' :: (e ++ ofString " \n;")) (' ' :: (e ++ ofString " \n;")),
        ' ' :: (e ++ ofString " \n;"), true, [], []⟩ := rfl
  rw [hlexed]
  rw [List.singleton_append] at hconsumed
  rw [hconsumed]
  rfl

/-- The statement behind the first semicolon begins before the end of the script and ends behind the
semicolon. -/
theorem bounds_of_second {e : Text} {g : Level} [g.Lawful] {single : Bool} {scope : Scope}
    {s : Reader} {n : Node}
    (hmore : (Reader.atStart (outputScript e)).next.lexed.lexeme.isEnd = false)
    (hrun : Parse.statement g single scope (Reader.atStart (outputScript e)).next = .ok n s)
    (hclean : s.lexFaults = [])
    (hstart : n.span.start = (Reader.atStart (outputScript e)).next.lexed.start) :
  n.span.start < width (outputScript e) ∧ 3 ≤ n.span.stop
  := by
  have hlexed := lexed_outputScript e
  have hholds : (edges (outputScript e)).Holds (Reader.atStart (outputScript e)).next := by
    have hkeeps : (edges (outputScript e)).Keeps True Parse.advanceName := inferInstance
    have hnext := Footing.Keeps.clean (fun F => inferInstance) hrun hclean
    refine ((hkeeps.keeps rfl hnext).2 trivial ((bears_edges _).first ?_)).1
    change (Reader.atStart (outputScript e)).lexed.faults = []
    rw [hlexed]
  have hlastEnd : (Reader.atStart (outputScript e)).next.lastEnd = 3 := by
    change (Reader.atStart (outputScript e)).lexed.stop = 3
    rw [hlexed]
  rw [← hlastEnd]
  exact bounds_of_statement hholds hmore hrun hclean hstart

/-- A text in parentheses. -/
def inParentheses (e : Text) : Text := ofString "(" ++ (e ++ ofString ")")

/-- The expression that makes up a script in parentheses: the only statement is as wide as the
script, and the expression begins behind its beginning. -/
def Node.parenthesized? (tree : Node) : Option Node :=
  match tree.kind with
  | .program [.mk _ span (.expressionStatement e _)] =>
    if span == tree.span && span.start < e.span.start then some e else none
  | _ => none

/-- The code between the parentheses and between the semicolons of an output tag. -/
def outputSeam (e : Text) : Seam where
  code := e
  start := 1
  shift := 3
  before := 3
  before_le := by decide

namespace Parse

variable {n x : Node} {r s : Reader}

/-- A single statement is no directive if its expression begins behind its beginning. -/
theorem eq_of_markDirectives {nodes : List Node} {d : Bool} (h : markDirectives nodes = [n])
    (hkind : n.kind = .expressionStatement x d) (hbehind : n.span.start < x.span.start) :
  nodes = [n]
  := by
  have hmark (k : Node) (hk : k.asDirective? = some n) : False := by
    unfold Node.asDirective? at hk
    split at hk
    · split at hk
      · split at hk
        · next hstart =>
            cases hk
            cases hkind
            exact absurd (beq_iff_eq.mp hstart) (Nat.ne_of_gt hbehind)
        · cases hk
      · cases hk
    · cases hk
  cases nodes with
  | nil => cases h
  | cons k rest =>
      unfold markDirectives at h
      split at h
      · next m hk =>
          obtain ⟨rfl, -⟩ := List.cons.inj h
          exact (hmark k hk).elim
      · exact h

theorem expressionStatement_gives {g : Level} {scope : Scope} {d : Bool}
    (h : expressionStatement g scope r = .ok n s) (hkind : n.kind = .expressionStatement x d) :
  d = false
    ∧ ∃ u, expression g scope r = .ok x u ∧ endStatement u = .ok () s ∧ n.span.stop = s.lastEnd
  := by
  obtain ⟨start, _, hstart, h⟩ := Footing.bind_eq_ok h
  cases hstart
  obtain ⟨k, u, hk, h⟩ := Footing.bind_eq_ok h
  obtain ⟨b, v, hat, h⟩ := Footing.bind_eq_ok h
  cases hat
  split at h
  · obtain ⟨_, v, -, h⟩ := Footing.bind_eq_ok h
    obtain ⟨body, v, -, h⟩ := Footing.bind_eq_ok h
    cases h
    cases hkind
  · obtain ⟨_, v, hend, h⟩ := Footing.bind_eq_ok h
    cases h
    cases hkind
    exact ⟨rfl, u, hk, hend, rfl⟩

/-- A script that begins with a parenthesis and consists of a single expression. -/
theorem exists_expression_of_script {g : Level} {body : List Node} {d : Bool}
    (hopen : r.lexed.lexeme = .mark "(") (hrun : script g.above r = .ok body s)
    (hbody : body = [n]) (hkind : n.kind = .expressionStatement x d)
    (hbehind : n.span.start < x.span.start) :
  d = false
    ∧ ∃ u, expression g {} r = .ok x u ∧ endStatement u = .ok () s ∧ n.span.stop = s.lastEnd
  := by
  obtain ⟨nodes, s', hmany, hrest⟩ := Footing.bind_eq_ok hrun
  cases hrest
  obtain ⟨_, _, hget, hloop⟩ := Footing.bind_eq_ok hmany
  cases hget
  obtain rfl := eq_of_markDirectives hbody hkind hbehind
  rcases loopFor_collect hloop with ⟨hnil, -⟩ | ⟨u, m, v, hdone, hm, hloop⟩
  · cases hnil
  obtain ⟨-, rfl⟩ := EStateM.Result.ok.inj hdone
  rcases loopFor_collect hloop with ⟨hsingle, hdone⟩ | ⟨u, m', v, hdone, hm', hloop⟩
  · cases hsingle
    obtain ⟨-, rfl⟩ := EStateM.Result.ok.inj hdone
    have hstatement : statement g false {} r = expressionStatement g {} r := by
      rw [statement_apply, hopen]
      rfl
    exact expressionStatement_gives (hstatement.symm.trans hm) hkind
  · obtain ⟨rest, hrest⟩ := exists_append_of_loopFor hloop
    cases hrest

/-- An expression that begins with a parenthesis but behind its beginning is what stands in the
parentheses. -/
theorem expression_gives {g : Level} {scope : Scope} (hopen : r.lexed.lexeme = .mark "(")
    (h : expression g.above scope r = .ok n s) :
  n.span.start = r.lexed.start
    ∨ ∃ places m, parenthesized g scope { r with notArrows := places } = .ok n m ∧ m.Idles s
  := by
  rw [Seam.expression_eq] at h
  obtain ⟨start, _, hstart, h⟩ := Footing.bind_eq_ok h
  cases hstart
  obtain ⟨first, m, hfirst, h⟩ := Footing.bind_eq_ok h
  obtain ⟨isComma, m', hat, h⟩ := Footing.bind_eq_ok h
  cases hat
  split at h
  · obtain ⟨items, m', -, h⟩ := Footing.bind_eq_ok h
    cases h
    exact .inl rfl
  · cases h
    exact assignment_gives hopen hfirst

/-- A statement ends behind a semicolon or where the expression does. -/
theorem endStatement_gives {u : Reader} (h : endStatement u = .ok () s) :
  s = u ∨ u.lexed.lexeme = .mark ";" ∧ s = u.next
  := by
  rcases Footing.endStatement_eq u with heq | ⟨heq, -⟩
  · rw [heq] at h
    change ((eat ";" >>= fun _ => pure ()) : Parse Unit) u = _ at h
    rw [Seam.eat_bind] at h
    change (if u.lexed.lexeme.isMark ";" = true then _ else _ : Parse Unit) u = _ at h
    split at h
    · next hmark =>
        have hmark := Seam.eq_mark_of_isMark hmark
        rw [Seam.bind_of_ok _ (Seam.advance_mark hmark)] at h
        cases h
        exact .inr ⟨hmark, rfl⟩
    · cases h
      exact .inl rfl
  · rw [heq] at h
    cases h

end Parse

/-- A script in parentheses begins with one. -/
theorem lexed_inParentheses (e : Text) :
  Reader.atStart (inParentheses e)
    = ⟨⟨.mark "(", '(' :: (e ++ [')']), 0, 1, e ++ [')'], true, [], []⟩, 0, [], [], [], [], [], []⟩
  := by
  have hconsumed := consumed_append ['('] (e ++ [')'])
  rw [List.singleton_append] at hconsumed
  have hat : Reader.atStart (inParentheses e)
      = ⟨⟨.mark "(", '(' :: (e ++ [')']), 0, 0 + consumed ('(' :: (e ++ [')'])) (e ++ [')']),
          e ++ [')'], true, [], []⟩, 0, [], [], [], [], [], []⟩ := rfl
  rw [hat, hconsumed]
  rfl

/-- The readers of the script in parentheses and of the script between semicolons. -/
theorem begins_outputSeam (e : Text) (places : List Nat) :
  (outputSeam e).Begins { Reader.atStart (inParentheses e) with notArrows := places }
    (Reader.atStart (outputScript e)).next
  := by
  have hlexed := lexed_outputScript e
  have hskip : lex 3 false (' ' :: (e ++ ofString " \n;"))
      = lex 4 false (e ++ ofString " \n;") := by
    rw [lex_eq, lex_eq, skipTrivia_separator (by decide) (by decide)]
    rfl
  have hnext : (Reader.atStart (outputScript e)).next.lexed
      = lex 4 false (e ++ ofString " \n;") := by
    rw [← hskip]
    change lex (Reader.atStart (outputScript e)).lexed.stop false
      (Reader.atStart (outputScript e)).lexed.rest = _
    rw [hlexed]
  rw [lexed_inParentheses]
  refine ⟨rfl, rfl, rfl, rfl, rfl, hnext, ?_, rfl, rfl, ?_, rfl, rfl⟩
  · change (Reader.atStart (outputScript e)).lexed.stop = 3
    rw [hlexed]
  · change (Reader.atStart (outputScript e)).next.lexed.faults
      ++ (Reader.atStart (outputScript e)).lexed.faults = _
    rw [hlexed, List.append_nil]

theorem width_inParentheses (e : Text) :
  width (inParentheses e) = (outputSeam e).stop + 1
  := by
  have hparts : width (inParentheses e) = 1 + (width e + 1) := by
    rw [inParentheses, width_append, width_append]
    rfl
  rw [hparts, Seam.stop]
  change _ = 1 + width e + 1
  omega

/-- A text in parentheses does not end with a semicolon. -/
theorem stop_ne_of_semicolon {e : Text} {l : Lexed} (hin : l.In (inParentheses e))
    (hmark : l.lexeme = .mark ";") :
  l.stop ≠ width (inParentheses e)
  := by
  intro hstop
  obtain ⟨front, heq, hfront⟩ := hin.cut
  have hhere : l.here = [';'] ++ l.rest := hin.mark hmark
  have hwidth := congrArg width heq
  rw [hin.stop, hhere, consumed_append] at hstop
  rw [hhere, width_append, width_append] at hwidth
  have hrest : l.rest = [] := by
    have hlength := length_le_width l.rest
    exact List.eq_nil_of_length_eq_zero (by omega)
  rw [hhere, hrest] at heq
  have hlast := congrArg List.getLast? heq
  have hclose : (inParentheses e).getLast? = some ')' := by
    change (['('] ++ (e ++ [')'])).getLast? = _
    rw [← List.append_assoc, List.getLast?_concat]
  rw [hclose, List.append_nil, List.getLast?_concat] at hlast
  exact absurd (Option.some.inj hlast) (by decide)

/-- The offsets of the parentheses of a script for which it was tried in vain to read an arrow
function. -/
def triedInVain (t : Text) : List Nat :=
  (Parse.final (Parse.script (Level.ofHeight (t.length + 2))) (Reader.atStart t)).notArrows

/-- Behind a parenthesis for which it was tried in vain to read an arrow function no arrow is
written.  The outermost parenthesis does not count. -/
def SettlesArrows (t : Text) : Prop :=
  ∀ n ∈ triedInVain t, 0 < n → ∀ rest, t.Cut n rest → ¬ ['=', '>'] <:+: rest

/-- In a text without arrows nothing is to be settled. -/
theorem settlesArrows_of_no_arrow {t : Text} (h : ¬ ['=', '>'] <:+: t) :
  SettlesArrows t
  := by
  rintro n - - rest ⟨front, rfl, -⟩ harrow
  exact h (harrow.trans (List.suffix_append front rest).isInfix)

theorem not_live_of_settlesArrows {e : Text} {n : Nat} (h : SettlesArrows (inParentheses e))
    (hn : n ∈ triedInVain (inParentheses e)) :
  ¬ (outputSeam e).Live n
  := by
  rintro ⟨v, hv, hwidth, harrow⟩
  obtain ⟨front, rfl⟩ := hv
  have hn' : n = 1 + width front := by
    change n + width v = 1 + width (front ++ v) at hwidth
    rw [width_append] at hwidth
    omega
  apply h n hn (by omega) (v ++ [')'])
  · refine ⟨'(' :: front, ?_, ?_⟩
    · simp [inParentheses, ofString]
    · rw [hn', width_cons]
      rfl
  · exact harrow.trans (List.prefix_append v _).isInfix

/-- What is read of the script between semicolons, up to the last one. -/
theorem exists_expression_of_inParentheses {e : Text} {parsed : Parsed} {n x : Node} {d : Bool}
    {height : Nat} (hheight : e.length + 2 ≤ height)
    (h : Parsed.ofText (inParentheses e) = .ok parsed)
    (hbody : parsed.tree.kind = .program [n]) (hkind : n.kind = .expressionStatement x d)
    (hstop : n.span.stop = width (inParentheses e)) (hbehind : n.span.start < x.span.start)
    (hsettles : SettlesArrows (inParentheses e)) :
  d = false ∧ (Reader.atStart (outputScript e)).next.lexed.lexeme.isEnd = false
    ∧ ∃ u, Parse.expression (Level.ofHeight height) {} (Reader.atStart (outputScript e)).next
      = .ok (x.moved (outputSeam e).span) u
    ∧ u.lexed.lexeme = .mark ";" ∧ u.lexed.rest = [] ∧ u.lexFaults = [] ∧ u.faults = []
    ∧ u.uncovered = []
  := by
  obtain ⟨body, s, hrun, hfaults, rfl⟩ := Parsed.exists_run_of_ofText h
  have hlength : (inParentheses e).length = e.length + 2 := by simp [inParentheses, ofString]
  have hopen : (Reader.atStart (inParentheses e)).lexed.lexeme = .mark "(" := by
    rw [lexed_inParentheses]
  have hrun' := hrun
  rw [hlength] at hrun'
  cases hbody
  obtain ⟨hd, u, hexpression, hend, hstop'⟩ :=
    Parse.exists_expression_of_script (g := Level.ofHeight (e.length + 3)) hopen hrun' rfl hkind
      hbehind
  rcases Parse.expression_gives (g := Level.ofHeight (e.length + 2)) hopen hexpression with
    hbegins | ⟨places, m, hparenthesized, hidles⟩
  · rw [lexed_inParentheses] at hbegins
    have hstart : 0 < x.span.start := Nat.zero_lt_of_lt hbehind
    exact (Nat.ne_of_gt hstart hbegins).elim
  have hkeeps : (edges (inParentheses e)).Keeps True
      (Parse.expression (Level.ofHeight (e.length + 3)) {}) := inferInstance
  have hkeeps_end : (edges (inParentheses e)).Keeps True Parse.endStatement := inferInstance
  simp only [Reader.allFaults, List.append_eq_nil_iff, List.reverse_eq_nil_iff,
    List.map_eq_nil_iff] at hfaults
  obtain ⟨⟨hlexFaults, hnoted⟩, huncovered⟩ := hfaults
  have hu := hkeeps_end.startsClean hend hlexFaults
  have hgrows : m.Grows s := by
    have hfinal := hkeeps_end.grows u
    rw [Parse.final, hend] at hfinal
    exact hidles.grows.trans hfinal
  have hholds : (edges (inParentheses e)).Holds u := by
    obtain ⟨hclean, hholds⟩ := hkeeps.keeps hexpression hu
    exact (hholds trivial ((bears_edges _).first hclean)).1
  -- the parentheses reach over the code, as the text does not end with a semicolon
  have hover : (outputSeam e).stop < m.lastEnd := by
    have hwidth := width_inParentheses e
    rcases Parse.endStatement_gives hend with rfl | ⟨hmark, rfl⟩
    · rw [← hidles.lastEnd, ← hstop', hstop]
      omega
    · exact (stop_ne_of_semicolon hholds.admits hmark (hstop'.symm.trans hstop)).elim
  have htried : triedInVain (inParentheses e) = s.notArrows := by
    rw [triedInVain, Parse.final, hrun]
  have hparallel : (outputSeam e).Parallel (Level.ofHeight (e.length + 2))
      (Level.ofHeight height) := Seam.parallel_ofHeight hheight
  obtain ⟨hmore, v, u', hrun', hmet, hsame⟩ := (begins_outputSeam e places).goes
    (Level.ofHeight (e.length + 2)) (Level.ofHeight height) {} hparenthesized
    (hidles.clean hu) (List.suffix_nil.mp (hnoted ▸ hgrows.faults))
    (fun k hk => not_live_of_settlesArrows hsettles (htried ▸ hgrows.notArrows.subset hk)) hover
  refine ⟨hd, hmore, u', hrun', hmet.meets.lexeme, hmet.meets.rest, hmet.lexFaults', hmet.faults',
    ?_⟩
  have hsame' : m.uncovered = [] := by
    rw [← hidles.uncovered]
    rcases Parse.endStatement_gives hend with rfl | ⟨-, rfl⟩
    · exact huncovered
    · exact huncovered
  rw [hmet.uncovered, hsame, hsame']
  rfl

/-- A code that is a single expression in parentheses is one between semicolons as well, if no other
statement may begin as it does. -/
theorem Parsed.ofText_outputScript {e : Text} {parsed : Parsed} {n x : Node} {d : Bool}
    (h : Parsed.ofText (inParentheses e) = .ok parsed)
    (hbody : parsed.tree.kind = .program [n]) (hkind : n.kind = .expressionStatement x d)
    (hstop : n.span.stop = width (inParentheses e)) (hbehind : n.span.start < x.span.start)
    (hsettles : SettlesArrows (inParentheses e))
    (hother : (Reader.atStart (outputScript e)).next.beginsOther = false) :
  d = false ∧ ∃ comments s s',
    Parsed.ofText (outputScript e) = .ok ⟨.mk 0 ⟨0, width (outputScript e)⟩
      (.program [.mk 0 s .emptyStatement,
        .mk 0 s' (.expressionStatement (x.moved (outputSeam e).span) false)]), comments⟩
    ∧ s'.start < width (outputScript e) ∧ 3 ≤ s'.stop
  := by
  have hlength : (outputScript e).length + 2 = e.length + 9 := by
    simp [outputScript, ofString]
  obtain ⟨hd, hmore, u, hrun, hmark, hrest, hlexFaults, hfaults, huncovered⟩ :=
    exists_expression_of_inParentheses (show e.length + 2 ≤ e.length + 8 by omega) h hbody hkind
      hstop hbehind hsettles
  have hfirst : (Reader.atStart (outputScript e)).lexed.lexeme = .mark ";" := by
    rw [lexed_outputScript]
  have hend : u.next.lexed = lex u.lexed.stop false [] := by
    rw [← hrest]
    rfl
  have hsecond : (Level.ofHeight (e.length + 9)).statement false {}
      (Reader.atStart (outputScript e)).next = .ok (.mk 0
        ⟨(Reader.atStart (outputScript e)).next.lexed.start, u.lexed.stop⟩
        (.expressionStatement (x.moved (outputSeam e).span) false)) u.next :=
    (Parse.statement_of_expression hother).trans
      (Parse.expressionStatement_of_semicolon hrun hmark)
  have hscript := Parse.script_of_two (g := Level.ofHeight (e.length + 9)) (by rw [hfirst]; rfl)
    (Parse.statement_semicolon hfirst) hmore hsecond (by rw [hend]; rfl)
  have hlexed : u.next.lexFaults = [] := by
    change u.next.lexed.faults ++ u.lexFaults = []
    rw [hend, hlexFaults]
    rfl
  have hall : u.next.allFaults = [] := by
    have hnoted : u.next.faults = [] := hfaults
    have huncovered : u.next.uncovered = [] := huncovered
    rw [Reader.allFaults, hlexed, hnoted, huncovered]
    rfl
  rw [← hlength] at hscript
  exact ⟨hd, _, _, _, Parsed.ofText_of_run hscript hall,
    bounds_of_second (g := Level.ofHeight (e.length + 8)) hmore hsecond hlexed rfl⟩

/-! ### The trees of the two scripts -/

namespace Lower

/-- An expression statement is lowered as one with the same expression elsewhere. -/
theorem lowers_expressionStatement (f : Span → Span) (x : Node) (i j : Nat) (span span' : Span) :
  Lowers (body [.mk i span (.expressionStatement x false)])
    (body [.mk j span' (.expressionStatement (x.moved f) false)])
    [.mk i span (.expressionStatement x false)]
  := by
  have hstatement : Lowers (statement (.mk i span (.expressionStatement x false)))
      (statement (.mk j span' (.expressionStatement (x.moved f) false)))
      (.mk i span (.expressionStatement x false)) := by
    refine Finishes.nested (.bind (isLowered f x).expression fun _ _ h => .node ?_ ?_) _ _
    all_goals simp_all [Kind.moved, Kind.parts]
  refine .bind hstatement fun _ _ h₁ => .bind (b := [Node.mk i span (.expressionStatement x false)])
    (a := ([] : List Node)) (.pure rfl rfl) fun _ _ h₂ => .pure ?_ ?_
  all_goals simp_all

/-- An empty statement at the beginning has the first number. -/
theorem body_emptyStatement (i : Nat) (span : Span) (rest : List Node) :
  body (.mk i span .emptyStatement :: rest) {}
    = (body rest >>= fun rest => pure (Node.mk 0 span .emptyStatement :: rest))
      ({ nextId := 1 } : Lowering)
  := rfl

end Lower

variable {x p : Node} {i j : Nat} {whole span : Span}

/-- Where a program of a single expression can be lowered, so can one with the same expression
elsewhere and an empty statement before it, if there is a number left for this. -/
theorem exists_lowered_of_single
    (h : (Node.mk i whole (.program [.mk j span (.expressionStatement x false)])).lowered = .ok p)
    (hids : p.id + 2 < UInt32.size) (f : Span → Span) (i' j' k : Nat) (whole' first second : Span) :
  ∃ q, (Node.mk i' whole' (.program [.mk j' first .emptyStatement,
      .mk k second (.expressionStatement (x.moved f) false)])).lowered = .ok q
  := by
  cases hrun : (Lower.program (Node.mk i whole
      (.program [.mk j span (.expressionStatement x false)]))).run {} with
  | error e =>
      rw [Node.lowered, hrun] at h
      cases h
  | ok r =>
      obtain ⟨p', s⟩ := r
      rw [Node.lowered, hrun] at h
      cases h
      obtain ⟨items, t, hitems, hp⟩ := Lower.bind_eq_ok hrun
      unfold Lower.node at hp
      split at hp
      · cases hp
        have hadvances := (Lower.lowers_expressionStatement f x j k span second).advances hitems
        have hsize : t.nextId.toNat + 2 < UInt32.size := hids
        have hfirst : ({} : Lowering).nextId.toNat = 0 := rfl
        have hsecond : ({ nextId := 1 } : Lowering).nextId.toNat = 1 := rfl
        obtain ⟨items', t', hitems', -, hnext⟩ :=
          hadvances.follows { nextId := 1 } rfl (t.nextId.toNat + 1) (by omega) (by omega)
        have hbody : Lower.body [.mk j' first .emptyStatement,
            .mk k second (.expressionStatement (x.moved f) false)] {}
            = .ok (.mk 0 first .emptyStatement :: items', t') := by
          rw [Lower.body_emptyStatement, Lower.bind_of_eq_ok hitems']
          rfl
        have hroom : t'.nextId.toNat + 1 < UInt32.size := by omega
        refine ⟨.mk t'.nextId.toNat whole' (.program (.mk 0 first .emptyStatement :: items')), ?_⟩
        have hprogram : (Lower.program (.mk i' whole' (.program [.mk j' first .emptyStatement,
            .mk k second (.expressionStatement (x.moved f) false)]))).run {}
            = Lower.node whole' (.program (.mk 0 first .emptyStatement :: items')) t' :=
          Lower.bind_of_eq_ok hbody
        rw [Node.lowered, hprogram, Lower.node, if_pos hroom]
        rfl
      · cases hp

/-- What is in parentheses is the only statement of the script. -/
theorem Node.kind_of_parenthesized {tree x : Node} (h : tree.parenthesized? = some x) :
  ∃ i d, tree.kind = .program [.mk i tree.span (.expressionStatement x d)]
    ∧ tree.span.start < x.span.start
  := by
  unfold parenthesized? at h
  split at h
  · next i span e d htree =>
      split at h
      · next hwhole =>
          cases h
          simp only [Bool.and_eq_true, beq_iff_eq, decide_eq_true_eq] at hwhole
          obtain ⟨rfl, hstart⟩ := hwhole
          exact ⟨i, d, htree, hstart⟩
      · cases h
  · cases h

/-- A tree that differs in the numbers of its nodes at most is in parentheses as well. -/
theorem exists_single_of_parenthesized {tree parsed x : Node} (h : tree.moved id = parsed.moved id)
    (hx : tree.parenthesized? = some x) :
  ∃ j d y, parsed.kind = .program [.mk j parsed.span (.expressionStatement y d)]
    ∧ y.moved id = x.moved id ∧ parsed.span.start < y.span.start
  := by
  obtain ⟨i, d, htree, hstart⟩ := Node.kind_of_parenthesized hx
  have hspan := congrArg Node.span h
  have hkind := congrArg Node.kind h
  rw [Node.span_moved, Node.span_moved] at hspan
  rw [Node.kind_moved, Node.kind_moved, htree, Kind.moved, movedAll_eq_map] at hkind
  obtain ⟨body, hparsed, hbody⟩ := Kind.exists_of_moved_program hkind.symm
  rw [List.map_singleton, List.map_eq_singleton_iff] at hbody
  obtain ⟨⟨j, span, kind⟩, rfl, hn⟩ := hbody
  rw [Node.moved, Node.moved, Kind.moved, Node.mk.injEq] at hn
  obtain ⟨-, hn, hstatement⟩ := hn
  obtain ⟨y, rfl, hy⟩ := Kind.exists_of_moved_expressionStatement hstatement
  have hyspan := congrArg Node.span hy
  rw [Node.span_moved, Node.span_moved] at hyspan
  refine ⟨j, d, y, ?_, hy, ?_⟩
  · rw [hparsed, ← show tree.span = parsed.span from hspan, show span = tree.span from hn]
  · rw [← show tree.span = parsed.span from hspan, show y.span = x.span from hyspan]
    exact hstart

/-- The count of brackets that gets through the script in parentheses gets through the other one. -/
theorem bracketBeyond_outputScript {e : Text}
    (h : bracketBeyond .code 0 0 (inParentheses e) = none) :
  bracketBeyond .code 0 0 (outputScript e) = none
  := by
  have hinner : bracketBeyond .code 1 1 (e ++ [')']) = none := h
  have houter : bracketBeyond .code 0 4 (e ++ ofString " \n;") = none := by
    apply bracketBeyond_append hinner (Nat.zero_le 1)
    · rintro c rest ⟨⟩
      decide
    · rintro c rest ⟨⟩
      decide
    · simp [ofString, opensBracket]
  exact houter

/-- A code that is a single expression in parentheses makes a script between semicolons whose second
statement is an expression of the same shape, if no other statement may begin as it does. -/
theorem Program.ofText_outputScript {e : Text} {p : Program} {x : Node}
    (hp : Program.ofText (inParentheses e) = .ok p) (hx : p.tree.parenthesized? = some x)
    (hids : p.tree.id + 2 < UInt32.size) (hsettles : SettlesArrows (inParentheses e))
    (hother : (Reader.atStart (outputScript e)).next.beginsOther = false) :
  ∃ q i j k s s' y, Program.ofText (outputScript e) = .ok q
    ∧ q.tree = .mk i ⟨0, width (outputScript e)⟩ (.program [.mk j s .emptyStatement,
      .mk k s' (.expressionStatement y false)])
    ∧ y.shape = x.shape ∧ s'.start < width (outputScript e) ∧ 3 ≤ s'.stop
  := by
  obtain ⟨parsed, hparsed, htree, -⟩ := parsed_of_ofText hp
  obtain ⟨body, r, -, -, rfl⟩ := Parsed.exists_run_of_ofText hparsed
  obtain ⟨hmoved, -⟩ := run_of_lowered htree
  obtain ⟨j, d, x', hkind, hx', hbehind⟩ := exists_single_of_parenthesized hmoved hx
  change Kind.program body
    = .program [.mk j ⟨0, width (inParentheses e)⟩ (.expressionStatement x' d)] at hkind
  cases hkind
  obtain ⟨rfl, comments, s, s', hscript, hstart, hstop⟩ :=
    Parsed.ofText_outputScript hparsed rfl rfl rfl hbehind hsettles hother
  -- the tree of the second script is lowered as the tree of the first one is
  obtain ⟨⟨i, span, kind⟩, hlowered⟩ := exists_lowered_of_single htree hids (outputSeam e).span
    0 0 0 ⟨0, width (outputScript e)⟩ s s'
  obtain ⟨hmoved', -⟩ := run_of_lowered hlowered
  rw [moved_mk_eq_iff, Kind.moved, movedAll_eq_map] at hmoved'
  obtain ⟨rfl, hkind⟩ := hmoved'
  obtain ⟨body, rfl, hbody⟩ := Kind.exists_of_moved_program hkind
  simp only [List.map_cons, List.map_nil, List.map_eq_cons_iff, List.map_eq_nil_iff] at hbody
  obtain ⟨⟨j', s₁, kind₁⟩, rest, rfl, h₁, ⟨k, s₂, kind₂⟩, _, rfl, h₂, rfl⟩ := hbody
  obtain ⟨rfl, hempty⟩ := moved_mk_eq_iff.mp h₁
  obtain ⟨rfl, hstatement⟩ := moved_mk_eq_iff.mp h₂
  obtain rfl := Kind.moved_eq_emptyStatement.mp hempty
  obtain ⟨y, rfl, hy⟩ := Kind.exists_of_moved_expressionStatement hstatement
  have hshape : y.shape = x.shape :=
    calc
      y.shape = (x'.moved (outputSeam e).span).shape := shape_eq_of_moved hy
      _ = x'.shape := Node.shape_moved _ _
      _ = x.shape := shape_eq_of_moved hx'
  obtain ⟨q, hq, hqtree⟩ := ofText_of_parsed
    (bracketBeyond_outputScript (bracketBeyond_of_ofText hp)) hscript hlowered
  exact ⟨q, i, j', k, s₁, s₂, y, hq, hqtree, hshape, hstart, hstop⟩

end Script

end Stencil
