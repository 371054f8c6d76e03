import Stencil.Proofs.Analysis.Statements
import Stencil.Proofs.Script.Parenthesized
import Stencil.Proofs.View.Script

/-!
# Output tags that are expressions

The script view reads the code of an output tag as a statement of its own, between two semicolons.
Code that is a single expression in parentheses is that expression in the tag as well, unless it
begins as another statement does: an object like a block, a function and a class like their
declarations.  Such code is read as the other statement, whatever follows, so the tag has no
expression.
-/

namespace Stencil

open Text

namespace Analysis

open Script

/-- A document that is an output tag with the given code and spaces around it. -/
def outputTag (e : Text) : Text := ofString "<%= " ++ (e ++ ofString " %>")

/-- The piece that such a document is made up of. -/
def outputPiece (e : Text) : Piece := ⟨[], .interpolate, ' ' :: (e ++ [' '])⟩

theorem render_outputPiece (e : Text) :
  Piece.render [outputPiece e] [] = outputTag e
  := by
  simp [Piece.render, Piece.text, outputPiece, outputTag, Tag.Kind.opening, Tag.Kind.delimiters,
    ofString]

theorem sound_outputPiece {e : Text} (h : ¬ ['%', '>'] <:+: e) :
  (outputPiece e).Sound
  := by
  refine ⟨by simp [outputPiece], fun hin => h ?_, nofun⟩
  have hcode : ['%', '>'] <:+: [' '] ++ (e ++ [' ']) := hin
  have hclosing : ['%', '>'] ≠ [] := by simp
  have hblank : ∀ c ∈ ['%', '>'], c ∉ [' '] := by simp
  apply infix_of_append_right hclosing hblank
  apply infix_of_append_left hclosing hblank hcode

theorem tags_outputTag {e : Text} (h : ¬ ['%', '>'] <:+: e) :
  ({} : Settings).tags (outputTag e) = .ok [(outputPiece e).tag 0]
  := by
  rw [← render_outputPiece]
  apply Piece.tags_render
  · simpa using sound_outputPiece h
  · decide

theorem script_outputPiece (e : Text) :
  (outputPiece e).script = outputScript e
  := by
  have hfront : (outputPiece e).scriptFront = ofString "  ;" := rfl
  have hback : (outputPiece e).scriptBack = ofString "\n;" := rfl
  rw [Piece.script, hfront, hback]
  simp [outputPiece, outputScript, ofString]

theorem scriptView_outputTag (e : Text) :
  scriptView (outputTag e) [(outputPiece e).tag 0] = outputScript e
  := by
  rw [← render_outputPiece, ← script_outputPiece]
  refine (Piece.scriptView_render [outputPiece e] []).trans ?_
  rw [Piece.renderScript, List.flatMap_singleton]
  exact List.append_nil _

/-- The tag is as wide as its script. -/
theorem span_outputPiece (e : Text) :
  ((outputPiece e).tag 0).span = ⟨0, width (outputScript e)⟩
  := by
  rw [← script_outputPiece, Piece.width_script, ← Nat.zero_add (width (outputPiece e).text),
    Piece.width_text]
  rfl

/-- What is collected in a program is what is collected in its statements. -/
theorem exists_statementsWithin_program (id : Nat) {span s : Span} (body : List Node)
    (h : span.intersects s = true) :
  ∃ depth, statementsWithin (.mk id span (.program body)) s
    = body.flatMap (outermost s (depth + 1))
  := by
  have hparts : (Node.mk id span (.program body)).parts = body := by
    rw [Node.parts_eq]
    simp [Node.kind, Kind.parts, Kind.fields]
  have hprogram : (Node.mk id span (.program body)).isStatement = false := by
    change ("Program".endsWith "Statement" || "Program".endsWith "Declaration") = false
    decide +kernel
  have hsize : 2 ≤ sizeOf (Node.mk id span (.program body)) := by
    simp only [Node.mk.sizeOf_spec, Kind.program.sizeOf_spec]
    omega
  obtain ⟨depth, hdepth⟩ := Nat.exists_eq_add_of_le' hsize
  refine ⟨depth, ?_⟩
  rw [statementsWithin_eq (endsWithin_of_sizeOf_le (Nat.le_refl _)), hdepth, outermost]
  simp [h, hprogram, hparts, Node.span]

theorem outermost_of_isWhole {s : Span} {depth : Nat} {n : Node} (h : IsWhole s n) :
  outermost s (depth + 1) n = [n]
  := by
  rw [outermost]
  simp [h.meets, h.statement, h.inside, h.name]

theorem outermost_of_emptyStatement {s : Span} {depth : Nat} {n : Node}
    (h : n.typeName = "EmptyStatement") :
  outermost s depth n = []
  := by
  have hparts : n.parts = [] := by
    rw [Node.parts, h]
    rfl
  cases depth with
  | zero => rfl
  | succ depth => simp [outermost, h, hparts]

/-- A statement of a program that lies in the span as a whole is collected. -/
theorem mem_statementsWithin {id : Nat} {span s : Span} {body : List Node} {n : Node}
    (hn : n ∈ body) (hwhole : IsWhole s n) (hinside : span.encloses n.span = true) :
  n ∈ statementsWithin (.mk id span (.program body)) s
  := by
  obtain ⟨depth, hcollected⟩ := exists_statementsWithin_program id body
    (intersects_of_encloses hwhole.meets hinside)
  rw [hcollected, List.mem_flatMap]
  exact ⟨n, hn, by rw [outermost_of_isWhole hwhole, List.mem_singleton]⟩

/-- Where the script of an output tag begins as another statement does, this statement is a part of
the program. -/
theorem exists_other_of_outputScript {e : Text} {p : Program}
    (hp : Program.ofText (outputScript e) = .ok p)
    (hat : (Reader.atStart (outputScript e)).next.AtOtherStatement) :
  ∃ n id body, p.tree = .mk id ⟨0, width (outputScript e)⟩ (.program body) ∧ n ∈ body
    ∧ n.typeName ∈ otherStatements ∧ IsWhole ⟨0, width (outputScript e)⟩ n
  := by
  obtain ⟨parsed, hparsed, htree, -⟩ := Program.parsed_of_ofText hp
  have hlexed := lexed_outputScript e
  obtain ⟨g, m, n, rest, r, hparsedTree, hg, hrun, hclean⟩ :=
    Parsed.exists_second_of_ofText hparsed (by rw [hlexed]) hat.isEnd_eq_false
  obtain ⟨hstart, hname⟩ := Parse.isOtherAt_statement hat hrun
  obtain ⟨hlt, hle⟩ := bounds_of_second hat.isEnd_eq_false hrun hclean hstart
  rw [hparsedTree] at htree
  obtain ⟨top, body, htree, hbody⟩ := exists_body_of_lowered htree
  obtain ⟨n', hn', hspan, hname'⟩ := hbody n (by simp)
  rw [← hname'] at hname
  refine ⟨n', top, body, htree, hn', hname, ?_, ?_, ?_, ?_⟩
  · have hstatement : otherStatements.all
        (fun name => name.endsWith "Statement" || name.endsWith "Declaration") = true := by
      decide +kernel
    exact List.all_eq_true.mp hstatement _ hname
  · rintro heq
    rw [heq] at hname
    revert hname
    decide
  · rw [hspan]
    simp only [Span.intersects, Bool.and_eq_true, decide_eq_true_eq]
    omega
  · have hsound := Program.sound_of_ofText hp
    have hparts : n' ∈ p.tree.parts := by
      rw [htree, Node.parts_eq]
      simpa [Node.kind, Kind.parts, Kind.fields] using hn'
    have hinside := hsound.encloses n'
      (Node.preorder_subset_of_mem_parts hparts (Node.self_mem_preorder _))
    rwa [htree] at hinside

/-- A document that is an output tag has this tag. -/
theorem tags_ofDocument_outputTag {e : Text} (h : ¬ ['%', '>'] <:+: e) :
  (ofDocument readProgram {} (outputTag e)).tags = [(outputPiece e).tag 0]
  := by
  rw [ofDocument, tags_outputTag h]
  dsimp only
  split <;> rfl

/-- The code of an output tag that begins as another statement does has no expression. -/
theorem expressionStatement?_of_other {e : Text} (hclose : ¬ ['%', '>'] <:+: e)
    (hat : (Reader.atStart (outputScript e)).next.AtOtherStatement) :
  (ofDocument readProgram {} (outputTag e)).expressionStatement? ((outputPiece e).tag 0) = none
  := by
  set a := ofDocument readProgram {} (outputTag e) with ha
  have htags : a.tags = [(outputPiece e).tag 0] := tags_ofDocument_outputTag hclose
  apply Option.eq_none_iff_forall_not_mem.mpr
  rintro ⟨n, value⟩ hexpression
  cases hprogram : a.program with
  | none =>
      rw [Option.mem_def, expressionStatement?, hprogram] at hexpression
      cases hexpression
  | some p =>
      have hp := program_of_readProgram (program_ofDocument hprogram)
      rw [← ha, htags, scriptView_outputTag] at hp
      obtain ⟨k, id, body, htree, hk, hname, hwhole⟩ := exists_other_of_outputScript hp hat
      have hmem : k ∈ statementsWithin p.tree ((outputPiece e).tag 0).span := by
        rw [span_outputPiece, htree]
        exact mem_statementsWithin hk hwhole hwhole.inside
      obtain ⟨hcollected, isDirective, hkind⟩ :=
        statementsWithin_of_expressionStatement hprogram hexpression
      rw [hcollected, List.mem_singleton] at hmem
      rw [hmem, Node.typeName, hkind] at hname
      revert hname
      change "ExpressionStatement" ∉ otherStatements
      decide

/-- Code that is a single expression in parentheses, and does not begin as another statement does,
is the same expression in an output tag. -/
theorem expressionStatement?_of_parenthesized {e : Text} {p : Program} {x : Node}
    (hclose : ¬ ['%', '>'] <:+: e) (hp : Program.ofText (inParentheses e) = .ok p)
    (hx : p.tree.parenthesized? = some x) (hids : p.tree.id + 2 < UInt32.size)
    (hsettles : SettlesArrows (inParentheses e))
    (hother : (Reader.atStart (outputScript e)).next.beginsOther = false) :
  (ofDocument readProgram {} (outputTag e)).parseError = none
    ∧ ∃ n y, (ofDocument readProgram {} (outputTag e)).expressionStatement? ((outputPiece e).tag 0)
        = some (n, y)
      ∧ y.shape = x.shape
  := by
  obtain ⟨q, i, j, k, s, s', y, hq, htree, hshape, hstart, hstop⟩ :=
    Program.ofText_outputScript hp hx hids hsettles hother
  have hdocument : ofDocument readProgram {} (outputTag e)
      = ofParts (outputTag e) [(outputPiece e).tag 0] (some q) none := by
    apply ofDocument_eq (tags_outputTag hclose)
    rw [scriptView_outputTag, hq]
  have hparts : .mk k s' (.expressionStatement y false) ∈ q.tree.parts := by
    rw [htree, Node.parts_eq]
    simp [Node.kind, Kind.parts, Kind.fields]
  have hinside := (Program.sound_of_ofText hq).encloses _
    (Node.preorder_subset_of_mem_parts hparts (Node.self_mem_preorder _))
  rw [htree] at hinside
  have hwhole : IsWhole ⟨0, width (outputScript e)⟩ (.mk k s' (.expressionStatement y false)) := by
    refine ⟨?_, ?_, ?_, hinside⟩
    · change ("ExpressionStatement".endsWith "Statement"
        || "ExpressionStatement".endsWith "Declaration") = true
      decide +kernel
    · change "ExpressionStatement" ≠ "EmptyStatement"
      decide
    · change s'.intersects _ = true
      simp only [Span.intersects, Bool.and_eq_true, decide_eq_true_eq]
      omega
  have hcollected : statementsWithin q.tree ((outputPiece e).tag 0).span
      = [.mk k s' (.expressionStatement y false)] := by
    obtain ⟨depth, hcollected⟩ := exists_statementsWithin_program i
      [.mk j s .emptyStatement, .mk k s' (.expressionStatement y false)]
      (intersects_of_encloses hwhole.meets hinside)
    rw [htree, span_outputPiece]
    refine hcollected.trans ?_
    rw [List.flatMap_cons, List.flatMap_singleton, outermost_of_emptyStatement rfl,
      outermost_of_isWhole hwhole, List.nil_append]
  rw [hdocument]
  refine ⟨rfl, .mk k s' (.expressionStatement y false), y, ?_, hshape⟩
  have hprogram : (ofParts (outputTag e) [(outputPiece e).tag 0] (some q) none).program = some q :=
    rfl
  rw [expressionStatement?, hprogram, Option.bind_eq_bind, Option.bind_some, hcollected]
  rfl

/-- In a document that is an output tag, code that begins as another statement does has no
expression.  Code that is a single expression in parentheses and does not begin so is the same
expression, and the document is accepted. -/
theorem expressionStatement?_outputTag {e : Text} (hclose : ¬ ['%', '>'] <:+: e) :
  ∃ tag, (ofDocument readProgram {} (outputTag e)).tags = [tag]
    ∧ ((Reader.atStart (outputScript e)).next.AtOtherStatement →
      (ofDocument readProgram {} (outputTag e)).expressionStatement? tag = none)
    ∧ ∀ p x, Program.ofText (inParentheses e) = .ok p → p.tree.parenthesized? = some x →
      p.tree.id + 2 < UInt32.size → SettlesArrows (inParentheses e) →
      (Reader.atStart (outputScript e)).next.beginsOther = false →
      (ofDocument readProgram {} (outputTag e)).parseError = none
        ∧ ∃ n y, (ofDocument readProgram {} (outputTag e)).expressionStatement? tag = some (n, y)
          ∧ y.shape = x.shape
  := by
  refine ⟨_, tags_ofDocument_outputTag hclose, expressionStatement?_of_other hclose, ?_⟩
  intro p x hp hx hids hsettles hother
  exact expressionStatement?_of_parenthesized hclose hp hx hids hsettles hother

/-- A member of an object. -/
def memberOfObject : Text := ofString "\x7ba: 1\x7d.a"

theorem not_infix_memberOfObject :
  ¬ ['%', '>'] <:+: memberOfObject
  := by decide +kernel

/-- A call with operands around it. -/
def callInSum : Text := ofString "(a) + f(\"x\", b)"

/-- A call in a sum is an expression of the tag, and a member of an object is none, as the object
begins as a block does. -/
theorem expressionStatement?_outputTag_callInSum :
  (∃ p x tag n y, Program.ofText (inParentheses callInSum) = .ok p
      ∧ p.tree.parenthesized? = some x
      ∧ (ofDocument readProgram {} (outputTag callInSum)).tags = [tag]
      ∧ (ofDocument readProgram {} (outputTag callInSum)).parseError = none
      ∧ (ofDocument readProgram {} (outputTag callInSum)).expressionStatement? tag = some (n, y)
      ∧ y.shape = x.shape)
    ∧ ∃ tag, (ofDocument readProgram {} (outputTag memberOfObject)).tags = [tag]
      ∧ (ofDocument readProgram {} (outputTag memberOfObject)).expressionStatement? tag = none
  := by
  constructor
  · have haccepted : ((Program.ofText (inParentheses callInSum)).toOption.bind fun p =>
        p.tree.parenthesized?.map fun _ => p.tree.id) = some 7 := by
      decide +kernel
    obtain ⟨p, hp, hx⟩ := Option.bind_eq_some_iff.mp haccepted
    obtain ⟨x, hx, hid⟩ := Option.map_eq_some_iff.mp hx
    have hp := eq_ok_of_toOption hp
    obtain ⟨tag, htags, -, hexpression⟩ := expressionStatement?_outputTag
      (show ¬ ['%', '>'] <:+: callInSum by decide +kernel)
    obtain ⟨hparseError, n, y, hfound, hshape⟩ := hexpression p x hp hx (by rw [hid]; decide)
      (settlesArrows_of_no_arrow (by decide +kernel)) (by decide +kernel)
    exact ⟨p, x, tag, n, y, hp, hx, htags, hparseError, hfound, hshape⟩
  · have hbrace : (Reader.atStart (outputScript memberOfObject)).next.lexed.lexeme
        = .mark "\x7b" := by
      decide +kernel
    obtain ⟨tag, htags, hnone, -⟩ := expressionStatement?_outputTag not_infix_memberOfObject
    exact ⟨tag, htags, hnone (Or.inl hbrace)⟩

/-- In parentheses this is a single expression, but in an output tag it is no script. -/
theorem exists_parenthesized_and_parseError :
  (∃ p e, Program.ofText (ofString "(" ++ (memberOfObject ++ ofString ")")) = .ok p
      ∧ p.tree.parenthesized? = some e)
    ∧ (ofDocument readProgram {} (outputTag memberOfObject)).parseError ≠ none
  := by
  constructor
  · have haccepted : ((Program.ofText (ofString "(" ++ (memberOfObject ++ ofString ")"))).toOption
        |>.bind fun p => p.tree.parenthesized?).isSome = true := by
      decide +kernel
    obtain ⟨e, he⟩ := Option.isSome_iff_exists.mp haccepted
    obtain ⟨p, hp, he⟩ := Option.bind_eq_some_iff.mp he
    exact ⟨p, e, eq_ok_of_toOption hp, he⟩
  · have hrefused : (Program.ofText (outputScript memberOfObject)).toOption.isNone = true := by
      decide +kernel
    rw [ofDocument, tags_outputTag not_infix_memberOfObject]
    dsimp only
    rw [scriptView_outputTag, readProgram]
    cases hp : Program.ofText (outputScript memberOfObject) with
    | ok p =>
        rw [hp] at hrefused
        cases hrefused
    | error f => rintro ⟨⟩

end Analysis

end Stencil
