import Stencil.Proofs.Branch.Boundaries
import Stencil.Proofs.Script.Enclosing
import Stencil.Proofs.Script.Lookup
import Stencil.Proofs.Walk

/-!
# The statements of a tag

The statements of a tag are collected on a walk that passes over what does not meet the tag and
stops to go down at a statement that lies in it.  So it finds the outermost ones of the statements
that lie in the tag as a whole.  As nodes enclose their parts, any other statement that lies in the
tag as a whole lies in one of those.

If there is a single one, then the code of the tag is this statement, some semicolons and pieces of
statements that reach beyond the tag, as the closing brace of a block that was opened in another
tag.  The walk does not look at such pieces, so the code need not be a single expression.
-/

namespace Stencil

open Script

namespace Analysis

/-- The node is a statement that lies in the span as a whole, and is not empty. -/
structure IsWhole (s : Span) (n : Node) : Prop where
  statement : n.isStatement = true
  name : n.typeName ≠ "EmptyStatement"
  meets : n.span.intersects s = true
  inside : s.encloses n.span = true

/-! ### The outermost statements -/

/-- The outermost statements within a span, empty ones apart, in a tree down to a depth. -/
def outermost (s : Span) : Nat → Node → List Node
  | 0, _ => []
  | depth + 1, n =>
    if !n.span.intersects s then []
    else if n.isStatement && s.encloses n.span then
      if n.typeName == "EmptyStatement" then [] else [n]
    else n.parts.flatMap (outermost s depth)

/-- A course that reaches its end and collects the given nodes. -/
def Collects (course : List Node → Course Node (List Node)) (nodes : List Node) : Prop :=
  ∀ found, (course found).isCompleted = true ∧ (course found).state = found ++ nodes

theorem collects_inTurn {β : Type} {course : β → List Node → Course Node (List Node)}
    {nodes : β → List Node} {l : List β} (h : ∀ b ∈ l, Collects (course b) (nodes b)) :
  Collects (Course.inTurn course l) (l.flatMap nodes)
  := by
  induction l with
  | nil => exact fun found => ⟨rfl, (List.append_nil found).symm⟩
  | cons b l ih =>
      rw [List.forall_mem_cons] at h
      intro found
      obtain ⟨hcompleted, hstate⟩ := h.1 found
      obtain ⟨hcompleted', hstate'⟩ := ih h.2 (found ++ nodes b)
      rw [Course.inTurn, Course.andThen, if_pos hcompleted, hstate]
      refine ⟨hcompleted', ?_⟩
      rw [hstate', List.append_assoc, List.flatMap_cons]

theorem enter_statementCollector (s : Span) (n : Node) (parent : Option Node) (found : List Node) :
  (statementCollector s).enter (Node.anatomy.value n) parent found
    = if !n.span.intersects s then (.skip, found)
      else if n.isStatement && s.encloses n.span then
        (.skip, if n.typeName == "EmptyStatement" then found else found ++ [n])
      else (.continue, found)
  := rfl

section Within

variable {s : Span} {n : Node} {inside : List Node → Course Node (List Node)} {nodes : List Node}

/-- The collector may take some nodes and pass over what is below. -/
theorem collects_of_skip {parent : Option Node}
    (h : ∀ found, (statementCollector s).enter n parent found = (.skip, found ++ nodes)) :
  Collects (Course.within (statementCollector s) n parent inside) nodes
  := by
  intro found
  rw [Course.within, h]
  exact ⟨rfl, rfl⟩

/-- The collector may take what it takes below. -/
theorem collects_of_continue {parent : Option Node}
    (h : ∀ found, (statementCollector s).enter n parent found = (.continue, found))
    (hinside : Collects inside nodes) :
  Collects (Course.within (statementCollector s) n parent inside) nodes
  := by
  intro found
  obtain ⟨hcompleted, hstate⟩ := hinside found
  rw [Course.within, h]
  simp [Course.andThen, Course.leave, statementCollector, hcompleted, hstate]

end Within

/-- The collector takes the outermost statements of a tree. -/
theorem collects_course {s : Span} {depth : Nat} {n : Node} (h : n.endsWithin depth = true)
    (parent : Option Node) :
  Collects (Node.anatomy.course visitorKeys (statementCollector s) n parent) (outermost s depth n)
  := by
  induction depth generalizing n parent with
  | zero => cases h
  | succ depth ih =>
      rw [Node.endsWithin, List.all_eq_true] at h
      unfold Anatomy.course
      rw [outermost]
      split
      · next hmeets =>
          apply collects_of_skip
          intro found
          rw [enter_statementCollector, if_pos hmeets, List.append_nil]
      split
      · next hmeets hinside =>
          apply collects_of_skip
          intro found
          rw [enter_statementCollector, if_neg hmeets, if_pos hinside]
          split <;> simp
      · next hmeets hinside =>
          apply collects_of_continue
          · intro found
            rw [enter_statementCollector, if_neg hmeets, if_neg hinside]
          · have hparts : Collects (Course.inTurn
                (fun m => Node.anatomy.course visitorKeys (statementCollector s) m.1 (some n))
                (Node.anatomy.parts visitorKeys n).attach)
                ((Node.anatomy.parts visitorKeys n).attach.flatMap fun m =>
                  outermost s depth m.1) :=
              collects_inTurn fun m _ => ih (h m.1 m.2) (some n)
            have hnodes : (Node.anatomy.parts visitorKeys n).attach.flatMap
                (fun m => outermost s depth m.1) = n.parts.flatMap (outermost s depth) := by
              rw [← List.flatMap_map, List.attach_map_subtype_val]
              rfl
            rw [← hnodes]
            exact hparts

/-- The statements that are collected are the outermost ones. -/
theorem statementsWithin_eq {s : Span} {depth : Nat} {tree : Node}
    (h : tree.endsWithin depth = true) :
  statementsWithin tree s = outermost s depth tree
  := by
  obtain ⟨-, hstate⟩ := collects_course h none []
  rw [statementsWithin, Node.outline_eq, Anatomy.walk_outline]
  exact hstate

/-! ### Statements that lie in a span as a whole -/

variable {s : Span} {depth : Nat} {tree : Node}

/-- What is collected lies in the span as a whole. -/
theorem isWhole_of_mem_outermost {n : Node} (h : n ∈ outermost s depth tree) :
  n ∈ tree.preorder ∧ IsWhole s n
  := by
  induction depth generalizing tree with
  | zero => cases h
  | succ depth ih =>
      rw [outermost] at h
      split at h
      · cases h
      next hmeets =>
      split at h
      · next hinside =>
          split at h
          · cases h
          · next hname =>
              rw [List.mem_singleton.mp h]
              simp only [Bool.not_eq_true', Bool.not_eq_false, Bool.and_eq_true, beq_iff_eq] at *
              exact ⟨Node.self_mem_preorder tree, hinside.1, hname, hmeets, hinside.2⟩
      · obtain ⟨m, hm, hn⟩ := List.mem_flatMap.mp h
        obtain ⟨hn, hwhole⟩ := ih hn
        exact ⟨Node.preorder_subset_of_mem_parts hm hn, hwhole⟩

theorem intersects_of_encloses {s t u : Span} (h : t.intersects u = true)
    (hst : s.encloses t = true) :
  s.intersects u = true
  := by
  simp only [Span.intersects, Bool.and_eq_true, decide_eq_true_eq] at *
  rw [Span.encloses_iff] at hst
  omega

/-- An empty statement has no parts. -/
theorem preorder_of_emptyStatement {n : Node} (h : n.typeName = "EmptyStatement") :
  n.preorder = [n]
  := by
  have hparts : n.parts = [] := by
    rw [Node.parts, h]
    rfl
  rw [Node.preorder_eq, hparts, List.flatMap_nil]

/-- What lies in the span as a whole lies in something that is collected. -/
theorem exists_outermost {F : Footing} {m : Node} (hsound : tree.Sound F)
    (hdepth : tree.endsWithin depth = true) (hm : m ∈ tree.preorder) (hwhole : IsWhole s m) :
  ∃ n ∈ outermost s depth tree, n.span.encloses m.span = true
  := by
  induction depth generalizing tree with
  | zero => cases hdepth
  | succ depth ih =>
      have hinside := hsound.encloses m hm
      rw [outermost]
      split
      · next hmeets =>
          rw [intersects_of_encloses hwhole.meets hinside] at hmeets
          cases hmeets
      split
      · split
        · next hname =>
            rw [preorder_of_emptyStatement (beq_iff_eq.mp hname), List.mem_singleton] at hm
            rw [hm] at hwhole
            exact absurd (beq_iff_eq.mp hname) hwhole.name
        · exact ⟨tree, List.mem_singleton_self _, hinside⟩
      · next hmeets hout =>
          rw [Node.preorder_eq, List.mem_cons, List.mem_flatMap] at hm
          rcases hm with rfl | ⟨k, hk, hm⟩
          · simp [hwhole.statement, hwhole.inside] at hout
          · rw [Node.endsWithin, List.all_eq_true] at hdepth
            obtain ⟨n, hn, henc⟩ := ih ((Node.sound_iff.mp hsound).2 k hk) (hdepth k hk) hm
            exact ⟨n, List.mem_flatMap.mpr ⟨k, hk, hn⟩, henc⟩

/-- A tree is no deeper than it is large. -/
theorem endsWithin_of_sizeOf_le {n : Node} (h : sizeOf n ≤ depth) :
  n.endsWithin depth = true
  := by
  induction depth generalizing n with
  | zero =>
      obtain ⟨id, span, kind⟩ := n
      simp at h
  | succ depth ih =>
      rw [Node.endsWithin, List.all_eq_true]
      intro m hm
      have := Node.sizeOf_lt_of_mem_parts hm
      apply ih
      omega

/-- The program of an analysis is read from the script view. -/
theorem program_ofDocument {read : ProgramReader} {settings : Settings} {document : Text}
    {p : Program} (h : (ofDocument read settings document).program = some p) :
  read (scriptView document (ofDocument read settings document).tags) = .ok p
  := by
  unfold ofDocument at *
  cases htags : settings.tags document with
  | error e =>
      rw [htags] at h
      cases h
  | ok tags =>
      rw [htags] at h
      dsimp only at *
      cases hread : read (scriptView document tags) with
      | error e =>
          rw [hread] at h
          cases h
      | ok q =>
          rw [hread] at h
          cases h
          exact hread

/-- The statement that makes up the code of a tag is the only one that is collected. -/
theorem statementsWithin_of_expressionStatement {a : Analysis} {tag : Tag} {p : Program}
    {n e : Node} (hp : a.program = some p) (h : a.expressionStatement? tag = some (n, e)) :
  statementsWithin p.tree tag.span = [n]
    ∧ ∃ isDirective, n.kind = .expressionStatement e isDirective
  := by
  unfold expressionStatement? at h
  rw [hp, Option.bind_eq_bind, Option.bind_some] at h
  split at h
  · next m hm =>
      split at h
      · next e' isDirective hkind =>
          cases h
          exact ⟨hm, isDirective, hkind⟩
      · cases h
  · cases h

/-- Where the code of a tag is said to be a single expression statement, the tokens of the code that
are no semicolons lie in that statement exactly if each of them lies in a statement that the tag
holds as a whole: what the statement may miss is what belongs only to statements that reach beyond
the tag. -/
theorem tokens_in_expressionStatement {settings : Settings} {document : Text} {p : Program}
    {tag : Tag} {n e : Node} (hp : (ofDocument readProgram settings document).program = some p)
    (h : (ofDocument readProgram settings document).expressionStatement? tag = some (n, e)) :
  (∀ k ∈ p.tokensIn tag.code, n.span.encloses k.span = true ∨ k.isPunctuator ";" = true)
    ↔ ∀ k ∈ p.tokensIn tag.code,
      (∃ m ∈ p.tree.preorder, IsWhole tag.span m ∧ m.span.encloses k.span = true)
        ∨ k.isPunctuator ";" = true
  := by
  obtain ⟨hcollected, -⟩ := statementsWithin_of_expressionStatement hp h
  have hdepth := endsWithin_of_sizeOf_le (Nat.le_refl (sizeOf p.tree))
  rw [statementsWithin_eq hdepth] at hcollected
  have hn : n ∈ outermost tag.span (sizeOf p.tree) p.tree := by simp [hcollected]
  obtain ⟨hmem, hwhole⟩ := isWhole_of_mem_outermost hn
  have hsound := Program.sound_of_ofText (program_of_readProgram (program_ofDocument hp))
  refine forall₂_congr fun k _ => or_congr_left ⟨fun hk => ⟨n, hmem, hwhole, hk⟩, ?_⟩
  rintro ⟨m, hm, hwhole, hk⟩
  obtain ⟨n', hn', henc⟩ := exists_outermost hsound hdepth hm hwhole
  rw [hcollected, List.mem_singleton] at hn'
  rw [hn'] at henc
  exact Span.encloses_trans henc hk

/-! ### Samples -/

/-- An analysis holds the program that is read from the tags. -/
theorem ofDocument_eq {settings : Settings} {document : Text} {tags : List Tag} {p : Program}
    (htags : settings.tags document = .ok tags)
    (hp : Program.ofText (scriptView document tags) = .ok p) :
  ofDocument readProgram settings document = ofParts document tags (some p) none
  := by
  have hread : readProgram (scriptView document tags) = .ok p := by
    rw [readProgram, hp]
    rfl
  unfold ofDocument
  rw [htags]
  dsimp only
  rw [hread]

/-- Where a token stands, and whether it is a semicolon. -/
def placeOf (k : Token) : Span × Bool := (k.span, k.isPunctuator ";")

/-- The place of the expression statement that makes up a tag, and the places of the tokens of its
code, if the tree is not deeper than given. -/
def placesIn (document : Text) (place depth : Nat) : Option (Span × List (Span × Bool)) := do
  let tags ← (({} : Settings).tags document).toOption
  let tag ← tags[place]?
  let p ← (Program.ofText (scriptView document tags)).toOption
  let ks ← p.tokensWithin? (scriptView document tags) depth
  if p.tree.endsWithin depth then
    match outermost tag.span depth p.tree with
    | [⟨_, span, .expressionStatement _ _⟩] => some (span, (within ks tag.code).map placeOf)
    | _ => none
  else none

/-- What is found at these places. -/
theorem of_placesIn {document : Text} {place depth : Nat} {s : Span} {ks : List (Span × Bool)}
    (h : placesIn document place depth = some (s, ks)) :
  ∃ p tag n e, (ofDocument readProgram {} document).program = some p
    ∧ tag ∈ (ofDocument readProgram {} document).tags
    ∧ (ofDocument readProgram {} document).expressionStatement? tag = some (n, e)
    ∧ n.span = s ∧ (p.tokensIn tag.code).map placeOf = ks
  := by
  unfold placesIn at h
  obtain ⟨tags, htags, h⟩ := Option.bind_eq_some_iff.mp h
  obtain ⟨tag, htag, h⟩ := Option.bind_eq_some_iff.mp h
  obtain ⟨p, hp, h⟩ := Option.bind_eq_some_iff.mp h
  obtain ⟨ks', hks, h⟩ := Option.bind_eq_some_iff.mp h
  have hp := eq_ok_of_toOption hp
  rw [← Program.tokens_of_tokensWithin? hp hks] at h
  split at h
  · next hdepth =>
      split at h
      · next id span e isDirective houtermost =>
          cases h
          have hstatement : (ofParts document tags (some p) none).expressionStatement? tag
              = some (⟨id, s, .expressionStatement e isDirective⟩, e) := by
            rw [expressionStatement?, ofParts]
            simp [statementsWithin_eq hdepth, houtermost, Node.kind]
          rw [ofDocument_eq (eq_ok_of_toOption htags) hp]
          exact ⟨p, tag, _, e, rfl, List.mem_of_getElem? htag, hstatement, rfl, rfl⟩
      · cases h
  · cases h

/-- An output tag with a semicolon of its own, between tags that open and close a block. -/
def outputInBlock : Text := Text.ofString "<% if (a) \x7b %><%= b; %><% \x7d %>"

/-- The tokens of this output tag are a statement and a semicolon. -/
theorem tokens_in_expressionStatement_outputInBlock :
  ∃ p tag n e, (ofDocument readProgram {} outputInBlock).program = some p
    ∧ (ofDocument readProgram {} outputInBlock).expressionStatement? tag = some (n, e)
    ∧ ∀ k ∈ p.tokensIn tag.code, n.span.encloses k.span = true ∨ k.isPunctuator ";" = true
  := by
  have hplaces : placesIn outputInBlock 1 8
      = some (⟨18, 20⟩, [(⟨18, 19⟩, false), (⟨19, 20⟩, true)]) := by
    decide +kernel
  obtain ⟨p, tag, n, e, hp, -, hstatement, hspan, htokens⟩ := of_placesIn hplaces
  refine ⟨p, tag, n, e, hp, hstatement, (tokens_in_expressionStatement hp hstatement).mpr ?_⟩
  obtain ⟨hcollected, -⟩ := statementsWithin_of_expressionStatement hp hstatement
  rw [statementsWithin_eq (endsWithin_of_sizeOf_le (Nat.le_refl _))] at hcollected
  have hn : n ∈ outermost tag.span (sizeOf p.tree) p.tree := by simp [hcollected]
  obtain ⟨hmem, hwhole⟩ := isWhole_of_mem_outermost hn
  intro k hk
  have hk := List.mem_map_of_mem (f := placeOf) hk
  simp only [htokens, placeOf, List.mem_cons, List.not_mem_nil, or_false, Prod.mk.injEq] at hk
  rcases hk with ⟨hk, -⟩ | ⟨-, hk⟩
  · refine Or.inl ⟨n, hmem, hwhole, ?_⟩
    rw [hspan, hk]
    rfl
  · exact Or.inr hk

/-- A tag that closes a block before its expression. -/
def braceThenName : Text := Text.ofString "<% if (a) \x7b %>b<% \x7d c %>"

/-- The brace is part of the code of this tag, but not of the statement that is said to make it
up. -/
theorem exists_token_outside_expressionStatement :
  ∃ p tag n e, (ofDocument readProgram {} braceThenName).program = some p
    ∧ tag ∈ (ofDocument readProgram {} braceThenName).tags
    ∧ (ofDocument readProgram {} braceThenName).expressionStatement? tag = some (n, e)
    ∧ ∃ k ∈ p.tokensIn tag.code, n.span.encloses k.span = false ∧ k.isPunctuator ";" = false
  := by
  have hplaces : placesIn braceThenName 1 8
      = some (⟨20, 21⟩, [(⟨18, 19⟩, false), (⟨20, 21⟩, false)]) := by
    decide +kernel
  obtain ⟨p, tag, n, e, hp, htag, hstatement, hspan, htokens⟩ := of_placesIn hplaces
  have hk : (⟨18, 19⟩, false) ∈ (p.tokensIn tag.code).map placeOf := by
    rw [htokens]
    exact List.mem_cons_self
  obtain ⟨k, hk, heq⟩ := List.mem_map.mp hk
  obtain ⟨hkspan, hksemicolon⟩ := Prod.mk.inj heq
  refine ⟨p, tag, n, e, hp, htag, hstatement, k, hk, ?_, hksemicolon⟩
  rw [hspan, hkspan]
  rfl

end Analysis

end Stencil
