import Stencil.Proofs.Analysis.Statements
import Stencil.Proofs.Lint.TermPatterns
import Stencil.Proofs.Script.CommentOrder

/-!
# The findings for warning terms

No two comments of a document have the same span, and no comment lies in the code of two tags.  So
what the rule for warning terms says about a comment in the code of a tag is the finding for this
comment and nothing else: a single one if some term is found in the comment, and none otherwise.
A comment that is a term is therefore reported once, unless the term does not fit.  Then it is not
found in itself.
-/

namespace Stencil.Lint

open Text Pattern Script Analysis

/-! ### What the rule accepts -/

/-- Every term has a pattern. -/
theorem termPatterns_eq (o : TermOptions) :
  termPatterns o = .ok (o.terms.map fun term => (term, termPattern o.location term.toList))
  := by
  unfold termPatterns
  induction o.terms with
  | nil => rfl
  | cons term terms ih =>
      rw [List.mapM_cons, ih, ofSource?_termSource]
      rfl

/-- The rule accepts whatever gives options. -/
theorem accepts_warningTerms_iff {options : Json} :
  warningTerms.accepts options = .ok () ↔ ∃ o, TermOptions.ofJson? options = some o
  := by
  change (termPatternsOf options).map (fun _ => ()) = .ok () ↔ _
  unfold termPatternsOf
  cases TermOptions.ofJson? options with
  | none => simp [Except.map]
  | some o => simp [termPatterns_eq, Except.map]

/-! ### The finding for a comment -/

/-- The term is found in the text. -/
def finds (o : TermOptions) (t : Text) (term : String) : Bool :=
  ((termPattern o.location term.toList).find? t 0).isSome

/-- The finding for a comment, if one of the terms is found in it. -/
def termFinding? (o : TermOptions) (k : Token) : Option Finding :=
  (o.terms.find? (finds o k.value)).map fun term =>
    { span := k.span, message := "Unexpected '" ++ term ++ "' comment." }

/-- A term that is not empty is found in itself if and only if it fits. -/
theorem finds_toList {o : TermOptions} {term : String} (hempty : term ≠ "") :
  finds o term.toList term = true ↔ TermFits o.location term.toList
  := by
  have hterm : term.toList ≠ [] := by simpa using hempty
  exact isSome_find?_termPattern o.location hterm

theorem span_termFinding? {o : TermOptions} {k : Token} {finding : Finding}
    (h : termFinding? o k = some finding) :
  finding.span = k.span
  := by
  obtain ⟨term, -, rfl⟩ := Option.map_eq_some_iff.mp h
  rfl

/-- If a comment is a term that fits, then some term is found in it. -/
theorem exists_termFinding? {o : TermOptions} {k : Token} {term : String} (hterm : term ∈ o.terms)
    (hempty : term ≠ "") (hvalue : k.value = term.toList)
    (hfits : TermFits o.location term.toList) :
  ∃ t ∈ o.terms, termFinding? o k
    = some { span := k.span, message := "Unexpected '" ++ t ++ "' comment." }
  := by
  have hfound : (o.terms.find? (finds o k.value)).isSome = true := by
    rw [hvalue]
    exact List.find?_isSome.mpr ⟨term, hterm, (finds_toList hempty).mpr hfits⟩
  obtain ⟨t, ht⟩ := Option.isSome_iff_exists.mp hfound
  use t, List.mem_of_find?_eq_some ht
  rw [termFinding?, ht, Option.map_some]

/-- If a comment is the only term and the term does not fit, then nothing is found in it. -/
theorem termFinding?_eq_none {o : TermOptions} {k : Token} {term : String}
    (hterms : o.terms = [term]) (hempty : term ≠ "") (hvalue : k.value = term.toList)
    (hfits : ¬ TermFits o.location term.toList) :
  termFinding? o k = none
  := by
  have hfound := (finds_toList hempty).not.mpr hfits
  rw [termFinding?, hterms, hvalue, List.find?_singleton, if_neg hfound]
  rfl

/-! ### The findings for a document -/

/-- What the rule finds in a document that has a program. -/
theorem run_warningTerms {options : Json} {o : TermOptions} {a : Analysis} {p : Program}
    (ho : TermOptions.ofJson? options = some o) (hp : a.program = some p) (store : ViewStore) :
  ((warningTerms.check options a).run store).1
    = a.tags.flatMap fun tag => (p.commentsIn tag.code).filterMap (termFinding? o)
  := by
  have hpatterns : termPatternsOf options
      = .ok (o.terms.map fun term => (term, termPattern o.location term.toList)) := by
    rw [termPatternsOf, ho]
    exact termPatterns_eq o
  have hcheck : ((warningTerms.check options a).run store).1 = findTerms a (o.terms.map fun term =>
      (term, termPattern o.location term.toList)) := by
    simp only [warningTerms, hpatterns]
    rfl
  rw [hcheck, findTerms]
  congr 1
  funext tag
  rw [tokensOf?, hp, Option.map_some]
  dsimp only
  congr 1
  funext k
  rw [List.find?_map, Option.map_map]
  rfl

/-- If a single member of a list satisfies a condition and nothing is made of the others, then what
is made of this one is all that is made of the list. -/
theorem flatMap_eq_of_pairwise {α β : Type} {f : α → List β} {P : α → Prop} {l : List α} {a : α}
    (hpairwise : l.Pairwise fun a b => ¬ (P a ∧ P b)) (ha : a ∈ l) (hP : P a)
    (hothers : ∀ b ∈ l, ¬ P b → f b = []) :
  l.flatMap f = f a
  := by
  induction l with
  | nil => cases ha
  | cons b l ih =>
      obtain ⟨hfirst, hrest⟩ := List.pairwise_cons.mp hpairwise
      obtain ⟨hothersFirst, hothersRest⟩ := List.forall_mem_cons.mp hothers
      rw [List.flatMap_cons]
      rcases List.mem_cons.mp ha with rfl | ha
      · have hnone : l.flatMap f = [] := List.flatMap_eq_nil_iff.mpr fun c hc =>
          hothersRest c hc fun hPc => hfirst c hc ⟨hP, hPc⟩
        rw [hnone, List.append_nil]
      · rw [hothersFirst fun hPb => hfirst a ha ⟨hPb, hP⟩, List.nil_append]
        exact ih hrest ha hothersRest

variable {settings : Settings} {document : Text} {p : Program} {tag : Tag} {k : Token}

/-- No span lies in the code of two tags, unless it is empty. -/
theorem pairwise_code_encloses {read : ProgramReader} {s : Span} (hs : s.start < s.stop) :
  (ofDocument read settings document).tags.Pairwise fun a b =>
    ¬ (a.code.encloses s = true ∧ b.code.encloses s = true)
  := by
  rcases tags_ofDocument read settings document with htags | hnone
  · have htiled := Settings.tiled_of_tags htags
    apply (placed_tags read settings document).inOrder.imp_of_mem
    rintro a b ha hb hab ⟨hencloses, hencloses'⟩
    obtain ⟨-, hcode⟩ := htiled a ha
    obtain ⟨-, hcode'⟩ := htiled b hb
    have hstop := hcode.inOrder.2.2
    have hstart := hcode'.inOrder.1
    rw [Span.encloses_iff] at hencloses hencloses'
    omega
  · rw [hnone]
    exact List.Pairwise.nil

/-- Of the comments in the code of a tag at most one is reported with the span of a comment. -/
theorem filter_findings {source : Text} {o : TermOptions} (h : Program.ofText source = .ok p)
    (hk : k ∈ p.comments) (s : Span) :
  ((p.commentsIn s).filterMap (termFinding? o)).filter (·.span = k.span)
    = if s.encloses k.span then (termFinding? o k).toList else []
  := by
  have hpairwise : p.comments.Pairwise fun a b => ¬ (a.span = k.span ∧ b.span = k.span) :=
    (Program.pairwise_comments h).imp fun hprecedes hspans =>
      hprecedes.ne (hspans.1.trans hspans.2.symm)
  rw [Program.commentsIn_eq h, List.filterMap_filter, List.filter_filterMap,
    List.filterMap_eq_flatMap_toList]
  refine (flatMap_eq_of_pairwise hpairwise hk rfl fun other _ hother => ?_).trans ?_
  · rw [Option.toList_eq_nil_iff, Option.filter_eq_none_iff]
    intro finding hfinding
    obtain ⟨-, hfinding⟩ := Option.ite_none_right_eq_some.mp hfinding
    rw [decide_eq_true_eq, span_termFinding? hfinding]
    exact hother
  · split
    · cases hfinding : termFinding? o k with
      | none => rfl
      | some finding =>
          rw [Option.filter_some, span_termFinding? hfinding, if_pos (decide_eq_true rfl)]
    · rfl

/-- What the rule says about a comment. -/
def saidOf (options : Json) (a : Analysis) (store : ViewStore) (k : Token) : List Finding :=
  ((warningTerms.check options a).run store).1.filter (·.span = k.span)

/-- What the rule says about a comment in the code of a tag is the finding for this comment. -/
theorem saidOf_eq {options : Json} {o : TermOptions}
    (hp : (ofDocument readProgram settings document).program = some p)
    (ho : TermOptions.ofJson? options = some o)
    (htag : tag ∈ (ofDocument readProgram settings document).tags) (hk : k ∈ p.comments)
    (hinside : tag.code.encloses k.span = true) (store : ViewStore) :
  saidOf options (ofDocument readProgram settings document) store k = (termFinding? o k).toList
  := by
  have hprogram := program_of_readProgram (program_ofDocument hp)
  have hfilter (other : Tag) := filter_findings (o := o) hprogram hk other.code
  have hother (other : Tag) (h : ¬ other.code.encloses k.span = true) :
      (if other.code.encloses k.span then (termFinding? o k).toList else []) = [] := if_neg h
  have hcomment := Program.comment_nonempty hprogram hk
  rw [saidOf, run_warningTerms ho hp, List.filter_flatMap, funext hfilter,
    flatMap_eq_of_pairwise (pairwise_code_encloses hcomment) htag hinside fun other _ =>
      hother other, if_pos hinside]

/-- Whatever options the rule accepts, a comment in the code of a tag that is one of the terms and
not empty is reported once if the term fits, with the span of the comment.  If it is the only term
and does not fit, then the comment is not reported. -/
theorem said_of_term {options : Json}
    (hp : (ofDocument readProgram settings document).program = some p)
    (haccepts : warningTerms.accepts options = .ok ())
    (htag : tag ∈ (ofDocument readProgram settings document).tags) (hk : k ∈ p.comments)
    (hinside : tag.code.encloses k.span = true) (store : ViewStore) :
  ∃ o, TermOptions.ofJson? options = some o
    ∧ ∀ term ∈ o.terms, term ≠ "" → k.value = term.toList →
      (TermFits o.location term.toList →
        ∃ t ∈ o.terms, saidOf options (ofDocument readProgram settings document) store k
          = [{ span := k.span, message := "Unexpected '" ++ t ++ "' comment." }])
      ∧ (o.terms = [term] → ¬ TermFits o.location term.toList →
        saidOf options (ofDocument readProgram settings document) store k = [])
  := by
  obtain ⟨o, ho⟩ := accepts_warningTerms_iff.mp haccepts
  refine ⟨o, ho, fun term hterm hempty hvalue => ?_⟩
  rw [saidOf_eq hp ho htag hk hinside]
  constructor
  · intro hfits
    obtain ⟨t, ht, hfinding⟩ := exists_termFinding? hterm hempty hvalue hfits
    use t, ht
    rw [hfinding, Option.toList_some]
  · intro hterms hfits
    rw [termFinding?_eq_none hterms hempty hvalue hfits, Option.toList_none]

/-! ### Samples -/

/-- The tag and the comment of a document that has one of each, and a program. -/
def onlyComment? (document : Text) : Option (Tag × Token) := do
  let tags ← (({} : Settings).tags document).toOption
  let p ← (Program.ofText (scriptView document tags)).toOption
  match tags, p.comments with
  | [tag], [k] => some (tag, k)
  | _, _ => none

theorem of_onlyComment? (h : onlyComment? document = some (tag, k)) :
  ∃ p, (ofDocument readProgram {} document).program = some p
    ∧ tag ∈ (ofDocument readProgram {} document).tags ∧ k ∈ p.comments
  := by
  unfold onlyComment? at h
  obtain ⟨tags, htags, hread⟩ := Option.bind_eq_some_iff.mp h
  obtain ⟨p, hp, honly⟩ := Option.bind_eq_some_iff.mp hread
  rw [ofDocument_eq (eq_ok_of_toOption htags) (eq_ok_of_toOption hp)]
  split at honly
  · next hcomments =>
      cases honly
      refine ⟨p, rfl, List.mem_singleton.mpr rfl, ?_⟩
      rw [hcomments]
      exact List.mem_singleton.mpr rfl
  · cases honly

/-- Options with a single term. -/
def onlyTerm (term : String) : Json := .object [("terms", .array [.string term])]

/-- A tag with a comment that is a term. -/
def todo : Text := ofString "<%/*todo*/%>"

theorem said_of_term_todo :
  ∃ p tag k, (ofDocument readProgram {} todo).program = some p
    ∧ warningTerms.accepts (onlyTerm "todo") = .ok ()
    ∧ tag ∈ (ofDocument readProgram {} todo).tags ∧ k ∈ p.comments
    ∧ tag.code.encloses k.span = true ∧ k.value = "todo".toList ∧ TermFits .start "todo".toList
    ∧ saidOf (onlyTerm "todo") (ofDocument readProgram {} todo) [] k
      = [{ span := k.span, message := "Unexpected 'todo' comment." }]
  := by
  have hcomment : onlyComment? todo
      = some (.ofCode .evaluate ⟨0, 12⟩ ⟨2, 10⟩, ⟨.blockComment, "todo".toList, ⟨2, 10⟩⟩) := by
    decide +kernel
  obtain ⟨p, hp, htag, hk⟩ := of_onlyComment? hcomment
  have ho : TermOptions.ofJson? (onlyTerm "todo") = some { terms := ["todo"] } := rfl
  have haccepts := accepts_warningTerms_iff.mpr ⟨_, ho⟩
  have hfits : TermFits .start "todo".toList := by
    decide +kernel
  obtain ⟨o, ho', hsaid⟩ := said_of_term hp haccepts htag hk rfl []
  obtain rfl := Option.some.inj (ho.symm.trans ho')
  obtain ⟨t, ht, hsaid⟩ := (hsaid "todo" List.mem_cons_self (by decide) rfl).1 hfits
  obtain rfl := List.mem_singleton.mp ht
  exact ⟨p, _, _, hp, haccepts, htag, hk, rfl, rfl, hfits, hsaid⟩

/-- A tag with a comment that is a number, but neither a digit nor a letter. -/
def squared : Text := ofString "<%/*²*/%>"

/-- Where this number is the only term, the comment is not reported. -/
theorem exists_unsaid_term :
  ∃ p tag k, (ofDocument readProgram {} squared).program = some p
    ∧ warningTerms.accepts (onlyTerm "²") = .ok ()
    ∧ TermOptions.ofJson? (onlyTerm "²") = some { terms := ["²"] }
    ∧ tag ∈ (ofDocument readProgram {} squared).tags ∧ k ∈ p.comments
    ∧ tag.code.encloses k.span = true ∧ k.value = "²".toList
    ∧ ∀ store, saidOf (onlyTerm "²") (ofDocument readProgram {} squared) store k = []
  := by
  have hcomment : onlyComment? squared
      = some (.ofCode .evaluate ⟨0, 10⟩ ⟨2, 8⟩, ⟨.blockComment, "²".toList, ⟨2, 8⟩⟩) := by
    decide +kernel
  obtain ⟨p, hp, htag, hk⟩ := of_onlyComment? hcomment
  have ho : TermOptions.ofJson? (onlyTerm "²") = some { terms := ["²"] } := rfl
  have haccepts := accepts_warningTerms_iff.mpr ⟨_, ho⟩
  have hfits : ¬ TermFits .start "²".toList := by
    decide +kernel
  refine ⟨p, _, _, hp, haccepts, ho, htag, hk, rfl, rfl, fun store => ?_⟩
  rw [saidOf_eq hp ho htag hk rfl, termFinding?_eq_none rfl (by decide) rfl hfits,
    Option.toList_none]

end Stencil.Lint
