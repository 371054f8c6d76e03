import Stencil.Proofs.Script.Reading
import Stencil.Proofs.Script.Statements

/-!
# Scripts begin and end at edges

A lexeme begins with a character that is not a space, and unless it is faulty it ends with a written
character.  So the edges of a text are a footing for the readers of it, and the nodes of a script
begin and end at edges of its text.  The comments between lexemes begin with one of four marks.
Where a semicolon is missed, more is written on the same line.
-/

namespace Stencil

open Text

variable {s t rest : Text} {n : Nat}

/-- What begins with a written character begins at an edge. -/
theorem Text.Cut.isEdge (h : t.Cut n rest) (hrest : ∀ c ∈ rest.head?, isInk c = true) :
  t.IsEdge n
  := by
  obtain ⟨front, rfl, hn⟩ := h
  refine ⟨front, rest, rfl, hn, Or.inr (Or.inr ?_)⟩
  intro hspace
  cases hrest _ hspace

/-- The edges of a text are among its boundaries. -/
theorem Text.IsEdge.isBoundary (h : t.IsEdge n) :
  IsBoundary n t
  := by
  obtain ⟨front, rest, hfront, hn, -⟩ := h
  have hcut : t.Cut n rest := ⟨front, hfront, hn⟩
  exact hcut.isBoundary

/-- A character is written at offset `m`, and no line ends from offset `n` up to it. -/
def Text.GoesOn (t : Text) (n m : Nat) : Prop :=
  ∃ gap c rest, t.Cut n (gap ++ c :: rest) ∧ m = n + width gap ∧ isInk c = true
    ∧ ∀ d ∈ gap, isLineBreak d = false

namespace Script

theorem consumed_append (piece rest : Text) :
  consumed (piece ++ rest) rest = width piece
  := by
  rw [consumed, List.length_append, Nat.add_sub_cancel, List.take_left]

/-- What was read takes the text on to another cut. -/
theorem Writes.cut (h : Writes s rest) (hs : t.Cut n s) :
  t.Cut (n + consumed s rest) rest
  := by
  obtain ⟨piece, rfl, -⟩ := h.exists_eq_append
  rw [consumed_append]
  apply hs.append

/-- What was read from an edge on ends at an edge. -/
theorem Writes.isEdge (h : Writes s rest) (hs : t.Cut n s)
    (hhead : ∀ c ∈ s.head?, isInk c = true) :
  t.IsEdge (n + consumed s rest)
  := by
  obtain ⟨piece, rfl, hpiece⟩ := h.exists_eq_append
  rw [consumed_append]
  by_cases hnil : piece = []
  · subst hnil
    apply hs.isEdge hhead
  · obtain ⟨front, rfl, rfl⟩ := hs
    refine ⟨front ++ piece, rest, by simp, by simp, Or.inr (Or.inl ?_)⟩
    rw [List.getLast?_append_of_ne_nil _ hnil, List.getLast?_eq_some_getLast hnil]
    exact ⟨_, rfl, hpiece _ (List.getLast?_eq_some_getLast hnil)⟩

/-! ### Trivia -/

theorem cut_skipTrivia (mode : TriviaMode) (offset : Nat) (newLine : Bool) (comments : List Span)
    (hs : t.Cut offset s) :
  t.Cut (skipTrivia mode offset newLine comments s).offset
    (skipTrivia mode offset newLine comments s).rest
  := by
  fun_induction skipTrivia mode offset newLine comments s with
  | case1 => exact hs
  | case2 => exact hs
  | case3 => exact hs
  | case4 _ _ _ _ _ _ _ _ ih => exact ih hs.cons
  | case5 _ _ _ _ _ _ _ _ ih => exact ih hs.cons
  | case6 _ _ _ _ _ _ _ _ _ ih => exact ih hs.cons
  | case7 _ _ _ _ _ _ _ _ _ ih => exact ih hs.cons
  | case8 _ _ _ _ _ _ _ ih => exact ih hs.cons
  | case9 _ _ _ _ _ _ _ _ ih => exact ih hs.cons
  | case10 _ _ _ _ _ _ ih => exact ih hs.cons.cons
  | case11 _ _ _ _ _ _ ih => exact ih hs.cons.cons
  | case12 _ _ _ _ _ _ ih => exact ih hs.cons.cons.cons.cons
  | case13 _ _ _ _ _ ih => exact ih hs.cons.cons.cons
  | case14 => exact hs
  | case15 => exact hs

/-- What comes after trivia begins with a written character. -/
theorem head?_skipTrivia (mode : TriviaMode) (offset : Nat) (newLine : Bool) (comments : List Span)
    (s : Text) :
  ∀ c ∈ (skipTrivia mode offset newLine comments s).rest.head?, isInk c = true
  := by
  fun_induction skipTrivia mode offset newLine comments s with
  | case1 => simp
  | case2 => simp
  | case3 => simp
  | case14 => simp [isInk, isLineBreak]
  | case15 _ _ _ c _ _ _ _ _ hbreak hseparator =>
      intro d hd
      cases hd
      have hspace : c ≠ ' ' := by
        rintro rfl
        exact hseparator (by decide)
      simpa [isInk, hspace] using hbreak
  | _ => assumption

/-- Going on from `s` to `rest` leads past no end of a line, unless that is remembered. -/
def Passes (s : Text) (newLine : Bool) (rest : Text) (newLine' : Bool) : Prop :=
  ∃ gap, s = gap ++ rest ∧ (newLine' = false → newLine = false ∧ ∀ c ∈ gap, isLineBreak c = false)

namespace Passes

variable {newLine newLine' newLine'' : Bool} {c : Char}

theorem refl (s : Text) (newLine : Bool) :
  Passes s newLine s newLine
  := ⟨[], rfl, by simp⟩

theorem cons (h : Passes s newLine' rest newLine'')
    (hc : newLine' = false → newLine = false ∧ isLineBreak c = false) :
  Passes (c :: s) newLine rest newLine''
  := by
  obtain ⟨gap, rfl, hgap⟩ := h
  refine ⟨c :: gap, rfl, fun hline => ?_⟩
  obtain ⟨hline', hgap⟩ := hgap hline
  obtain ⟨hline, hc⟩ := hc hline'
  exact ⟨hline, List.forall_mem_cons.mpr ⟨hc, hgap⟩⟩

/-- A character that ends no line is passed. -/
theorem keep (h : Passes s newLine rest newLine') (hc : isLineBreak c = false) :
  Passes (c :: s) newLine rest newLine'
  := h.cons fun hline => ⟨hline, hc⟩

end Passes

theorem passes_skipTrivia (mode : TriviaMode) (offset : Nat) (newLine : Bool)
    (comments : List Span) (s : Text) :
  Passes s newLine (skipTrivia mode offset newLine comments s).rest
    (skipTrivia mode offset newLine comments s).newLine
  := by
  fun_induction skipTrivia mode offset newLine comments s with
  | case1 => apply Passes.refl
  | case2 => apply Passes.refl
  | case3 => apply Passes.refl
  | case4 _ _ _ _ _ _ _ _ ih => exact ih.cons (by simp)
  | case5 _ _ _ _ _ _ _ hbreak ih => exact ih.keep (by simpa using hbreak)
  | case6 _ _ _ _ _ _ _ _ hclosed ih =>
      refine ih.keep ?_
      simp only [Bool.and_eq_true, beq_iff_eq] at hclosed
      rw [hclosed.2]
      rfl
  | case7 _ _ _ _ _ _ _ _ _ ih => exact ih.cons fun hline => by simpa using hline
  | case8 _ _ _ _ _ _ _ ih => exact ih.cons (by simp)
  | case9 _ _ _ _ _ _ hbreak _ ih => exact ih.keep (by simpa using hbreak)
  | case10 _ _ _ _ _ _ ih => exact (ih.keep rfl).keep rfl
  | case11 _ _ _ _ _ _ ih => exact (ih.keep rfl).keep rfl
  | case12 _ _ _ _ _ _ ih => exact (((ih.keep rfl).keep rfl).keep rfl).keep rfl
  | case13 _ _ _ _ _ ih => exact ((ih.keep rfl).keep rfl).keep rfl
  | case14 => apply Passes.refl
  | case15 => apply Passes.refl

/-! ### Comments -/

/-- The marks with which a comment begins that ends with its line. -/
def lineCommentMarks : List Text := [ofString "//", ofString "<!--", ofString "-->"]

/-- The text is a comment that ends with its line, or the beginning of one. -/
def IsLineComment (body : Text) : Prop :=
  (∃ mark ∈ lineCommentMarks, mark <+: body) ∧ ∀ c ∈ body, isLineBreak c = false

/-- The text has a comment at the span. -/
def HasComment (t : Text) (s : Span) : Prop :=
  ∃ body rest, (IsLineComment body ∨ ofString "/*" <+: body) ∧ t.Cut s.start (body ++ rest)
    ∧ s.stop = s.start + width body

/-- Where the scan for trivia stands in a text: if in a comment, then behind a part of it. -/
def TriviaMode.Stands (t : Text) (mode : TriviaMode) (offset : Nat) (s : Text) : Prop :=
  match mode with
  | .outside => t.Cut offset s
  | .line start =>
    ∃ body, IsLineComment body ∧ t.Cut start (body ++ s) ∧ offset = start + width body
  | .block start _ =>
    ∃ body, ofString "/*" <+: body ∧ t.Cut start (body ++ s) ∧ offset = start + width body

theorem IsLineComment.append {body : Text} {c : Char} (h : IsLineComment body)
    (hc : isLineBreak c = false) :
  IsLineComment (body ++ [c])
  := by
  obtain ⟨⟨mark, hmark, hprefix⟩, hbody⟩ := h
  refine ⟨⟨mark, hmark, hprefix.trans (List.prefix_append _ _)⟩, ?_⟩
  simpa [or_imp, forall_and] using ⟨hbody, hc⟩

/-- A mark begins a comment that ends with its line. -/
theorem stands_line (mark : Text) (hmark : mark ∈ lineCommentMarks) (h : t.Cut n (mark ++ s)) :
  (TriviaMode.line n).Stands t (n + width mark) s
  := by
  have hall : (lineCommentMarks.all fun mark => mark.all (!isLineBreak ·)) = true := by decide
  have hbreak : ∀ mark ∈ lineCommentMarks, ∀ c ∈ mark, isLineBreak c = false := by
    simpa [List.all_eq_true] using hall
  exact ⟨mark, ⟨⟨mark, hmark, List.prefix_refl mark⟩, hbreak mark hmark⟩, h, rfl⟩

/-- The comments in trivia are comments of the text. -/
theorem hasComment_skipTrivia (mode : TriviaMode) (offset : Nat) (newLine : Bool)
    (comments : List Span) (hs : mode.Stands t offset s)
    (hcomments : ∀ c ∈ comments, HasComment t c) :
  ∀ c ∈ (skipTrivia mode offset newLine comments s).comments, HasComment t c
  := by
  fun_induction skipTrivia mode offset newLine comments s with
  | case1 => exact hcomments
  | case2 offset newLine comments start =>
      obtain ⟨body, hbody, hcut, hoffset⟩ := hs
      exact List.forall_mem_cons.mpr ⟨⟨body, [], Or.inl hbody, hcut, hoffset⟩, hcomments⟩
  | case3 => exact hcomments
  | case4 offset newLine comments c s next start hbreak ih =>
      obtain ⟨body, hbody, hcut, hoffset⟩ := hs
      apply ih
      · change t.Cut (offset + c.utf8Size) s
        rw [hoffset]
        exact hcut.append.cons
      · exact List.forall_mem_cons.mpr ⟨⟨body, c :: s, Or.inl hbody, hcut, hoffset⟩, hcomments⟩
  | case5 offset newLine comments c s next start hbreak ih =>
      obtain ⟨body, hbody, hcut, hoffset⟩ := hs
      have hline := hbody.append (by simpa using hbreak)
      refine ih ⟨body ++ [c], hline, by simpa using hcut, ?_⟩ hcomments
      simp [next, hoffset, Nat.add_assoc]
  | case6 offset newLine comments c s next start star hclosed ih =>
      obtain ⟨body, hbody, hcut, hoffset⟩ := hs
      apply ih
      · change t.Cut (offset + c.utf8Size) s
        rw [hoffset]
        exact hcut.append.cons
      · refine List.forall_mem_cons.mpr ⟨⟨body ++ [c], s, ?_, by simpa using hcut, ?_⟩, hcomments⟩
        · exact Or.inr (hbody.trans (List.prefix_append _ _))
        · simp [next, hoffset, Nat.add_assoc]
  | case7 offset newLine comments c s next start star hopen ih =>
      obtain ⟨body, hbody, hcut, hoffset⟩ := hs
      refine ih ⟨body ++ [c], hbody.trans (List.prefix_append _ _), by simpa using hcut, ?_⟩
        hcomments
      simp [next, hoffset, Nat.add_assoc]
  | case8 _ _ _ _ _ _ _ ih => exact ih (Text.Cut.cons hs) hcomments
  | case9 _ _ _ _ _ _ _ _ ih => exact ih (Text.Cut.cons hs) hcomments
  | case10 _ _ _ s _ _ ih => exact ih (stands_line (ofString "//") (by decide) hs) hcomments
  | case11 _ _ _ s _ _ ih => exact ih ⟨_, List.prefix_refl _, hs, rfl⟩ hcomments
  | case12 _ _ _ s _ _ ih =>
      exact ih (stands_line (ofString "<!--") (by decide) hs) hcomments
  | case13 _ _ s _ _ ih => exact ih (stands_line (ofString "-->") (by decide) hs) hcomments
  | case14 => exact hcomments
  | case15 => exact hcomments

/-! ### Lexemes -/

theorem Closes.of_drop (h : Closes (s.drop n) rest) :
  Closes s rest
  := by
  induction s generalizing n with
  | nil => simpa using h
  | cons c s ih =>
      cases n with
      | zero => exact h
      | succ n => exact (ih h).cons

/-- A mark is made of written characters of one byte. -/
theorem writes_markAt? {m : String} {length : Nat} (h : markAt? s = some (m, length)) :
  Writes s (s.drop length) ∧ consumed s (s.drop length) = length
  := by
  have hmarks : markTexts.all (fun x => width x.2 == x.2.length && x.2.all isInk) = true := by
    decide
  obtain ⟨⟨name, piece⟩, hfind, hname⟩ := Option.map_eq_some_iff.mp h
  cases hname
  have hmark := List.all_eq_true.mp hmarks _ (List.mem_of_find?_eq_some hfind)
  simp only [Bool.and_eq_true, beq_iff_eq, List.all_eq_true] at hmark
  have hprefix := List.find?_some hfind
  dsimp only at hprefix
  obtain ⟨rest, rfl⟩ := List.isPrefixOf_iff_prefix.mp hprefix
  rw [List.drop_left, consumed_append]
  exact ⟨writes_append hmark.2, hmark.1⟩

/-- Where a mark stands, something is left out behind it. -/
theorem length_markAt?_lt {m : String} {length : Nat} (hnil : s ≠ [])
    (h : markAt? s = some (m, length)) :
  (s.drop length).length < s.length
  := by
  have hmarks : markTexts.all (fun x => 0 < x.2.length) = true := by decide
  obtain ⟨⟨name, piece⟩, hfind, hname⟩ := Option.map_eq_some_iff.mp h
  cases hname
  have hmark := List.all_eq_true.mp hmarks _ (List.mem_of_find?_eq_some hfind)
  rw [decide_eq_true_eq] at hmark
  have hlength := List.length_pos_iff.mpr hnil
  rw [List.length_drop]
  exact Nat.sub_lt hlength hmark

theorem eq_append_of_markAt? {m : String} {length : Nat} (h : markAt? s = some (m, length)) :
  s = m.toList ++ s.drop length
  := by
  obtain ⟨⟨name, piece⟩, hfind, hname⟩ := Option.map_eq_some_iff.mp h
  cases hname
  have hprefix := List.find?_some hfind
  obtain ⟨mark, hmark, heq⟩ := List.mem_map.mp (List.mem_of_find?_eq_some hfind)
  cases heq
  obtain ⟨rest, rfl⟩ := List.isPrefixOf_iff_prefix.mp hprefix
  rw [List.drop_left]

theorem writes_markLexeme {c : Char} (hc : isInk c = true) :
  Writes (c :: s) (markLexeme c s).2.2
  := by
  unfold markLexeme
  split
  · split
    · exact (Writes.refl _).cons hc
    · exact ((Writes.refl _).cons (by decide)).cons hc
  · split
    · next hmark => exact (writes_markAt? hmark).1
    · exact (Writes.refl _).cons hc

theorem length_markLexeme_lt (c : Char) (s : Text) :
  (markLexeme c s).2.2.length < (c :: s).length
  := by
  have hself : s.length < (c :: s).length := Nat.lt_succ_self _
  unfold markLexeme
  split
  · split
    · exact hself
    · exact Nat.lt_succ_of_lt (Nat.lt_succ_self _)
  · split
    · next hmark => exact length_markAt?_lt nofun hmark
    · exact hself

theorem writes_lexemeAt {c : Char} (hc : isInk c = true) :
  Writes (c :: s) (lexemeAt c s).2.2
  := by
  unfold lexemeAt
  split
  · exact writes_readWord isInk_of_isWordStart _ _
  split
  · have hnumber := (writes_readNumber c s).cons hc
    unfold numberLexeme
    split <;> exact hnumber
  split
  · have hword := (writes_readWord isInk_of_isWordStart s s).cons hc
    unfold privateLexeme
    dsimp only
    split <;> exact hword
  split
  · exact (Writes.refl s).cons hc
  split
  · exact (Writes.refl s).cons hc
  · exact writes_markLexeme hc

/-- A mark is written as it is called. -/
theorem eq_append_of_lexemeAt {c : Char} {m : String} (h : (lexemeAt c s).1 = .mark m) :
  c :: s = m.toList ++ (lexemeAt c s).2.2
  := by
  revert h
  unfold lexemeAt
  split
  · unfold wordLexeme
    dsimp only
    split <;> nofun
  split
  · unfold numberLexeme
    split <;> nofun
  split
  · unfold privateLexeme
    dsimp only
    split <;> nofun
  split
  · next hat =>
      rintro ⟨⟩
      rw [beq_iff_eq.mp hat]
      rfl
  split
  · next hgreater =>
      rintro ⟨⟩
      rw [beq_iff_eq.mp hgreater]
      rfl
  · unfold markLexeme
    split
    · split <;> rintro ⟨⟩ <;> rfl
    · split
      · next hmark =>
          rintro ⟨⟩
          exact eq_append_of_markAt? hmark
      · nofun

theorem ne_mark_templateLexeme (atStart : Bool) (s : Text) (m : String) :
  (templateLexeme atStart s).1 ≠ .mark m
  := by
  unfold templateLexeme
  dsimp only
  split <;> nofun

/-- A lexeme is not empty. -/
theorem length_lexemeAt_lt (c : Char) (s : Text) :
  (lexemeAt c s).2.2.length < (c :: s).length
  := by
  have hself : s.length < (c :: s).length := Nat.lt_succ_self _
  unfold lexemeAt
  split
  · next hstart =>
      rw [Bool.or_eq_true, beq_iff_eq] at hstart
      exact length_readWord_lt nofun nofun fun d hd => by cases hd; exact hstart
  split
  · have hnumber := (writes_readNumber c s).length_le
    unfold numberLexeme
    split <;> exact Nat.lt_succ_of_le hnumber
  split
  · have hword := (writes_readWord isInk_of_isWordStart s s).length_le
    unfold privateLexeme
    dsimp only
    split <;> exact Nat.lt_succ_of_le hword
  split
  · exact hself
  split
  · exact hself
  · exact length_markLexeme_lt c s

/-- A piece of a template that was read without a fault ends with a written character. -/
theorem closes_templateLexeme {atStart : Bool} (h : (templateLexeme atStart s).2.1 = false) :
  Closes s (templateLexeme atStart s).2.2
  := by
  unfold templateLexeme at *
  dsimp only at *
  split at h
  · cases h
  · next hending =>
      rw [if_neg hending]
      apply closes_readTemplate
      simpa using hending

theorem here_lexHere (start : Nat) (newLine : Bool) (comments : List Span) (s : Text) :
  (lexHere start newLine comments s).here = s
    ∧ (lexHere start newLine comments s).newLine = newLine
  := by
  unfold lexHere
  split
  · exact ⟨rfl, rfl⟩
  · dsimp only
    split
    · split <;> exact ⟨rfl, rfl⟩
    · split <;> exact ⟨rfl, rfl⟩

/-- A lexeme of the text that was read without a fault.  Only at the end of the text it is empty. -/
structure Lexed.In (t : Text) (l : Lexed) : Prop where
  clean : l.faults = []
  stops : l.here = [] → l.lexeme = .stop
  takes : l.here ≠ [] → l.rest.length < l.here.length
  cut : t.Cut l.start l.here
  head : ∀ c ∈ l.here.head?, isInk c = true
  stop : l.stop = l.start + consumed l.here l.rest
  writes : Writes l.here l.rest
  comments : ∀ s ∈ l.comments, HasComment t s
  mark : ∀ {m}, l.lexeme = .mark m → l.here = m.toList ++ l.rest

theorem in_lexHere {start : Nat} {newLine : Bool} {comments : List Span} (hs : t.Cut start s)
    (hhead : ∀ c ∈ s.head?, isInk c = true) (hcomments : ∀ s ∈ comments, HasComment t s)
    (hclean : (lexHere start newLine comments s).faults = []) :
  (lexHere start newLine comments s).In t
  := by
  cases s with
  | nil => exact ⟨rfl, fun _ => rfl, nofun, hs, hhead, rfl, .refl [], hcomments,
      nofun⟩
  | cons c s =>
      have hc := hhead c rfl
      revert hclean
      unfold lexHere
      dsimp only
      split
      · split
        · next hclosed =>
            intro hclean
            have hcloses := (closes_readString hc hclosed).cons (c := c)
            exact ⟨hclean, nofun, fun _ => hcloses.length_lt, hs, hhead, rfl, Or.inr hcloses,
              hcomments, nofun⟩
        · intro hclean
          cases hclean
      split
      · intro hclean
        have hcloses : Closes (c :: s) (templateLexeme true s).2.2 := by
          apply Closes.cons
          apply closes_templateLexeme
          simpa using hclean
        exact ⟨hclean, nofun, fun _ => hcloses.length_lt, hs, hhead, rfl, Or.inr hcloses,
          hcomments, fun hmark => (ne_mark_templateLexeme true s _ hmark).elim⟩
      · intro hclean
        exact ⟨hclean, nofun, fun _ => length_lexemeAt_lt c s, hs, hhead, rfl, writes_lexemeAt hc,
          hcomments, eq_append_of_lexemeAt⟩

theorem in_lex {offset : Nat} {atStart : Bool} (hs : t.Cut offset s)
    (hclean : (lex offset atStart s).faults = []) :
  (lex offset atStart s).In t
  := by
  unfold lex at *
  dsimp only at *
  split at *
  · apply in_lexHere _ (head?_skipTrivia _ _ _ _ _) _ hclean
    · apply cut_skipTrivia _ _ _ _ hs
    · exact hasComment_skipTrivia .outside _ _ _ hs (by simp)
  · cases hclean

theorem Lexed.In.next {l : Lexed} (h : l.In t) (hclean : (lex l.stop false l.rest).faults = []) :
  (lex l.stop false l.rest).In t
  := by
  apply in_lex _ hclean
  rw [h.stop]
  apply h.writes.cut h.cut

theorem Lexed.In.asRegex {l : Lexed} (h : l.In t) (hclean : l.asRegex.faults = []) :
  l.asRegex.In t
  := by
  unfold Lexed.asRegex at hclean ⊢
  split at hclean
  · next hslash =>
      have hclosed : (readRegex false false (l.here.drop 1)).closed = true := by
        by_contra hopen
        dsimp only at hclean
        rw [eq_false_of_ne_true hopen] at hclean
        cases hclean
      rw [if_pos hslash]
      dsimp only at hclean ⊢
      have hcloses := (closes_readRegex hclosed).of_drop.append
        (writes_takeWhile isInk_of_isFlagCharacter _)
      rw [hclosed, if_pos rfl] at hclean ⊢
      refine ⟨hclean, fun hnil => ?_, fun _ => hcloses.length_lt, h.cut, h.head, rfl,
        Or.inr hcloses, h.comments, nofun⟩
      rw [h.stops hnil] at hslash
      cases hslash
  · next hslash =>
      rw [if_neg hslash]
      exact h

theorem Lexed.In.asTemplate {l : Lexed} (h : l.In t) (hclean : l.asTemplate.faults = []) :
  l.asTemplate.In t
  := by
  unfold Lexed.asTemplate at hclean ⊢
  split at hclean
  · next hbrace =>
      have hending : (templateLexeme false (l.here.drop 1)).2.1 = false := by
        dsimp only at hclean
        simpa using hclean
      rw [if_pos hbrace]
      have hcloses := (closes_templateLexeme hending).of_drop
      refine ⟨hclean, fun hnil => ?_, fun _ => hcloses.length_lt, h.cut, h.head, rfl,
        Or.inr hcloses, h.comments, fun hmark => (ne_mark_templateLexeme false _ _ hmark).elim⟩
      rw [h.stops hnil] at hbrace
      cases hbrace
  · next hbrace =>
      rw [if_neg hbrace]
      exact h

theorem Lexed.In.asOperator {l : Lexed} (h : l.In t) :
  l.asOperator.In t
  := by
  unfold Lexed.asOperator
  split
  · next _ m length _ hmark =>
      obtain ⟨hwrites, hlength⟩ := writes_markAt? hmark
      refine ⟨h.clean, fun hnil => ?_, fun hnil => length_markAt?_lt hnil hmark, h.cut, h.head,
        by rw [hlength], hwrites, h.comments, ?_⟩
      · change l.here = [] at hnil
        rw [hnil] at hmark
        cases hmark
      · rintro _ ⟨⟩
        exact eq_append_of_markAt? hmark
  · exact h

theorem consumed_pos (h : rest.length < s.length) :
  0 < consumed s rest
  := by
  obtain ⟨c, s, rfl⟩ := List.exists_cons_of_ne_nil (List.length_pos_iff.mp (Nat.zero_lt_of_lt h))
  obtain ⟨n, hn⟩ := Nat.exists_eq_succ_of_ne_zero (Nat.sub_ne_zero_of_lt h)
  rw [consumed, hn, List.take_succ_cons, width_cons]
  have := c.utf8Size_pos
  omega

/-- A lexeme is not empty, unless the text is at its end. -/
theorem Lexed.In.start_lt_stop {l : Lexed} (h : l.In t) (hstop : l.lexeme ≠ .stop) :
  l.start < l.stop
  := by
  have hnil : l.here ≠ [] := fun hnil => hstop (h.stops hnil)
  rw [h.stop]
  exact Nat.lt_add_of_pos_right (consumed_pos (h.takes hnil))

/-! ### Missed semicolons -/

/-- What follows behind an offset, without the end of a line in between if `newLine` does not say
so. -/
def Follows (t : Text) (n : Nat) (here : Text) (newLine : Bool) : Prop :=
  ∃ gap, t.Cut n (gap ++ here) ∧ (newLine = false → ∀ c ∈ gap, isLineBreak c = false)

/-- A lexeme is read from what follows. -/
theorem follows_lex {offset : Nat} {atStart : Bool} (hs : t.Cut offset s)
    (hclean : (lex offset atStart s).faults = []) :
  Follows t offset (lex offset atStart s).here (lex offset atStart s).newLine
  := by
  unfold lex at *
  dsimp only at *
  split at *
  · obtain ⟨gap, heq, hgap⟩ := passes_skipTrivia .outside offset atStart [] s
    rw [(here_lexHere _ _ _ _).1, (here_lexHere _ _ _ _).2]
    exact ⟨gap, heq ▸ hs, fun hline => (hgap hline).2⟩
  · cases hclean

theorem Lexed.In.follows {l : Lexed} (h : l.In t) (hclean : (lex l.stop false l.rest).faults = []) :
  Follows t l.stop (lex l.stop false l.rest).here (lex l.stop false l.rest).newLine
  := by
  apply follows_lex _ hclean
  rw [h.stop]
  apply h.writes.cut h.cut

/-- The text goes on with a lexeme that follows on the same line. -/
theorem Lexed.In.goesOn {l : Lexed} (h : l.In t) (hfollows : Follows t n l.here l.newLine)
    (hline : l.newLine = false) (hstop : l.lexeme ≠ .stop) :
  ∃ m, t.GoesOn n m
  := by
  obtain ⟨gap, hcut, hgap⟩ := hfollows
  have hhead := h.head
  cases hhere : l.here with
  | nil => exact absurd (h.stops hhere) hstop
  | cons c rest =>
      rw [hhere] at hcut hhead
      exact ⟨_, gap, c, rest, hcut, rfl, hhead c rfl, hgap hline⟩

/-! ### The edges as a footing -/

/-- The line that tells how to run a script is the beginning of its text. -/
theorem cut_interpreterLine (t : Text) :
  t.Cut (width (interpreterLine t)) (t.drop (interpreterLine t).length)
  := by
  have hprefix : interpreterLine t <+: t := by
    unfold interpreterLine
    split
    · apply List.takeWhile_prefix
    · apply List.nil_prefix
  refine ⟨interpreterLine t, ?_, rfl⟩
  calc
    t = t.take (interpreterLine t).length ++ t.drop (interpreterLine t).length :=
      (List.take_append_drop _ t).symm
    _ = interpreterLine t ++ t.drop (interpreterLine t).length := by
      rw [← List.prefix_iff_eq_take.mp hprefix]

/-- The line that tells how to run a script ends where a line or the text does. -/
theorem isEdge_interpreterLine (t : Text) :
  t.IsEdge (width (interpreterLine t))
  := by
  unfold interpreterLine
  split
  · next rest =>
      refine ⟨_, _, List.takeWhile_append_dropWhile.symm, rfl, Or.inr (Or.inr ?_)⟩
      intro hspace
      have hbreak := List.head?_dropWhile_not (!isLineBreak ·) ('#' :: '!' :: rest)
      rw [hspace] at hbreak
      cases hbreak
  · exact ⟨[], t, rfl, rfl, Or.inl rfl⟩

/-- The lexemes of a text begin and end at its edges, and where a semicolon is missed the text goes
on. -/
def edges (t : Text) : Footing where
  admits l := l.In t
  place := t.IsEdge
  comment := HasComment t
  follows := Follows t
  lacks s := ∃ m, t.GoesOn s.start m
  start h := h.cut.isEdge h.head
  stop h := by
    rw [h.stop]
    apply h.writes.isEdge h.cut h.head
  comments h := h.comments
  next := Lexed.In.next
  regex := Lexed.In.asRegex
  template := Lexed.In.asTemplate
  operator h _ := h.asOperator
  behind := Lexed.In.follows
  lack := Lexed.In.goesOn
  order h := by
    rw [h.stop]
    apply Nat.le_add_right

theorem bears_edges (t : Text) :
  (edges t).Bears t
  := by
  constructor
  · intro hclean
    have hin := in_lex (cut_interpreterLine t) hclean
    have hcomments := (descend_lex hclean).append .nil (Nat.zero_le _) (order_lex hclean).1
    rw [List.append_nil] at hcomments
    exact ⟨hin, isEdge_interpreterLine t, hin.comments, follows_lex (cut_interpreterLine t) hclean,
      (order_lex hclean).1, hcomments⟩
  · exact ⟨[], t, rfl, rfl, Or.inl rfl⟩
  · exact ⟨t, [], by simp, rfl, Or.inr (Or.inr (by simp))⟩

/-- The nodes of a program begin and end at edges of its text. -/
theorem Program.endsAt_isEdge {p : Program} (h : ofText t = .ok p) :
  p.tree.EndsAt t.IsEdge
  := endsAt_of_ofText (bears_edges t) h

/-- The comments of a program are those that its text has at some spans. -/
theorem Program.exists_comments {p : Program} (h : ofText t = .ok p) :
  ∃ spans : List Span, (∀ s ∈ spans, HasComment t s) ∧ p.comments = spans.map (Token.ofComment t)
  := by
  obtain ⟨parsed, hparsed, -, hcomments, -⟩ := parsed_of_ofText h
  exact ⟨parsed.comments, (Parsed.stands_of_ofText (bears_edges t) hparsed).2, hcomments⟩

end Script

end Stencil
