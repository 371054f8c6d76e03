import Mathlib.Data.List.Find
import Stencil.Proofs.Script.Blunt

/-!
# The same lexemes at two places

A code stands in two texts, in parentheses in the first one and as a statement in the second one.
A lexeme of the code that is read without a fault in the first text is read in the second text as
well.  Both readers meet the end of the code together, unless a comment of the code goes on behind
it.
-/

namespace Stencil.Script

open Text

variable {c : Char} {t t' v w : Text}

/-! ### Lexemes before a blunt text -/

/-- What a lexeme takes does not depend on the text behind the code. -/
theorem consumed_append_right (h : w.length ≤ v.length) (t : Text) :
  consumed (v ++ t) (w ++ t) = consumed v w
  := by
  have hlength : (v ++ t).length - (w ++ t).length = v.length - w.length := by
    rw [List.length_append, List.length_append]
    omega
  rw [consumed, hlength, List.take_append_of_le_length (Nat.sub_le _ _)]
  rfl

theorem isPrefixOf_append {m : Text} (hm : m.all (!isDull ·) = true) (ht : IsBlunt t) (v : Text) :
  m.isPrefixOf (v ++ t) = m.isPrefixOf v
  := by
  induction m generalizing v with
  | nil => rfl
  | cons d m ih =>
      rw [List.all_cons, Bool.and_eq_true, Bool.not_eq_true'] at hm
      cases v with
      | nil =>
          obtain rfl | ⟨c, rest, rfl, hc⟩ := ht.cases
          · rfl
          · have hne : (d == c) = false := beq_eq_false_iff_ne.mpr (ne_of_isDull hm.1 hc).symm
            rw [List.nil_append, List.isPrefixOf_cons_cons, hne]
            rfl
      | cons c v =>
          rw [List.cons_append, List.isPrefixOf_cons_cons, List.isPrefixOf_cons_cons, ih hm.2]

/-- A text that does not go on with some characters does not do so before a blunt text. -/
theorem not_prefix_append {m : Text} (hm : m.all (!isDull ·) = true) (ht : IsBlunt t)
    (h : ∀ w, v = m ++ w → False) (w : Text) (heq : v ++ t = m ++ w) : False := by
  have hprefix : m.isPrefixOf (v ++ t) = true := by
    rw [heq]
    exact List.isPrefixOf_iff_prefix.mpr (List.prefix_append m w)
  rw [isPrefixOf_append hm ht] at hprefix
  obtain ⟨w, rfl⟩ := List.isPrefixOf_iff_prefix.mp hprefix
  exact h w rfl

/-- No mark goes on with a dull character. -/
theorem markAt?_append (ht : IsBlunt t) (c : Char) (v : Text) :
  markAt? (c :: (v ++ t)) = markAt? (c :: v)
  := by
  have hmarks : markTexts.all (fun m => m.2.tail.all (!isDull ·)) = true := by decide
  unfold markAt?
  congr 1
  apply List.find?_congr
  rintro ⟨name, m⟩ hmem
  have hm := List.all_eq_true.mp hmarks _ hmem
  cases m with
  | nil => rfl
  | cons d m =>
      change (d :: m).isPrefixOf _ = (d :: m).isPrefixOf _
      rw [List.tail_cons] at hm
      rw [List.isPrefixOf_cons_cons, List.isPrefixOf_cons_cons, isPrefixOf_append hm ht]

theorem wordLexeme_before (r : WordReading) (t : Text) :
  wordLexeme (r.before t) = ((wordLexeme r).1, (wordLexeme r).2.1, (wordLexeme r).2.2 ++ t)
  := rfl

theorem numberLexeme_before (r : NumberReading) (t : Text) :
  numberLexeme (r.before t)
    = ((numberLexeme r).1, (numberLexeme r).2.1, (numberLexeme r).2.2 ++ t)
  := by
  obtain ⟨form, rest⟩ := r
  cases form <;> rfl

theorem privateLexeme_append (ht : IsBlunt t) (v : Text) :
  privateLexeme (v ++ t)
    = ((privateLexeme v).1, (privateLexeme v).2.1, (privateLexeme v).2.2 ++ t)
  := by
  unfold privateLexeme
  rw [readWord_append ht isWordStart_of_isDull (Nat.le_refl _) (Nat.le_refl _)]
  dsimp only [WordReading.before]
  split <;> rfl

theorem length_markAt?_le {m : String} {length : Nat} (h : markAt? v = some (m, length)) :
  length ≤ v.length
  := by
  obtain ⟨⟨name, piece⟩, hfind, hname⟩ := Option.map_eq_some_iff.mp h
  cases hname
  have hprefix := List.find?_some hfind
  exact (List.isPrefixOf_iff_prefix.mp hprefix).length_le

theorem markLexeme_append (ht : IsBlunt t) (c : Char) (v : Text) :
  markLexeme c (v ++ t) = ((markLexeme c v).1, (markLexeme c v).2.1, (markLexeme c v).2.2 ++ t)
  := by
  by_cases hpoint : c = '?' ∧ v = ['.']
  · -- the character behind the point is dull and therefore no digit
    obtain ⟨rfl, rfl⟩ := hpoint
    obtain rfl | ⟨d, rest, rfl, hd⟩ := ht.cases
    · rfl
    · change (if d.isDigit then _ else _) = _
      rw [isDigit_of_isDull hd]
      rfl
  · have hgoes (hne : ∀ d w, c = '?' → v = '.' :: d :: w → False) (d : Char) (w : Text)
        (hc : c = '?') (h : v ++ t = '.' :: d :: w) : False := by
      cases v with
      | nil => exact ne_cons_append ht rfl (fun _ hnil => List.cons_ne_nil _ _ hnil.symm) _ h
      | cons e v =>
          cases v with
          | nil => exact hpoint ⟨hc, congrArg (· :: []) (List.cons.inj h).1⟩
          | cons d v => exact hne d v hc (congrArg (· :: d :: v) (List.cons.inj h).1)
    fun_cases markLexeme c v with
    | case1 | case2 => simp [markLexeme, *]
    | case3 =>
        rename_i hne h
        rw [markLexeme.eq_2 _ _ (hgoes hne), markAt?_append ht, h]
        dsimp only
        rw [← List.cons_append, List.drop_append_of_le_length (length_markAt?_le h)]
    | case4 =>
        rename_i hne h
        rw [markLexeme.eq_2 _ _ (hgoes hne), markAt?_append ht, h]

theorem lexemeAt_append (ht : IsBlunt t) (c : Char) (v : Text) :
  lexemeAt c (v ++ t) = ((lexemeAt c v).1, (lexemeAt c v).2.1, (lexemeAt c v).2.2 ++ t)
  := by
  unfold lexemeAt
  rw [head?_append_blunt isDigit_of_isDull ht, readNumber_append ht, privateLexeme_append ht,
    markLexeme_append ht, ← List.cons_append,
    readWord_append ht isWordStart_of_isDull (Nat.le_refl _) (Nat.le_refl _)]
  split
  · rfl
  split
  · exact numberLexeme_before _ t
  split
  · rfl
  split
  · rfl
  split
  · rfl
  · rfl

theorem templateLexeme_eq_false {atStart : Bool} :
  (templateLexeme atStart v).2.1 = false ↔ (readTemplate v).ending ≠ .text
  := by
  unfold templateLexeme
  dsimp only
  split
  · next h => simpa using h
  · next h => simpa using h

theorem templateLexeme_eq_malformed {atStart : Bool}
    (h : ¬ (templateLexeme atStart v).2.1 = false) :
  (templateLexeme atStart v).1 = .malformed
  := by
  unfold templateLexeme at *
  dsimp only at *
  split at h
  · next hending => rw [if_pos hending]
  · exact (h rfl).elim

/-- A piece of a template that ends is the same lexeme before every text. -/
theorem templateLexeme_append {atStart : Bool} (h : (templateLexeme atStart v).2.1 = false)
    (t : Text) :
  templateLexeme atStart (v ++ t)
    = ((templateLexeme atStart v).1, false, (templateLexeme atStart v).2.2 ++ t)
  := by
  have hending := templateLexeme_eq_false.mp h
  have hne : ((readTemplate v).ending == .text) = false := beq_eq_false_iff_ne.mpr hending
  unfold templateLexeme
  rw [readTemplate_append hending]
  dsimp only [TemplateReading.before]
  rw [hne]
  rfl

theorem templateLexeme_of_append {atStart : Bool} (hdull : ∀ c ∈ t, isDull c = true)
    (h : (templateLexeme atStart (v ++ t)).2.1 = false) :
  (templateLexeme atStart v).2.1 = false
  := by
  rw [templateLexeme_eq_false] at h ⊢
  exact ending_readTemplate_of_append hdull h

/-! ### Twins -/

/-- A code that stands in parentheses in a first text, where it begins at offset `start`, and as a
statement in a second text, where it begins `shift` bytes further on and the lexeme before it ends
at offset `before`. -/
structure Seam where
  code : Text
  start : Nat
  shift : Nat
  before : Nat
  before_le : before ≤ start + shift

namespace Seam

variable (E : Seam)

/-- The offset of the end of the code in the first text. -/
def stop : Nat := E.start + width E.code

/-- What follows the code in the first text. -/
def tail : Text := [')']

/-- What follows the code in the second text. -/
def tail' : Text := [' ', '\n', ';']

theorem dull_tail : ∀ c ∈ tail, isDull c = true := List.all_eq_true.mp (by decide)

theorem dull_tail' : ∀ c ∈ tail', isDull c = true := List.all_eq_true.mp (by decide)

theorem blunt_tail :
  IsBlunt tail
  := fun c hc => dull_tail c (List.mem_of_mem_head? hc)

theorem blunt_tail' :
  IsBlunt tail'
  := fun c hc => dull_tail' c (List.mem_of_mem_head? hc)

end Seam

/-- The lexemes are the same one in the two texts: it begins where the part `v` of the code begins
and leaves the part `w`. -/
structure Seam.Reads (E : Seam) (v w : Text) (l l' : Lexed) : Prop where
  suffix : v <:+ E.code
  leaves : w <:+ v
  takes : w.length < v.length
  here : l.here = v ++ Seam.tail
  here' : l'.here = v ++ Seam.tail'
  rest : l.rest = w ++ Seam.tail
  rest' : l'.rest = w ++ Seam.tail'
  start : l.start + width v = E.stop
  start' : l'.start = l.start + E.shift
  stop : l.stop = l.start + consumed v w
  stop' : l'.stop = l.stop + E.shift
  lexeme : l'.lexeme = l.lexeme
  newLine : l'.newLine = l.newLine
  goesOn : l.lexeme.isEnd = false
  clean' : l'.faults = []

/-- The lexemes are the same one in the two texts. -/
def Seam.Twin (E : Seam) (l l' : Lexed) : Prop := ∃ v w, E.Reads v w l l'

theorem Writes.suffix (h : Writes v w) :
  w <:+ v
  := by
  obtain ⟨front, rfl, -⟩ := h.exists_eq_append
  exact List.suffix_append front w

/-- No lexeme is read where there is a fault, and one is read where there is none. -/
theorem isEnd_lexemeAt (c : Char) (v : Text) :
  (lexemeAt c v).1.isEnd = (lexemeAt c v).2.1
  := by
  unfold lexemeAt
  split
  · unfold wordLexeme
    dsimp only
    split
    · next hfaulty => rw [hfaulty]; rfl
    · next hfaulty => rw [eq_false_of_ne_true hfaulty]; rfl
  split
  · unfold numberLexeme
    split <;> rfl
  split
  · unfold privateLexeme
    dsimp only
    split <;> rfl
  split
  · rfl
  split
  · rfl
  · unfold markLexeme
    split
    · split <;> rfl
    · split <;> rfl

theorem isEnd_templateLexeme (atStart : Bool) (v : Text) :
  (templateLexeme atStart v).1.isEnd = (templateLexeme atStart v).2.1
  := by
  unfold templateLexeme
  dsimp only
  split <;> rfl

namespace Seam

variable {E : Seam} {n : Nat} {newLine : Bool} {comments comments' : List Span}

theorem reads_of {lexeme : Lexeme} {faults faults' : List Fault} (hv : v <:+ E.code)
    (hn : n + width v = E.stop) (hw : w <:+ v) (hlength : w.length < v.length)
    (hlexeme : lexeme.isEnd = false) (hfaults : faults' = []) :
  E.Reads v w
    ⟨lexeme, v ++ tail, n, n + consumed (v ++ tail) (w ++ tail), w ++ tail, newLine,
      comments, faults⟩
    ⟨lexeme, v ++ tail', n + E.shift, n + E.shift + consumed (v ++ tail') (w ++ tail'),
      w ++ tail', newLine, comments', faults'⟩
  where
    suffix := hv
    leaves := hw
    takes := hlength
    here := rfl
    here' := rfl
    rest := rfl
    rest' := rfl
    start := hn
    start' := rfl
    stop := by rw [consumed_append_right (Nat.le_of_lt hlength)]
    stop' := by
      have hle := Nat.le_of_lt hlength
      rw [consumed_append_right hle, consumed_append_right hle]
      dsimp only
      omega
    lexeme := rfl
    newLine := rfl
    goesOn := hlexeme
    clean' := hfaults

/-- A lexeme that is read without a fault is the same before every text. -/
theorem reads_lexHere (hv : v <:+ E.code) (hne : v ≠ []) (hn : n + width v = E.stop)
    (hhead : ∀ c ∈ v.head?, isInk c = true)
    (hclean : (lexHere n newLine comments (v ++ tail)).faults = []) :
  ∃ w, E.Reads v w (lexHere n newLine comments (v ++ tail))
    (lexHere (n + E.shift) newLine comments' (v ++ tail'))
  := by
  obtain ⟨c, v, rfl⟩ := List.exists_cons_of_ne_nil hne
  have hc := hhead c rfl
  unfold lexHere at *
  dsimp only [List.cons_append] at *
  split at hclean
  · next hquote =>
      have hdull : isDull c = false := by
        simp only [Bool.or_eq_true, beq_iff_eq] at hquote
        rcases hquote with rfl | rfl <;> rfl
      split at hclean
      · next hclosed =>
          have hclosed := closed_readString_of_append dull_tail hdull hclosed
          have hcloses := (closes_readString hc hclosed).cons (c := c)
          refine ⟨(readString c v).rest, ?_⟩
          simp only [hquote, readString_append hclosed, QuotedReading.before, hclosed, if_true]
            at hclean ⊢
          apply reads_of hv hn (Writes.suffix (.inr hcloses)) hcloses.length_lt rfl hclean
      · cases hclean
  split at hclean
  · next hquote hback =>
      have hfault : (templateLexeme true (v ++ tail)).2.1 = false := by
        simpa using hclean
      have hfault := templateLexeme_of_append dull_tail hfault
      have hcloses := (closes_templateLexeme hfault).cons (c := c)
      refine ⟨(templateLexeme true v).2.2, ?_⟩
      simp only [hquote, hback, templateLexeme_append hfault, if_true]
      apply reads_of hv hn (Writes.suffix (.inr hcloses)) hcloses.length_lt
        ((isEnd_templateLexeme _ _).trans hfault) rfl
  · next hquote hback =>
      have hfault : (lexemeAt c v).2.1 = false := by
        rw [lexemeAt_append blunt_tail] at hclean
        simpa using hclean
      refine ⟨(lexemeAt c v).2.2, ?_⟩
      simp only [hquote, hback, lexemeAt_append blunt_tail, lexemeAt_append blunt_tail', hfault]
      apply reads_of hv hn (writes_lexemeAt hc).suffix (length_lexemeAt_lt c v)
        ((isEnd_lexemeAt _ _).trans hfault) rfl

/-! ### Lexemes that the grammar asks for -/

variable {l l' : Lexed}

theorem Reads.drop_here (h : E.Reads v w l l') :
  l.here.drop 1 = v.drop 1 ++ tail ∧ l'.here.drop 1 = v.drop 1 ++ tail'
  := by
  have hv : 1 ≤ v.length := Nat.lt_of_le_of_lt (Nat.zero_le _) h.takes
  rw [h.here, h.here', List.drop_append_of_le_length hv, List.drop_append_of_le_length hv]
  exact ⟨rfl, rfl⟩

/-- A lexeme that is read in another way from the same place on. -/
theorem Reads.reread {u : Text} {faults' : List Fault} (h : E.Reads v w l l') (lexeme : Lexeme)
    (faults : List Fault) (hu : u <:+ v) (hlength : u.length < v.length)
    (hlexeme : lexeme.isEnd = false) (hfaults : faults' = []) :
  E.Reads v u
    { l with
      lexeme := lexeme
      stop := l.start + consumed l.here (u ++ tail)
      rest := u ++ tail
      faults := faults }
    { l' with
      lexeme := lexeme
      stop := l'.start + consumed l'.here (u ++ tail')
      rest := u ++ tail'
      faults := faults' }
  where
    suffix := h.suffix
    leaves := hu
    takes := hlength
    here := h.here
    here' := h.here'
    rest := rfl
    rest' := rfl
    start := h.start
    start' := h.start'
    stop := by rw [h.here, consumed_append_right (Nat.le_of_lt hlength)]
    stop' := by
      rw [h.here, h.here', h.start', consumed_append_right (Nat.le_of_lt hlength),
        consumed_append_right (Nat.le_of_lt hlength)]
      dsimp only
      omega
    lexeme := rfl
    newLine := h.newLine
    goesOn := hlexeme
    clean' := hfaults

/-- A regular expression that is read without a fault is the same before every text. -/
theorem Reads.asRegex (h : E.Reads v w l l') (hclean : l.asRegex.faults = []) :
  ∃ w, E.Reads v w l.asRegex l'.asRegex
  := by
  unfold Lexed.asRegex at *
  rw [h.lexeme]
  split at hclean
  · next hslash =>
      obtain ⟨hhere, hhere'⟩ := h.drop_here
      rw [hhere] at hclean
      dsimp only at hclean
      have hclosed : (readRegex false false (v.drop 1)).closed = true := by
        by_contra hopen
        have hopen' := mt (closed_readRegex_of_append dull_tail) hopen
        rw [eq_false_of_ne_true hopen'] at hclean
        cases hclean
      have hcloses := (closes_readRegex hclosed).of_drop.append
        (writes_takeWhile isInk_of_isFlagCharacter _)
      have hflag {c : Char} (hc : isDull c = true) : isFlagCharacter c = false :=
        not_of_isDull (by decide) hc
      simp only [hslash, hhere, hhere', readRegex_append hclosed, QuotedReading.before, hclosed,
        if_true, takeWhile_append_blunt hflag blunt_tail, takeWhile_append_blunt hflag blunt_tail',
        drop_takeWhile_append, Bool.not_true, Bool.false_eq_true, if_false] at hclean ⊢
      exact ⟨_, h.reread _ _ (Writes.suffix (.inr hcloses)) hcloses.length_lt rfl hclean⟩
  · next hslash =>
      rw [if_neg hslash, if_neg hslash]
      exact ⟨w, h⟩

/-- The continuation of a template that is read without a fault is the same before every text. -/
theorem Reads.asTemplate (h : E.Reads v w l l') (hclean : l.asTemplate.faults = []) :
  ∃ w, E.Reads v w l.asTemplate l'.asTemplate
  := by
  unfold Lexed.asTemplate at *
  rw [h.lexeme]
  split at hclean
  · next hbrace =>
      obtain ⟨hhere, hhere'⟩ := h.drop_here
      rw [hhere] at hclean
      have hfault : (templateLexeme false (v.drop 1 ++ tail)).2.1 = false := by
        simpa using hclean
      have hfault := templateLexeme_of_append dull_tail hfault
      have hcloses := (closes_templateLexeme hfault).of_drop
      simp only [hbrace, hhere, hhere', templateLexeme_append hfault, if_true]
      exact ⟨_, h.reread _ _ (Writes.suffix (.inr hcloses)) hcloses.length_lt
        ((isEnd_templateLexeme _ _).trans hfault) rfl⟩
  · next hbrace =>
      rw [if_neg hbrace, if_neg hbrace]
      exact ⟨w, h⟩

theorem Reads.markAt?_here (h : E.Reads v w l l') :
  markAt? l.here = markAt? v ∧ markAt? l'.here = markAt? v
  := by
  obtain ⟨c, v, rfl⟩ := List.exists_cons_of_ne_nil
    (List.ne_nil_of_length_pos (Nat.zero_lt_of_lt h.takes))
  rw [h.here, h.here', List.cons_append, List.cons_append, markAt?_append blunt_tail,
    markAt?_append blunt_tail']
  exact ⟨rfl, rfl⟩

theorem Reads.asOperator (h : E.Reads v w l l') :
  ∃ w, E.Reads v w l.asOperator l'.asOperator
  := by
  unfold Lexed.asOperator
  obtain ⟨hhere, hhere'⟩ := h.markAt?_here
  rw [h.lexeme, hhere, hhere']
  split
  · next _ m length _ hmark =>
      have hne : v ≠ [] := List.ne_nil_of_length_pos (Nat.zero_lt_of_lt h.takes)
      have hlength := length_markAt?_le hmark
      obtain ⟨hwrites, hconsumed⟩ := writes_markAt? hmark
      have htakes := length_markAt?_lt hne hmark
      have hreads := h.reread (.mark m) l.faults hwrites.suffix htakes rfl h.clean'
      rw [h.here, h.here', consumed_append_right (Nat.le_of_lt htakes),
        consumed_append_right (Nat.le_of_lt htakes), hconsumed] at hreads
      rw [h.here, h.here', List.drop_append_of_le_length hlength,
        List.drop_append_of_le_length hlength]
      exact ⟨_, hreads⟩
  · exact ⟨w, h⟩

end Seam

/-! ### Trivia -/

/-- The mode of the same scan `k` bytes further on. -/
def TriviaMode.moved (k : Nat) : TriviaMode → TriviaMode
  | outside => outside
  | line start => line (start + k)
  | block start star => block (start + k) star

/-- Two scans of `v`, the second one `k` bytes further on, come to the same place in it, or both go
on behind it, from offset `stop` on in the first text. -/
inductive Trivia.Alike (t t' : Text) (k stop : Nat) (v : Text) : Trivia → Trivia → Prop where
  | inside {w : Text} {n : Nat} (newLine : Bool) (s s' : List Span) (hne : w ≠ []) (hw : w <:+ v)
      (hn : n + width w = stop) :
    Alike t t' k stop v ⟨w ++ t, n, newLine, s, none⟩ ⟨w ++ t', n + k, newLine, s', none⟩
  | behind (mode : TriviaMode) (newLine : Bool) (s s' : List Span) :
    Alike t t' k stop v (skipTrivia mode stop newLine s t)
      (skipTrivia (mode.moved k) (stop + k) newLine s' t')

theorem Trivia.Alike.suffix {k stop : Nat} {u : Text} {r r' : Trivia}
    (h : Alike t t' k stop u r r') (hu : u <:+ v) :
  Alike t t' k stop v r r'
  := by
  cases h with
  | inside newLine s s' hne hw hn => exact .inside newLine s s' hne (hw.trans hu) hn
  | behind mode newLine s s' => exact .behind mode newLine s s'

section

variable {offset : Nat} {newLine : Bool} {comments : List Span}

theorem skipTrivia_break (h : isLineBreak c = true) (v : Text) :
  skipTrivia .outside offset newLine comments (c :: v)
    = skipTrivia .outside (offset + c.utf8Size) true comments v
  := by
  rw [skipTrivia.eq_def]
  exact if_pos h

theorem skipTrivia_separator (h : isLineBreak c = false) (h' : isSeparator c = true) (v : Text) :
  skipTrivia .outside offset newLine comments (c :: v)
    = skipTrivia .outside (offset + c.utf8Size) newLine comments v
  := by
  rw [skipTrivia.eq_def]
  simp only [h, h', if_true, Bool.false_eq_true, if_false]

end

theorem alike_skipTrivia (ht : IsBlunt t) (ht' : IsBlunt t') {k stop : Nat} (mode : TriviaMode)
    {offset : Nat} (newLine : Bool) (comments comments' : List Span) (v : Text)
    (hstop : offset + width v = stop) :
  Trivia.Alike t t' k stop v (skipTrivia mode offset newLine comments (v ++ t))
    (skipTrivia (mode.moved k) (offset + k) newLine comments' (v ++ t'))
  := by
  have hnext {offset : Nat} {c : Char} {v : Text} (h : offset + width (c :: v) = stop) :
      offset + c.utf8Size + width v = stop := by
    rw [width_cons] at h
    omega
  fun_induction skipTrivia mode offset newLine comments v generalizing comments' with
  | case1 | case2 | case3 =>
      subst hstop
      exact .behind _ _ _ _
  | case4 offset _ _ c v _ _ h ih =>
      simp only [List.cons_append, TriviaMode.moved, skipTrivia, h, if_true,
        Nat.add_right_comm offset k]
      exact (ih _ (hnext hstop)).suffix (List.suffix_cons _ _)
  | case5 offset _ _ c v _ _ h ih =>
      simp only [List.cons_append, TriviaMode.moved, skipTrivia, h,
        Nat.add_right_comm offset k]
      exact (ih _ (hnext hstop)).suffix (List.suffix_cons _ _)
  | case6 offset _ _ c v _ _ _ h ih =>
      simp only [List.cons_append, TriviaMode.moved, skipTrivia, h, if_true,
        Nat.add_right_comm offset k]
      exact (ih _ (hnext hstop)).suffix (List.suffix_cons _ _)
  | case7 offset _ _ c v _ _ _ h ih =>
      simp only [List.cons_append, TriviaMode.moved, skipTrivia, h,
        Nat.add_right_comm offset k]
      exact (ih _ (hnext hstop)).suffix (List.suffix_cons _ _)
  | case8 offset _ _ c v _ h ih =>
      simp only [List.cons_append, TriviaMode.moved, skipTrivia_break h,
        Nat.add_right_comm offset k]
      exact (ih _ (hnext hstop)).suffix (List.suffix_cons _ _)
  | case9 offset _ _ c v _ h h' ih =>
      simp only [List.cons_append, TriviaMode.moved,
        skipTrivia_separator (eq_false_of_ne_true h) h', Nat.add_right_comm offset k]
      exact (ih _ (hnext hstop)).suffix (List.suffix_cons _ _)
  | case10 offset _ _ v h h' ih =>
      simp only [List.cons_append, TriviaMode.moved, skipTrivia, h, h',
        Nat.add_right_comm offset k]
      exact (ih _ (hnext (hnext hstop))).suffix (List.suffix_append ['/', '/'] _)
  | case11 offset _ _ v h h' ih =>
      simp only [List.cons_append, TriviaMode.moved, skipTrivia, h, h',
        Nat.add_right_comm offset k]
      exact (ih _ (hnext (hnext hstop))).suffix (List.suffix_append ['/', '*'] _)
  | case12 offset _ _ v h h' ih =>
      simp only [List.cons_append, TriviaMode.moved, skipTrivia, h, h',
        Nat.add_right_comm offset k]
      exact (ih _ (hnext (hnext (hnext (hnext hstop))))).suffix
        (List.suffix_append ['<', '!', '-', '-'] _)
  | case13 offset _ v h h' ih =>
      simp only [List.cons_append, TriviaMode.moved, skipTrivia, h, h', if_true,
        Nat.add_right_comm offset k]
      exact (ih _ (hnext (hnext (hnext hstop)))).suffix (List.suffix_append ['-', '-', '>'] _)
  | case14 offset newLine comments v hline h h' =>
      have hstay (t : Text) (offset : Nat) (comments : List Span) :
          skipTrivia .outside offset newLine comments ('-' :: '-' :: '>' :: t)
            = ⟨'-' :: '-' :: '>' :: t, offset, newLine, comments, none⟩ := by
        simp only [skipTrivia, h, h', hline]
        rfl
      simp only [List.cons_append, TriviaMode.moved, hstay]
      exact .inside _ _ _ (List.cons_ne_nil _ _) (List.suffix_refl _) hstop
  | case15 offset newLine comments c v =>
      rename_i hline hblock hopen hclose hbreak hseparator
      have hstay {t : Text} (ht : IsBlunt t) (offset : Nat) (comments : List Span) :
          skipTrivia .outside offset newLine comments (c :: (v ++ t))
            = ⟨c :: (v ++ t), offset, newLine, comments, none⟩ := by
        rw [skipTrivia.eq_10, if_neg hbreak, if_neg hseparator]
        · exact fun w hc => ne_cons_append ht rfl (fun w hv => hline w hc hv) w
        · exact fun w hc => ne_cons_append ht rfl (fun w hv => hblock w hc hv) w
        · exact fun w hc => not_prefix_append (m := ['!', '-', '-']) rfl ht
            (fun w hv => hopen w hc hv) w
        · exact fun w hc => ne_cons_cons_append ht rfl rfl (fun w hv => hclose w hc hv) w
      simp only [List.cons_append, TriviaMode.moved, hstay ht, hstay ht']
      exact .inside _ _ _ (List.cons_ne_nil _ _) (List.suffix_refl _) hstop

/-! ### The next lexeme -/

/-- The lexeme is the mark behind the code in the first text. -/
structure Lexed.IsEdge (l : Lexed) : Prop where
  lexeme : l.lexeme = .mark ")"
  rest : l.rest = []

/-- The first text is over. -/
structure Lexed.IsPast (l : Lexed) : Prop where
  lexeme : l.lexeme = .stop
  rest : l.rest = []

/-- The lexemes are the same and stand on the same line, or both of them stand behind the code. -/
def Lexed.Looks (l l' : Lexed) : Prop :=
  (l'.lexeme = l.lexeme ∧ l'.newLine = l.newLine)
    ∨ ((l.IsEdge ∨ l.lexeme.isEnd = true)
      ∧ (l'.lexeme = .mark ";" ∨ l'.lexeme.isEnd = true))

/-- The lexemes are the marks behind the code in the two texts. -/
structure Lexed.Meets (l l' : Lexed) : Prop where
  edge : l.IsEdge
  lexeme : l'.lexeme = .mark ";"
  rest : l'.rest = []
  newLine : l'.newLine = true
  clean : l'.faults = []

/-- What is skipped and the lexeme behind it. -/
def Trivia.lexed (r : Trivia) : Lexed :=
  match r.unclosed with
  | none => lexHere r.offset r.newLine r.comments r.rest
  | some start =>
    ⟨.stop, [], start, r.offset, [], r.newLine, r.comments,
      [.unterminatedComment ⟨start, r.offset⟩]⟩

theorem lex_eq (offset : Nat) (atStart : Bool) (t : Text) :
  lex offset atStart t = (skipTrivia .outside offset atStart [] t).lexed
  := rfl

/-- Which lexeme is read does not depend on the dull text behind it. -/
theorem lexeme_lexHere (hdull : ∀ c ∈ t, isDull c = true) (hne : v ≠ []) (n : Nat)
    (newLine : Bool) (comments : List Span) :
  (lexHere n newLine comments (v ++ t)).lexeme = (lexHere 0 false [] v).lexeme
  := by
  have hblunt : IsBlunt t := fun c hc => hdull c (List.mem_of_mem_head? hc)
  obtain ⟨c, v, rfl⟩ := List.exists_cons_of_ne_nil hne
  unfold lexHere
  dsimp only [List.cons_append]
  split
  · next hquote =>
      have hc : isDull c = false := by
        simp only [Bool.or_eq_true, beq_iff_eq] at hquote
        rcases hquote with rfl | rfl <;> rfl
      by_cases hclosed : (readString c v).closed = true
      · have hclosed' : (readString c (v ++ t)).closed = true := by
          rw [readString_append hclosed]
          exact hclosed
        rw [if_pos hclosed, if_pos hclosed', readString_append hclosed]
        rfl
      · have hopen := mt (closed_readString_of_append hdull hc) hclosed
        rw [if_neg hclosed, if_neg hopen]
  split
  · by_cases hfault : (templateLexeme true v).2.1 = false
    · rw [templateLexeme_append hfault]
    · have hfault' := mt (templateLexeme_of_append hdull) hfault
      dsimp only
      rw [templateLexeme_eq_malformed hfault, templateLexeme_eq_malformed hfault']
  · rw [lexemeAt_append hblunt]

namespace Seam

variable {E : Seam} {n : Nat} {newLine : Bool}

/-- What is read where both readers have left the code behind. -/
theorem meets_or_past (mode : TriviaMode) (newLine : Bool) (n n' : Nat) (s s' : List Span) (k : Nat)
    (hclean : (skipTrivia mode n newLine s tail).lexed.faults = []) :
  (skipTrivia mode n newLine s tail).lexed.Meets
      (skipTrivia (mode.moved k) n' newLine s' tail').lexed
    ∨ (skipTrivia mode n newLine s tail).lexed.IsPast
  := by
  cases mode with
  | outside => exact .inl ⟨⟨rfl, rfl⟩, rfl, rfl, rfl, rfl⟩
  | line start => exact .inr ⟨rfl, rfl⟩
  | block start star => cases star <;> cases hclean

theorem behind_skipTrivia (mode : TriviaMode) (newLine : Bool) (n n' : Nat) (s s' : List Span)
    (k : Nat) :
  ((skipTrivia mode n newLine s tail).lexed.IsEdge
      ∨ (skipTrivia mode n newLine s tail).lexed.lexeme.isEnd = true)
    ∧ ((skipTrivia (mode.moved k) n' newLine s' tail').lexed.lexeme = .mark ";"
      ∨ (skipTrivia (mode.moved k) n' newLine s' tail').lexed.lexeme.isEnd = true)
  := by
  cases mode with
  | outside => exact ⟨.inl ⟨rfl, rfl⟩, .inl rfl⟩
  | line start => exact ⟨.inr rfl, .inl rfl⟩
  | block start star => cases star <;> exact ⟨.inr rfl, .inr rfl⟩

/-- The next lexeme looks the same, whether it has a fault or not. -/
theorem looks_of_alike {r r' : Trivia} {k stop : Nat} {w : Text}
    (h : Trivia.Alike tail tail' k stop w r r') :
  r.lexed.Looks r'.lexed
  := by
  cases h with
  | inside newLine s s' hne hw hn =>
      refine .inl ⟨?_, ?_⟩
      · exact (lexeme_lexHere dull_tail' hne ..).trans (lexeme_lexHere dull_tail hne ..).symm
      · exact (here_lexHere ..).2.trans (here_lexHere ..).2.symm
  | behind mode newLine s s' => exact .inr (behind_skipTrivia ..)

theorem twin_of_alike {r r' : Trivia} {w : Text}
    (h : Trivia.Alike tail tail' E.shift E.stop w r r') (hw : w <:+ E.code)
    (hhead : ∀ c ∈ r.rest.head?, isInk c = true) (hclean : r.lexed.faults = []) :
  E.Twin r.lexed r'.lexed ∨ r.lexed.Meets r'.lexed ∨ r.lexed.IsPast
  := by
  cases h with
  | inside newLine s s' hne hv hn =>
      refine .inl ?_
      obtain ⟨u, hreads⟩ := reads_lexHere (hv.trans hw) hne hn (by
        intro c hc
        apply hhead
        rw [List.head?_append_of_ne_nil _ hne]
        exact hc) hclean
      exact ⟨_, u, hreads⟩
  | behind mode newLine s s' => exact .inr (meets_or_past _ _ _ _ _ _ _ hclean)

theorem looks_lex {w : Text} (hn : n + width w = E.stop) :
  (lex n newLine (w ++ tail)).Looks (lex (n + E.shift) newLine (w ++ tail'))
  := looks_of_alike (alike_skipTrivia blunt_tail blunt_tail' .outside newLine [] [] w hn)

/-- A lexeme that is read without a fault is read in both texts, or both readers meet the end of the
code, unless the first one has gone past it. -/
theorem twin_lex {w : Text} (hw : w <:+ E.code) (hn : n + width w = E.stop)
    (hclean : (lex n newLine (w ++ tail)).faults = []) :
  E.Twin (lex n newLine (w ++ tail)) (lex (n + E.shift) newLine (w ++ tail'))
    ∨ (lex n newLine (w ++ tail)).Meets (lex (n + E.shift) newLine (w ++ tail'))
    ∨ (lex n newLine (w ++ tail)).IsPast
  := twin_of_alike (alike_skipTrivia blunt_tail blunt_tail' .outside newLine [] [] w hn) hw
    (head?_skipTrivia .outside n newLine [] (w ++ tail)) hclean

/-! ### From one lexeme to the next -/

variable {v w : Text} {l l' : Lexed}

theorem consumed_add_width (h : w <:+ v) :
  consumed v w + width w = width v
  := by
  obtain ⟨front, rfl⟩ := h
  rw [consumed_append, width_append]

theorem Reads.stop_add_width (h : E.Reads v w l l') :
  l.stop + width w = E.stop
  := by
  rw [h.stop, Nat.add_assoc, consumed_add_width h.leaves, h.start]

theorem Reads.start_lt_stop (h : E.Reads v w l l') :
  l.start < l.stop
  := by
  rw [h.stop]
  exact Nat.lt_add_of_pos_right (consumed_pos h.takes)

/-- A lexeme of the code does not begin before it. -/
theorem Reads.le_start (h : E.Reads v w l l') :
  E.start ≤ l.start
  := by
  obtain ⟨front, hfront⟩ := h.suffix
  have hstart := h.start
  rw [Seam.stop, ← hfront, width_append] at hstart
  omega

theorem Reads.next (h : E.Reads v w l l') (hclean : (lex l.stop false l.rest).faults = []) :
  E.Twin (lex l.stop false l.rest) (lex l'.stop false l'.rest)
    ∨ (lex l.stop false l.rest).Meets (lex l'.stop false l'.rest)
    ∨ (lex l.stop false l.rest).IsPast
  := by
  rw [h.stop', h.rest'] at *
  rw [h.rest] at *
  exact twin_lex (h.leaves.trans h.suffix) h.stop_add_width hclean

theorem Reads.looks (h : E.Reads v w l l') :
  (lex l.stop false l.rest).Looks (lex l'.stop false l'.rest)
  := by
  rw [h.stop', h.rest', h.rest]
  exact looks_lex h.stop_add_width

end Seam

end Stencil.Script
