import Stencil.Proofs.Markup.Preorder

/-!
# Reading printed trees

A tree of elements, texts and comments is printed with a start tag and an end tag for each element,
with the values of its attributes in quotes.  When this is read, the same tree comes back, and each
part of it has the span where it was printed.

The reader comes over each printed piece and adds what it is: the text behind the piece matters only
where this is a text, which must not go on.  The trees in an element are read with this element
open, and its end tag closes it.
-/

namespace Stencil.Markup

open Text

/-! ### Printing -/

/-- A tree that is printed. -/
inductive Tree where
  | element (name : Text) (attributes : List (Text × Text)) (children : List Tree)
  | text (content : Text)
  | comment (content : Text)

/-- The tree is a text. -/
def Tree.isText : Tree → Bool
  | .text _ => true
  | _ => false

/-- Prints the name and the value of an attribute. -/
def printAttribute (a : Text × Text) : Text := ' ' :: a.1 ++ '=' :: '"' :: a.2 ++ ['"']

/-- Prints attributes. -/
def printAttributes (attributes : List (Text × Text)) : Text := attributes.flatMap printAttribute

/-- Prints a start tag. -/
def printStartTag (name : Text) (attributes : List (Text × Text)) : Text :=
  '<' :: name ++ printAttributes attributes ++ ['>']

/-- Prints an end tag. -/
def printEndTag (name : Text) : Text := '<' :: '/' :: name ++ ['>']

/-- Prints a comment. -/
def printComment (content : Text) : Text := '<' :: '!' :: '-' :: '-' :: content ++ ['-', '-', '>']

mutual

/-- Prints a tree. -/
def Tree.print : Tree → Text
  | .element name attributes children =>
    printStartTag name attributes ++ printAll children ++ printEndTag name
  | .text content => content
  | .comment content => printComment content

/-- Prints several trees. -/
def printAll : List Tree → Text
  | [] => []
  | tree :: rest => tree.print ++ printAll rest

end

mutual

/-- The number of elements of a tree within each other. -/
def Tree.depth : Tree → Nat
  | .element _ _ children => depthAll children + 1
  | .text _ => 0
  | .comment _ => 0

/-- The number of elements of several trees within each other. -/
def depthAll : List Tree → Nat
  | [] => 0
  | tree :: rest => max tree.depth (depthAll rest)

end

/-! ### Trees that can be read back -/

/-- The name begins with a letter and is in lower case, and each of its characters may stand in the
names of tags and attributes. -/
def IsName (name : Text) : Prop :=
  beginsName name = true ∧ ∀ c ∈ name, isNamePart c = true ∧ c ≠ '=' ∧ c.toLower = c

-- The characters are those of the name: deciding this for every character there is takes too long.
instance (name : Text) : Decidable (IsName name) :=
  have := List.decidableBAll (fun c => isNamePart c = true ∧ c ≠ '=' ∧ c.toLower = c) name
  inferInstanceAs (Decidable (_ ∧ _))

/-- The name is one of an element that has an end tag and may hold other elements. -/
def IsElementName (name : Text) : Prop :=
  IsName name ∧ name ∉ voidNames ∧ name ∉ rawNames ∧ name ∉ optionalEndNames

instance (name : Text) : Decidable (IsElementName name) := inferInstanceAs (Decidable (_ ∧ _))

mutual

/-- The tree is read back as it is. -/
def Tree.IsPlain : Tree → Prop
  | .element name attributes children =>
    IsElementName name ∧ (∀ a ∈ attributes, IsName a.1 ∧ '"' ∉ a.2) ∧ ArePlain children
  | .text content => content ≠ [] ∧ '<' ∉ content
  | .comment content => ¬['-', '-', '>'] <:+: content

/-- The trees are read back as they are, and no text follows a text. -/
def ArePlain : List Tree → Prop
  | [] => True
  | tree :: rest =>
    tree.IsPlain ∧ (tree.isText = true → ∀ next ∈ rest.head?, next.isText = false) ∧ ArePlain rest

end

mutual

/-- Whether a tree is read back as it is. -/
def Tree.decidableIsPlain : (tree : Tree) → Decidable tree.IsPlain
  | .element name attributes children =>
    have := decidableArePlain children
    inferInstanceAs (Decidable (IsElementName name ∧ (∀ a ∈ attributes, IsName a.1 ∧ '"' ∉ a.2)
      ∧ ArePlain children))
  | .text content => inferInstanceAs (Decidable (content ≠ [] ∧ '<' ∉ content))
  | .comment content => inferInstanceAs (Decidable ¬['-', '-', '>'] <:+: content)

/-- Whether trees are read back as they are. -/
def decidableArePlain : (trees : List Tree) → Decidable (ArePlain trees)
  | [] => isTrue trivial
  | tree :: rest =>
    have := tree.decidableIsPlain
    have := decidableArePlain rest
    inferInstanceAs (Decidable (tree.IsPlain
      ∧ (tree.isText = true → ∀ next ∈ rest.head?, next.isText = false) ∧ ArePlain rest))

end

instance (trees : List Tree) : Decidable (ArePlain trees) := decidableArePlain trees

/-! ### Where the pieces are printed -/

/-- An attribute that is printed from an offset on. -/
def attributeAt (start : Nat) (a : Text × Text) : Attribute :=
  let name : Span := ⟨start, start + width a.1⟩
  let value : Span := ⟨name.stop + 2, name.stop + 2 + width a.2⟩
  ⟨⟨start, value.stop + 1⟩, a.1, name, some (a.2, value)⟩

/-- Attributes that are printed from an offset on, each after a blank. -/
def attributesAt (offset : Nat) : List (Text × Text) → List Attribute
  | [] => []
  | a :: rest => attributeAt (offset + 1) a :: attributesAt (offset + width (printAttribute a)) rest

mutual

/-- The node that is printed from an offset on. -/
def Tree.nodeAt (offset : Nat) : Tree → Node
  | .element name attributes children =>
    let startTag : Span := ⟨offset, offset + width (printStartTag name attributes)⟩
    let stop := startTag.stop + width (printAll children)
    let endTag : Span := ⟨stop, stop + width (printEndTag name)⟩
    .element ⟨offset, endTag.stop⟩ name startTag
      (attributesAt (offset + width ('<' :: name)) attributes) (nodesAt startTag.stop children)
      (some endTag)
  | .text content => .text ⟨offset, offset + width content⟩
  | .comment content => .comment ⟨offset, offset + width (printComment content)⟩

/-- The nodes that are printed from an offset on. -/
def nodesAt (offset : Nat) : List Tree → List Node
  | [] => []
  | tree :: rest => tree.nodeAt offset :: nodesAt (offset + width tree.print) rest

end

theorem width_print_element (name : Text) (attributes : List (Text × Text)) (children : List Tree) :
  width (Tree.print (.element name attributes children))
    = width (printStartTag name attributes) + width (printAll children) + width (printEndTag name)
  := by rw [Tree.print, width_append, width_append]

/-! ### Going over what was printed -/

section Place

variable {condition : Char → Bool} {front more : Text} {n : Nat}

theorem skip_append (front more : Text) (n : Nat) :
  Place.skip ⟨front ++ more, n⟩ front.length = ⟨more, n + width front⟩
  := by simp [Place.skip]

theorem skipWhile_append (hfront : ∀ c ∈ front, condition c = true)
    (hmore : ∀ c ∈ more.head?, condition c = false) :
  Place.skipWhile ⟨front ++ more, n⟩ condition = ⟨more, n + width front⟩
  := by
  have hnone : more.takeWhile condition = [] := by
    cases more with
    | nil => rfl
    | cons c more => exact List.takeWhile_cons_of_neg (by simpa using hmore c rfl)
  rw [Place.skipWhile]
  dsimp only
  rw [List.takeWhile_append_of_pos hfront, hnone, List.append_nil, skip_append]

/-- Nothing is skipped where the condition fails. -/
theorem skipWhile_cons {c : Char} (hc : condition c = false) :
  Place.skipWhile ⟨c :: more, n⟩ condition = ⟨c :: more, n⟩
  := by simp [Place.skipWhile, Place.skip, hc]

theorem textTo_append (front more : Text) (n m : Nat) :
  Place.textTo ⟨front ++ more, n⟩ ⟨more, m⟩ = front
  := by simp [Place.textTo]

end Place

section Names

variable {name : Text}

theorem IsName.lower_eq (h : IsName name) :
  lower name = name
  := (List.map_congr_left fun c hc => (h.2 c hc).2.2).trans (List.map_id _)

theorem IsName.exists_cons (h : IsName name) :
  ∃ c rest, name = c :: rest ∧ isNameStart c = true
  := by
  obtain ⟨hbegins, -⟩ := h
  cases name with
  | nil => cases hbegins
  | cons c rest => exact ⟨c, rest, rfl, hbegins⟩

/-- A character of a name is not blank and is no mark of a tag. -/
theorem not_mark_of_isNamePart {c : Char} (h : isNamePart c = true) :
  isBlank c = false ∧ c ≠ '/' ∧ c ≠ '>'
  := by simpa [isNamePart, and_assoc] using h

end Names

/-! ### Reading tags -/

section Tags

variable {name more : Text} {n : Nat}

theorem IsName.head_of_append (h : IsName name) (more : Text) :
  ∀ c ∈ (name ++ more).head?, isBlank c = false ∧ c ≠ '/' ∧ c ≠ '>'
  := by
  obtain ⟨c, rest, rfl, -⟩ := h.exists_cons
  intro d hd
  obtain rfl := Option.some.inj hd
  exact not_mark_of_isNamePart (h.2 c List.mem_cons_self).1

/-- The name of a tag ends where it was printed. -/
theorem nameEnd_append (h : IsName name) (hmore : ∀ c ∈ more.head?, isNamePart c = false) :
  nameEnd ⟨name ++ more, n⟩ = ⟨more, n + width name⟩
  := skipWhile_append (fun c hc => (h.2 c hc).1) hmore

/-- The value of an attribute is read as it was printed. -/
theorem readValue_append {value : Text} (hvalue : '"' ∉ value) :
  readValue ⟨'"' :: (value ++ '"' :: more), n⟩
    = ⟨(value, ⟨n + 1, n + 1 + width value⟩), [], ⟨more, n + 1 + width value + 1⟩⟩
  := by
  have hstart : Place.skip ⟨'"' :: (value ++ '"' :: more), n⟩ 1 = ⟨value ++ '"' :: more, n + 1⟩ :=
    skip_append ['"'] (value ++ '"' :: more) n
  have hstop : Place.skipWhile ⟨value ++ '"' :: more, n + 1⟩ (· != '"')
      = ⟨'"' :: more, n + 1 + width value⟩ := by
    apply skipWhile_append
    · intro c hc
      rw [bne_iff_ne]
      rintro rfl
      exact hvalue hc
    · simp
  have hclose : Place.skip ⟨'"' :: more, n + 1 + width value⟩ 1
      = ⟨more, n + 1 + width value + 1⟩ := skip_append ['"'] more _
  rw [readValue_of_isQuote rfl rfl, quotedValue, hstart, hstop, textTo_append, hclose]
  rfl

/-- The name of an attribute ends where it was printed. -/
theorem attributeNameEnd_append (h : IsName name) :
  attributeNameEnd ⟨name ++ '=' :: more, n⟩ = ⟨'=' :: more, n + width name⟩
  := by
  obtain ⟨c, rest, rfl, -⟩ := h.exists_cons
  have hskip : Place.skip ⟨c :: rest ++ '=' :: more, n⟩ 1 = ⟨rest ++ '=' :: more, n + width [c]⟩ :=
    skip_append [c] (rest ++ '=' :: more) n
  rw [attributeNameEnd, hskip, skipWhile_append]
  · rw [Nat.add_assoc, ← width_append]
    rfl
  · intro d hd
    obtain ⟨hpart, hsign, -⟩ := h.2 d (List.mem_cons_of_mem c hd)
    obtain ⟨hblank, hslash, hbracket⟩ := not_mark_of_isNamePart hpart
    simp [hblank, hsign, hslash, hbracket]
  · simp

/-- An attribute is read as it was printed. -/
theorem readAttribute_append {a : Text × Text} (hname : IsName a.1) (hvalue : '"' ∉ a.2) :
  readAttribute ⟨a.1 ++ '=' :: '"' :: (a.2 ++ '"' :: more), n⟩
    = ⟨attributeAt n a, [], ⟨more, n + width a.1 + 2 + width a.2 + 1⟩⟩
  := by
  have hend : attributeNameEnd ⟨a.1 ++ '=' :: '"' :: (a.2 ++ '"' :: more), n⟩
      = ⟨'=' :: '"' :: (a.2 ++ '"' :: more), n + width a.1⟩ := attributeNameEnd_append hname
  have hsign : Place.skipWhile ⟨'=' :: '"' :: (a.2 ++ '"' :: more), n + width a.1⟩ isBlank
      = ⟨'=' :: '"' :: (a.2 ++ '"' :: more), n + width a.1⟩ := skipWhile_cons rfl
  have hskip : Place.skip ⟨'=' :: '"' :: (a.2 ++ '"' :: more), n + width a.1⟩ 1
      = ⟨'"' :: (a.2 ++ '"' :: more), n + width a.1 + 1⟩ := skip_append ['='] _ _
  have hquote : Place.skipWhile ⟨'"' :: (a.2 ++ '"' :: more), n + width a.1 + 1⟩ isBlank
      = ⟨'"' :: (a.2 ++ '"' :: more), n + width a.1 + 1⟩ := skipWhile_cons rfl
  rw [readAttribute_of_sign (by rw [hend, hsign]; rfl), hend, valuedAttribute, hsign, hskip, hquote,
    readValue_append hvalue, textTo_append, hname.lower_eq]
  rfl

/-- The text of a printed attribute and what follows it. -/
theorem printAttribute_append (a : Text × Text) (more : Text) :
  printAttribute a ++ more = ' ' :: (a.1 ++ '=' :: '"' :: (a.2 ++ '"' :: more))
  := by simp [printAttribute]

theorem width_printAttribute (a : Text × Text) :
  width (printAttribute a) = 1 + width a.1 + 2 + width a.2 + 1
  := by
  have hmarks : width [' '] = 1 ∧ width ['=', '"'] = 2 ∧ width ['"'] = 1 := ⟨rfl, rfl, rfl⟩
  have hparts : printAttribute a = [' '] ++ a.1 ++ ['=', '"'] ++ a.2 ++ ['"'] := by
    simp [printAttribute]
  rw [hparts]
  simp only [width_append, hmarks]

/-- The attributes of a start tag are read as they were printed. -/
theorem readTagRest_append {attributes : List (Text × Text)}
    (h : ∀ a ∈ attributes, IsName a.1 ∧ '"' ∉ a.2) (missing : Issue) {budget : Text}
    (hbudget : attributes.length < budget.length) :
  readTagRest missing budget ⟨printAttributes attributes ++ '>' :: more, n⟩
    = ⟨⟨attributesAt n attributes, false⟩, [],
      ⟨more, n + width (printAttributes attributes ++ ['>'])⟩⟩
  := by
  induction attributes generalizing n budget with
  | nil =>
      obtain ⟨d, budget, rfl⟩ := List.exists_cons_of_length_pos hbudget
      have hblank : Place.skipWhile ⟨'>' :: more, n⟩ isBlank = ⟨'>' :: more, n⟩ :=
        skipWhile_cons rfl
      have hskip : Place.skip ⟨'>' :: more, n⟩ 1 = ⟨more, n + width ['>']⟩ :=
        skip_append ['>'] more n
      have hnil : printAttributes [] ++ '>' :: more = '>' :: more := rfl
      rw [hnil, readTagRest_of_bracket (by rw [hblank]), hblank, hskip]
      rfl
  | cons a rest ih =>
      obtain ⟨⟨hname, hvalue⟩, hrest⟩ := List.forall_mem_cons.mp h
      obtain ⟨d, budget, rfl⟩ :=
        List.exists_cons_of_length_pos (Nat.lt_of_le_of_lt (Nat.zero_le _) hbudget)
      have hprint : printAttributes (a :: rest) = printAttribute a ++ printAttributes rest :=
        List.flatMap_cons
      generalize htail : printAttributes rest ++ '>' :: more = tail at ih
      have htext : printAttributes (a :: rest) ++ '>' :: more
          = ' ' :: (a.1 ++ '=' :: '"' :: (a.2 ++ '"' :: tail)) := by
        rw [hprint, List.append_assoc, htail, printAttribute_append]
      have hmarks := hname.head_of_append ('=' :: '"' :: (a.2 ++ '"' :: tail))
      have hblank : Place.skipWhile ⟨' ' :: (a.1 ++ '=' :: '"' :: (a.2 ++ '"' :: tail)), n⟩ isBlank
          = ⟨a.1 ++ '=' :: '"' :: (a.2 ++ '"' :: tail), n + 1⟩ :=
        skipWhile_append (List.forall_mem_singleton.mpr rfl) fun c hc => (hmarks c hc).1
      obtain ⟨c, letters, hcons⟩ : ∃ c letters,
          a.1 ++ '=' :: '"' :: (a.2 ++ '"' :: tail) = c :: letters :=
        List.exists_cons_of_ne_nil (by simp)
      obtain ⟨-, hslash, hbracket⟩ := hmarks c (by rw [hcons]; rfl)
      have hlength : rest.length < budget.length := by simpa using hbudget
      have hread : readAttribute ⟨a.1 ++ '=' :: '"' :: (a.2 ++ '"' :: tail), n + 1⟩
          = ⟨attributeAt (n + 1) a, [], ⟨tail, n + width (printAttribute a)⟩⟩ := by
        rw [readAttribute_append hname hvalue, width_printAttribute]
        congr 2
        omega
      rw [htext, readTagRest_of_attribute (by rw [hblank, hcons]) hslash hbracket, hblank, hread]
      dsimp only
      rw [ih hrest hlength, attributesAt, hprint, List.append_assoc,
        width_append (printAttribute a), Nat.add_assoc]
      rfl

theorem length_le_printAttributes (attributes : List (Text × Text)) :
  attributes.length ≤ (printAttributes attributes).length
  := by
  rw [printAttributes, List.length_flatMap]
  induction attributes with
  | nil => exact Nat.zero_le _
  | cons a rest ih =>
      rw [List.length_cons, List.map_cons, List.sum_cons, Nat.add_comm]
      exact Nat.add_le_add (by simp [printAttribute]) ih

/-- A start tag is read as it was printed. -/
theorem readToken_printStartTag (hname : IsName name) {attributes : List (Text × Text)}
    (h : ∀ a ∈ attributes, IsName a.1 ∧ '"' ∉ a.2) (more : Text) (n : Nat) :
  readToken ⟨printStartTag name attributes ++ more, n⟩
    = ⟨.startTag name ⟨n, n + width (printStartTag name attributes)⟩
        ⟨attributesAt (n + width ('<' :: name)) attributes, false⟩, [],
      ⟨more, n + width (printStartTag name attributes)⟩⟩
  := by
  have htext : printStartTag name attributes ++ more
      = '<' :: (name ++ (printAttributes attributes ++ '>' :: more)) := by
    simp [printStartTag]
  have hwidth : width (printStartTag name attributes)
      = width ('<' :: name) + width (printAttributes attributes ++ ['>']) := by
    rw [printStartTag, List.append_assoc, width_append]
  have hstart : Place.skip ⟨'<' :: (name ++ (printAttributes attributes ++ '>' :: more)), n⟩ 1
      = ⟨name ++ (printAttributes attributes ++ '>' :: more), n + width ['<']⟩ :=
    skip_append ['<'] _ n
  have hend : nameEnd ⟨name ++ (printAttributes attributes ++ '>' :: more), n + width ['<']⟩
      = ⟨printAttributes attributes ++ '>' :: more, n + width ('<' :: name)⟩ := by
    rw [nameEnd_append hname, Nat.add_assoc, ← width_append]
    · rfl
    · intro c hc
      cases attributes with
      | nil =>
          obtain rfl := Option.some.inj hc
          rfl
      | cons a rest =>
          obtain rfl := Option.some.inj hc
          rfl
  have hbudget :
      attributes.length < (' ' :: (printAttributes attributes ++ '>' :: more)).length := by
    have := length_le_printAttributes attributes
    rw [List.length_cons, List.length_append]
    omega
  obtain ⟨c, rest, hcons, hc⟩ := hname.exists_cons
  rw [htext, readToken_of_startTag (c := c) (by rw [hcons]; rfl) hc, startTagToken, hstart, hend]
  dsimp only
  rw [readTagRest_append h _ hbudget, textTo_append, hname.lower_eq, hwidth, Nat.add_assoc]
  rfl

/-- An end tag is read as it was printed. -/
theorem readToken_printEndTag (hname : IsName name) (more : Text) (n : Nat) :
  readToken ⟨printEndTag name ++ more, n⟩
    = ⟨.endTag name ⟨n, n + width (printEndTag name)⟩, [], ⟨more, n + width (printEndTag name)⟩⟩
  := by
  have htext : printEndTag name ++ more = '<' :: '/' :: (name ++ '>' :: more) := by
    simp [printEndTag]
  have hstart : Place.skip ⟨'<' :: '/' :: (name ++ '>' :: more), n⟩ 2
      = ⟨name ++ '>' :: more, n + width ['<', '/']⟩ := skip_append ['<', '/'] _ n
  have hend : nameEnd ⟨name ++ '>' :: more, n + width ['<', '/']⟩
      = ⟨'>' :: more, n + width ('<' :: '/' :: name)⟩ := by
    rw [nameEnd_append hname, Nat.add_assoc, ← width_append]
    · rfl
    · exact fun c hc => by
        obtain rfl := Option.some.inj hc
        rfl
  have hstop : tagEnd ⟨'>' :: more, n + width ('<' :: '/' :: name)⟩
      = ⟨more, n + width (printEndTag name)⟩ := by
    rw [printEndTag, width_append ('<' :: '/' :: name), ← Nat.add_assoc]
    exact skip_append ['>'] more _
  obtain ⟨c, rest, hcons, hc⟩ := hname.exists_cons
  rw [htext, readToken_of_endTag (c := c) (by rw [hcons]; rfl) hc, endTagToken, hstart, hend, hstop]
  rw [textTo_append, hname.lower_eq]
  rfl

end Tags

/-! ### Reading comments and texts -/

section Leaves

variable {content more : Text}

/-- A comment ends where it was printed. -/
theorem charsBefore?_comment (h : ¬['-', '-', '>'] <:+: content) (more : Text) :
  charsBefore? ['-', '-', '>'] (content ++ ('-' :: '-' :: '>' :: more)) = some content.length
  := by
  induction content with
  | nil => rfl
  | cons c content ih =>
      have hrest : ¬['-', '-', '>'] <:+: content :=
        fun hmore => h (hmore.trans ⟨[c], [], by simp⟩)
      have hnot :
          ¬['-', '-', '>'].isPrefixOf (c :: (content ++ '-' :: '-' :: '>' :: more)) = true := by
        intro hprefix
        obtain ⟨back, hback⟩ := List.isPrefixOf_iff_prefix.mp hprefix
        match content with
        | [] => simp at hback
        | [d] => simp at hback
        | d :: e :: content =>
            obtain ⟨rfl, rfl, rfl, -⟩ : '-' = c ∧ '-' = d ∧ '>' = e ∧ True := by
              simp only [List.cons_append, List.nil_append, List.cons.injEq] at hback
              exact ⟨hback.1, hback.2.1, hback.2.2.1, trivial⟩
            exact h ⟨[], content, rfl⟩
      rw [List.cons_append, charsBefore?, if_neg hnot, ih hrest]
      rfl

/-- A comment is read as it was printed. -/
theorem readToken_printComment (h : ¬['-', '-', '>'] <:+: content) (more : Text) (n : Nat) :
  readToken ⟨printComment content ++ more, n⟩
    = ⟨.leaf (.comment ⟨n, n + width (printComment content)⟩), [],
      ⟨more, n + width (printComment content)⟩⟩
  := by
  have htext : printComment content ++ more
      = '<' :: '!' :: '-' :: '-' :: (content ++ '-' :: '-' :: '>' :: more) := by
    simp [printComment]
  have hstart : Place.skip ⟨'<' :: '!' :: '-' :: '-' :: (content ++ '-' :: '-' :: '>' :: more), n⟩ 4
      = ⟨content ++ '-' :: '-' :: '>' :: more, n + width ['<', '!', '-', '-']⟩ :=
    skip_append ['<', '!', '-', '-'] _ n
  have hstop : Place.after? ⟨content ++ '-' :: '-' :: '>' :: more,
      n + width ['<', '!', '-', '-']⟩ ['-', '-', '>']
      = some ⟨more, n + width (printComment content)⟩ := by
    have hskip := skip_append (content ++ ['-', '-', '>']) more (n + width ['<', '!', '-', '-'])
    rw [List.append_assoc, List.length_append, Nat.add_assoc, ← width_append] at hskip
    rw [Place.after?, charsBefore?_comment h more]
    exact congrArg some hskip
  rw [htext, readToken_of_comment rfl, commentToken, hstart, hstop]
  rfl

theorem beginsMarkup_cons_of_ne {c : Char} (h : c ≠ '<') (t : Text) :
  beginsMarkup (c :: t) = false
  := by
  unfold beginsMarkup
  split <;> simp_all

/-- Text is read up to the next piece of markup. -/
theorem textLength_append (h : '<' ∉ content) (hmore : more = [] ∨ beginsMarkup more = true) :
  textLength (content ++ more) = content.length
  := by
  induction content with
  | nil =>
      rcases hmore with rfl | hmore
      · rfl
      · cases more with
        | nil => rfl
        | cons c more => exact if_pos hmore
  | cons c content ih =>
      obtain ⟨hc, hrest⟩ := not_or.mp (List.mem_cons.not.mp h)
      rw [List.cons_append, textLength, beginsMarkup_cons_of_ne (Ne.symm hc), ih hrest]
      rfl

/-- A text is read as it was printed. -/
theorem readToken_text (hcontent : content ≠ []) (h : '<' ∉ content)
    (hmore : more = [] ∨ beginsMarkup more = true) (n : Nat) :
  readToken ⟨content ++ more, n⟩
    = ⟨.leaf (.text ⟨n, n + width content⟩), [], ⟨more, n + width content⟩⟩
  := by
  obtain ⟨c, content, rfl⟩ := List.exists_cons_of_ne_nil hcontent
  obtain ⟨hc, hrest⟩ := not_or.mp (List.mem_cons.not.mp h)
  have hskip := skip_append (c :: content) more n
  rw [readToken_of_text (beginsMarkup_cons_of_ne (Ne.symm hc) _), textToken]
  dsimp only [List.cons_append, List.tail_cons]
  rw [textLength_append hrest hmore]
  rw [List.length_cons, List.cons_append] at hskip
  rw [hskip]
  rfl

end Leaves

/-! ### Adding what was read -/

section Builder

variable {b : Builder}

/-- Nodes that are added one after the other. -/
theorem foldl_add_of_cons {e : Open} {rest : List Open} (h : b.opened = e :: rest)
    (nodes : List Node) :
  nodes.foldl Builder.add b
    = { b with opened := { e with children := nodes.reverse ++ e.children } :: rest }
  := by
  induction nodes generalizing b e with
  | nil =>
      obtain ⟨opened, flattened, top, issues⟩ := b
      cases h
      rfl
  | cons n nodes ih =>
      have hadd :
          b.add n = { b with opened := { e with children := n :: e.children } :: rest } := by
        rw [Builder.add, h]
      rw [List.foldl_cons, hadd, ih rfl, List.reverse_cons, List.append_assoc]
      rfl

theorem foldl_add_of_nil (h : b.opened = []) (nodes : List Node) :
  nodes.foldl Builder.add b = { b with top := nodes.reverse ++ b.top }
  := by
  induction nodes generalizing b with
  | nil => rfl
  | cons n nodes ih =>
      have hadd : b.add n = { b with top := n :: b.top } := by rw [Builder.add, h]
      rw [List.foldl_cons, hadd, ih (b := { b with top := n :: b.top }) h, List.reverse_cons,
        List.append_assoc]
      rfl

/-- The start tag of an element that has an end tag closes nothing. -/
theorem closeImplied_of_not_optional {name : Text} (h : name ∉ optionalEndNames) (b : Builder)
    (start : Nat) :
  b.closeImplied name start = b
  := by
  have hnone (opened : Text) : Builder.closesImplied name opened = false :=
    Bool.eq_false_iff.mpr fun hcloses => h (mem_optionalEndNames_of_closesImplied hcloses).1
  rw [Builder.closeImplied]
  split
  · rw [hnone]
    rfl
  · rfl

/-- The start tag of an element that has an end tag opens it. -/
theorem startTag_of_isElementName {name : Text} (hname : IsElementName name)
    (hdepth : b.opened.length < openLimit) (span : Span) (attributes : List Attribute) :
  b.startTag name span ⟨attributes, false⟩
    = ({ b with opened := ⟨name, span, attributes, []⟩ :: b.opened }, false)
  := by
  obtain ⟨-, hvoid, hraw, hoptional⟩ := hname
  rw [Builder.startTag, closeImplied_of_not_optional hoptional]
  dsimp only
  rw [if_neg (by simpa using hvoid), if_neg (by simp; omega), decide_eq_false hraw]

/-- The end tag of the innermost element closes it. -/
theorem endTag_of_cons (hflattened : b.flattened = []) {e : Open} {rest : List Open}
    (h : b.opened = e :: rest) (span : Span) :
  b.endTag e.name span = { b with opened := rest }.add (e.node span.stop (some span))
  := by
  rw [endTag_of_opened_eq h (by simp [hflattened]), Builder.close]
  obtain ⟨opened, flattened, top, issues⟩ := b
  dsimp only at h hflattened
  subst h hflattened
  rfl

end Builder

/-! ### Reading a printed tree -/

/-- A printed tree that is no text begins with markup. -/
theorem Tree.beginsMarkup_print {tree : Tree} (h : tree.IsPlain) (htext : tree.isText = false)
    (more : Text) :
  beginsMarkup (tree.print ++ more) = true
  := by
  cases tree with
  | text content => cases htext
  | comment content => rfl
  | element name attributes children =>
      obtain ⟨c, rest, rfl, hc⟩ := h.1.1.exists_cons
      exact beginsMarkup_startTag _ hc

namespace Reader

variable {b : Builder} {p next : Place}

/-- A leaf is added. -/
theorem goesOn_leaf (hrest : p.rest ≠ []) {n : Node} (h : readToken p = ⟨.leaf n, [], next⟩) :
  GoesOn ⟨b, p, none⟩ ⟨b.add n, next, none⟩
  := by
  refine ⟨hrest, ?_⟩
  rw [Reader.next, Reader.nextToken, h]
  rfl

/-- A start tag opens an element that has an end tag. -/
theorem goesOn_startTag (hrest : p.rest ≠ []) {name : Text} (hname : IsElementName name)
    (hdepth : b.opened.length < openLimit) {span : Span} {attributes : List Attribute}
    (h : readToken p = ⟨.startTag name span ⟨attributes, false⟩, [], next⟩) :
  GoesOn ⟨b, p, none⟩
    ⟨{ b with opened := ⟨name, span, attributes, []⟩ :: b.opened }, next, none⟩
  := by
  refine ⟨hrest, ?_⟩
  have hopen := startTag_of_isElementName hname hdepth span attributes
  rw [Reader.next, Reader.nextToken, h]
  dsimp only [Builder.take, Builder.noteAll, List.foldl_nil]
  rw [hopen]
  rfl

/-- An end tag closes the innermost element. -/
theorem goesOn_endTag (hrest : p.rest ≠ []) (hflattened : b.flattened = []) {name : Text}
    {span : Span} (h : readToken p = ⟨.endTag name span, [], next⟩) {e : Open} {rest : List Open}
    (hopened : b.opened = e :: rest) (hname : e.name = name) :
  GoesOn ⟨b, p, none⟩
    ⟨{ b with opened := rest }.add (e.node span.stop (some span)), next, none⟩
  := by
  refine ⟨hrest, ?_⟩
  subst hname
  have hclose := endTag_of_cons hflattened hopened span
  rw [Reader.next, Reader.nextToken, h]
  dsimp only [Builder.take, Builder.noteAll, List.foldl_nil]
  rw [hclose]

end Reader

mutual

/-- A printed tree is read and added. -/
theorem Tree.reaches_print (tree : Tree) (h : tree.IsPlain) {b : Builder}
    (hflattened : b.flattened = []) (hdepth : b.opened.length + tree.depth ≤ openLimit) (n : Nat)
    {more : Text} (hmore : tree.isText = true → more = [] ∨ beginsMarkup more = true) :
  Reader.Reaches ⟨b, ⟨tree.print ++ more, n⟩, none⟩
    ⟨b.add (tree.nodeAt n), ⟨more, n + width tree.print⟩, none⟩
  := by
  cases tree with
  | text content =>
      obtain ⟨hcontent, hnone⟩ := h
      have hrest : content ++ more ≠ [] := fun h => hcontent (List.append_eq_nil_iff.mp h).1
      exact .single (Reader.goesOn_leaf hrest (readToken_text hcontent hnone (hmore rfl) n))
  | comment content =>
      exact .single (Reader.goesOn_leaf (List.cons_ne_nil _ _) (readToken_printComment h more n))
  | element name attributes children =>
      obtain ⟨hname, hattributes, hchildren⟩ := h
      have hdepth : b.opened.length + depthAll children < openLimit := hdepth
      have hmarkup : beginsMarkup (printEndTag name ++ more) = true := by
        obtain ⟨c, rest, rfl, hc⟩ := hname.1.exists_cons
        exact hc
      have htext : Tree.print (.element name attributes children) ++ more
          = printStartTag name attributes ++ (printAll children ++ (printEndTag name ++ more)) := by
        rw [Tree.print, List.append_assoc, List.append_assoc]
      have hwidth : n + width (Tree.print (.element name attributes children))
          = n + width (printStartTag name attributes) + width (printAll children)
            + width (printEndTag name) := by
        rw [width_print_element, ← Nat.add_assoc, ← Nat.add_assoc]
      rw [htext, hwidth]
      have hstart := Reader.goesOn_startTag (b := b) (List.cons_ne_nil _ _) hname (by omega)
        (readToken_printStartTag hname.1 hattributes
          (printAll children ++ (printEndTag name ++ more)) n)
      have hwithin := reaches_printAll children hchildren
        (b := { b with opened := ⟨name, ⟨n, n + width (printStartTag name attributes)⟩,
          attributesAt (n + width ('<' :: name)) attributes, []⟩ :: b.opened })
        hflattened (by rw [List.length_cons]; omega) (n + width (printStartTag name attributes))
        (Or.inr hmarkup)
      rw [foldl_add_of_cons rfl, List.append_nil] at hwithin
      refine .head hstart (hwithin.tail ?_)
      have hend := Reader.goesOn_endTag (b := { b with opened := ⟨name,
          ⟨n, n + width (printStartTag name attributes)⟩,
          attributesAt (n + width ('<' :: name)) attributes,
          (nodesAt (n + width (printStartTag name attributes)) children).reverse⟩ :: b.opened })
        (List.cons_ne_nil _ _) hflattened (readToken_printEndTag hname.1 more
          (n + width (printStartTag name attributes) + width (printAll children))) rfl rfl
      rw [Open.node] at hend
      dsimp only at hend
      rw [List.reverse_reverse, Nat.max_eq_left (by omega)] at hend
      exact hend

/-- Printed trees are read and added. -/
theorem reaches_printAll (trees : List Tree) (h : ArePlain trees) {b : Builder}
    (hflattened : b.flattened = []) (hdepth : b.opened.length + depthAll trees ≤ openLimit)
    (n : Nat) {more : Text} (hmore : more = [] ∨ beginsMarkup more = true) :
  Reader.Reaches ⟨b, ⟨printAll trees ++ more, n⟩, none⟩
    ⟨(nodesAt n trees).foldl Builder.add b, ⟨more, n + width (printAll trees)⟩, none⟩
  := by
  cases trees with
  | nil => exact .refl
  | cons tree rest =>
      obtain ⟨htree, hnext, hrest⟩ := h
      have hdepth : b.opened.length + max tree.depth (depthAll rest) ≤ openLimit := hdepth
      have hbetween : tree.isText = true →
          printAll rest ++ more = [] ∨ beginsMarkup (printAll rest ++ more) = true := by
        intro htext
        cases rest with
        | nil => exact hmore
        | cons next rest =>
            right
            rw [printAll, List.append_assoc]
            exact Tree.beginsMarkup_print hrest.1 (hnext htext next rfl) _
      have hfirst := Tree.reaches_print tree htree hflattened (by omega) n hbetween
      have hlater := reaches_printAll rest hrest (b := b.add (tree.nodeAt n))
        ((grows_add b _).flattened.trans hflattened)
        (by rw [opened_add, length_addTo]; omega) (n + width tree.print) hmore
      rw [printAll, List.append_assoc, width_append, ← Nat.add_assoc]
      exact hfirst.trans hlater

end

/-- Printed trees are read back as they were printed, each piece at its place, if their elements are
not nested too deep. -/
theorem ofText_printAll {trees : List Tree} (h : ArePlain trees)
    (hdepth : depthAll trees ≤ openLimit) :
  Document.ofText (printAll trees) = ⟨width (printAll trees), nodesAt 0 trees, []⟩
  := by
  obtain ⟨s, hs, hrest, hchildren, hissues⟩ := exists_reader_ofText
    (P := (Reader.start (printAll trees)).Reaches) (fun s hrest hs => hs.tail ⟨hrest, rfl⟩) .refl
  have hprint : (Reader.start (printAll trees)).Reaches
      ⟨{ top := (nodesAt 0 trees).reverse }, ⟨[], width (printAll trees)⟩, none⟩ := by
    have hread := reaches_printAll trees h (b := {}) rfl (by simpa using hdepth) 0 (Or.inl rfl)
    rwa [List.append_nil, Nat.zero_add, foldl_add_of_nil rfl, List.append_nil] at hread
  obtain rfl | ⟨_, ⟨hmore, -⟩, -⟩ :=
    Relation.ReflTransGen.cases_head (Reader.Reaches.to_end hprint hs hrest)
  · have hdocument : Document.ofText (printAll trees) = ⟨width (printAll trees),
        (Document.ofText (printAll trees)).children, (Document.ofText (printAll trees)).issues⟩ :=
      rfl
    rw [hdocument, hchildren, hissues]
    dsimp only [List.length_nil, Builder.closeUnclosed]
    rw [List.reverse_reverse]
    rfl
  · exact absurd rfl hmore

/-- An element with an attribute in which a text, a comment and an empty element stand. -/
theorem ofText_printAll_sample :
  let trees : List Tree := [.element "h1".toList [("id".toList, "a>b".toList)]
    [.text "x".toList, .comment "-".toList, .element "b".toList [] []]]
  ArePlain trees ∧ depthAll trees ≤ openLimit
    ∧ printAll trees = "<h1 id=\"a>b\">x<!-----><b></b></h1>".toList
    ∧ Document.ofText (printAll trees) = ⟨width (printAll trees), nodesAt 0 trees, []⟩
  := by
  intro trees
  have hplain : ArePlain trees := by decide +kernel
  have hdepth : depthAll trees ≤ openLimit := by decide
  exact ⟨hplain, hdepth, rfl, ofText_printAll hplain hdepth⟩

end Stencil.Markup
