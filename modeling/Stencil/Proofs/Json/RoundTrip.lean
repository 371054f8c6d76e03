import Stencil.Proofs.Json.Entries
import Stencil.Proofs.Json.Spelling

/-!
# Reading what was written

A value without floating-point numbers is read as it was written, if its arrays and objects are not
nested too deeply.  The order of the entries of an object is kept, so this does not take canonical
forms.  A canonical form is its own canonical form.
-/

namespace Stencil.Json

/-! ### Lists -/

section Lists

variable {α : Type} {item : List Char → Option (α × List Char)} {write : α → List Char}
  {close : Char} {items : List α} {rest : List Char}

/-- The texts of items with commas between them. -/
def separated (write : α → List Char) : List α → List Char
  | [] => []
  | [a] => write a
  | a :: b :: items => write a ++ ',' :: separated write (b :: items)

/-- What is written for an item is read as that item. -/
def ReadsBack (item : List Char → Option (α × List Char)) (write : α → List Char) (a : α) : Prop :=
  ∀ rest, EndsNumber rest → item (write a ++ rest) = some (a, rest)

theorem endsNumber_cons {c : Char} (h : c.isDigit = false ∧ c ≠ '.' ∧ c ≠ 'e' ∧ c ≠ 'E') :
  EndsNumber (c :: rest)
  := by
  intro first hfirst
  cases hfirst
  exact h

theorem skipSpace_cons {c : Char} (h : isSpace c = false) :
  skipSpace (c :: rest) = c :: rest
  := List.dropWhile_cons_of_neg (by simp [h])

/-- The items of a list are read up to its closing mark. -/
theorem readItems?_separated (hclose : EndsNumber (close :: rest)) (hspace : isSpace close = false)
    (hcomma : close ≠ ',') (hne : items ≠ []) (hitems : ∀ a ∈ items, ReadsBack item write a)
    {budget : List Char} (hbudget : (separated write items).length < budget.length) :
  readItems? item close budget (separated write items ++ close :: rest) = some (items, rest)
  := by
  fun_induction separated write items generalizing budget with
  | case1 => contradiction
  | case2 a =>
      cases budget with
      | nil => cases hbudget
      | cons _ budget =>
          rw [readItems?, hitems a List.mem_cons_self _ hclose]
          dsimp only
          rw [skipSpace_cons hspace]
          dsimp only
          rw [if_pos (beq_self_eq_true close)]
  | case3 a b items ih =>
      cases budget with
      | nil => cases hbudget
      | cons _ budget =>
          rw [List.append_assoc, readItems?, List.cons_append,
            hitems a List.mem_cons_self _ (endsNumber_cons (by decide))]
          dsimp only
          rw [skipSpace_cons (by decide)]
          dsimp only
          rw [if_neg (by simpa using hcomma.symm), if_pos (by decide),
            ih (List.cons_ne_nil b items)]
          · rfl
          · exact fun a ha => hitems a (List.mem_cons_of_mem _ ha)
          · rw [List.length_append, List.length_cons, List.length_cons] at hbudget
            omega

/-- The items of a list are read after its opening mark. -/
theorem readList?_separated (hclose : EndsNumber (close :: rest)) (hspace : isSpace close = false)
    (hcomma : close ≠ ',') (hitems : ∀ a ∈ items, ReadsBack item write a)
    (hfirst : ∀ a ∈ items, ∃ c t, write a = c :: t ∧ isSpace c = false ∧ c ≠ close) :
  readList? item close (separated write items ++ close :: rest) = some (items, rest)
  := by
  cases items with
  | nil =>
      rw [readList?, separated, List.nil_append, skipSpace_cons hspace]
      dsimp only
      rw [if_pos (beq_self_eq_true close)]
  | cons a items =>
      obtain ⟨c, t, hwrite, hblank, hne⟩ := hfirst a List.mem_cons_self
      obtain ⟨t, htext⟩ : ∃ t, separated write (a :: items) = c :: t := by
        cases items with
        | nil => exact ⟨t, hwrite⟩
        | cons b items => exact ⟨_, by rw [separated, hwrite, List.cons_append]⟩
      have hbudget : (separated write (a :: items)).length
          < (separated write (a :: items) ++ close :: rest).length := by
        rw [List.length_append, List.length_cons]
        omega
      have hread := readItems?_separated hclose hspace hcomma (List.cons_ne_nil a items) hitems
        hbudget
      rw [htext, List.cons_append] at hread ⊢
      rw [readList?, skipSpace_cons hblank]
      dsimp only
      rw [if_neg (by simpa using hne), hread]

end Lists

/-! ### Values -/

/-- The value has no floating-point numbers, its whole numbers have 64 bits, and its arrays and
objects are nested in each other up to the given depth. -/
inductive IsExact : (depth : Nat) → Json → Prop
  | null {depth : Nat} : IsExact depth null
  | bool {depth : Nat} (b : Bool) : IsExact depth (bool b)
  | int {depth : Nat} {n : Int} (h : IsWord n) : IsExact depth (int n)
  | string {depth : Nat} (s : String) : IsExact depth (string s)
  | array {depth : Nat} {items : List Json} (h : ∀ v ∈ items, IsExact depth v) :
      IsExact (depth + 1) (array items)
  | object {depth : Nat} {entries : List (String × Json)}
      (h : ∀ entry ∈ entries, IsExact depth entry.2) : IsExact (depth + 1) (object entries)

section Values

variable {spelling : Char → String} {depth : Nat} {v : Json}

theorem IsExact.mono {depth' : Nat} (h : v.IsExact depth) (hle : depth ≤ depth') :
  v.IsExact depth'
  := by
  induction h generalizing depth' with
  | null => exact .null
  | bool b => exact .bool b
  | int h => exact .int h
  | string s => exact .string s
  | array _ ih =>
      obtain ⟨depth', rfl⟩ := Nat.exists_eq_succ_of_ne_zero (Nat.ne_zero_of_lt hle)
      exact .array fun v hv => ih v hv (Nat.le_of_succ_le_succ hle)
  | object _ ih =>
      obtain ⟨depth', rfl⟩ := Nat.exists_eq_succ_of_ne_zero (Nat.ne_zero_of_lt hle)
      exact .object fun entry hentry => ih entry hentry (Nat.le_of_succ_le_succ hle)

theorem toList_itemsText (spelling : Char → String) (items : List Json) :
  (itemsText spelling items).toList
    = separated (fun v => (v.textWith spelling).toList) items
  := by
  fun_induction separated (fun v => (textWith spelling v).toList) items with
  | case1 => rfl
  | case2 v => rfl
  | case3 v w items ih =>
      rw [itemsText, String.toList_append, String.toList_append, ih, List.append_assoc]
      · rfl
      · exact List.cons_ne_nil w items

/-- The text of an entry. -/
def entryText (spelling : Char → String) (entry : String × Json) : List Char :=
  (stringText spelling entry.1).toList ++ ':' :: (entry.2.textWith spelling).toList

theorem toList_entriesText (spelling : Char → String) (entries : List (String × Json)) :
  (entriesText spelling entries).toList = separated (entryText spelling) entries
  := by
  fun_induction separated (entryText spelling) entries with
  | case1 => rfl
  | case2 entry =>
      rw [entriesText, String.toList_append, String.toList_append, List.append_assoc]
      rfl
  | case3 entry next entries ih =>
      rw [entriesText, String.toList_append, String.toList_append, String.toList_append,
        String.toList_append, ih, entryText, List.append_assoc, List.append_assoc,
        List.append_assoc]
      · rw [List.append_assoc]
        rfl
      · exact List.cons_ne_nil next entries

theorem toList_textWith_array (spelling : Char → String) (items : List Json) :
  ((array items).textWith spelling).toList
    = '[' :: (separated (fun v => (v.textWith spelling).toList) items ++ [']'])
  := by
  rw [textWith, String.toList_append, String.toList_append, toList_itemsText]
  rfl

theorem toList_textWith_object (spelling : Char → String) (entries : List (String × Json)) :
  ((object entries).textWith spelling).toList
    = '{' :: (separated (entryText spelling) entries ++ ['}'])
  := by
  rw [textWith, String.toList_append, String.toList_append, toList_entriesText]
  rfl

theorem toList_textWith_bool (spelling : Char → String) (b : Bool) :
  ((bool b).textWith spelling).toList
    = if b then ['t', 'r', 'u', 'e'] else ['f', 'a', 'l', 's', 'e']
  := by
  rw [textWith]
  cases b <;> rfl

/-- The text of a whole number begins with a sign or a digit. -/
theorem exists_toList_toString (n : Int) :
  ∃ c t, (toString n).toList = c :: t ∧ (c == '-' || c.isDigit) = true
  := by
  obtain ⟨c, digits, hdigits, hc⟩ := exists_toDigits n.natAbs
  rw [toList_toString_int]
  split
  · exact ⟨'-', _, rfl, rfl⟩
  · exact ⟨c, digits, hdigits, by rw [hc, Bool.or_true]⟩

theorem isSpace_eq_false {c : Char} (h : (c == '-' || c.isDigit) = true) :
  isSpace c = false
  := by
  by_contra hspace
  rw [Bool.not_eq_false, isSpace, Bool.or_eq_true, Bool.or_eq_true, Bool.or_eq_true] at hspace
  rcases hspace with ((hspace | hspace) | hspace) | hspace
  all_goals
    rw [beq_iff_eq] at hspace
    subst hspace
    exact absurd h (by decide)

/-- The text of a value begins neither with a blank character nor with the end of a list. -/
theorem exists_toList_textWith (h : v.IsExact depth) (spelling : Char → String) :
  ∃ c t, (v.textWith spelling).toList = c :: t ∧ isSpace c = false ∧ c ≠ ']'
  := by
  cases h with
  | null => exact ⟨'n', ['u', 'l', 'l'], by rw [textWith]; rfl, by decide⟩
  | bool b =>
      rw [toList_textWith_bool]
      cases b with
      | true => exact ⟨'t', _, rfl, by decide⟩
      | false => exact ⟨'f', _, rfl, by decide⟩
  | @int _ n =>
      rw [textWith]
      obtain ⟨c, t, htext, hc⟩ := exists_toList_toString n
      refine ⟨c, t, htext, isSpace_eq_false hc, ?_⟩
      rintro rfl
      exact absurd hc (by decide)
  | string s => exact ⟨'"', _, by rw [textWith, toList_stringText], by decide⟩
  | array => exact ⟨'[', _, toList_textWith_array spelling _, by decide⟩
  | object => exact ⟨'{', _, toList_textWith_object spelling _, by decide⟩

/-- An entry is read as it is if its value is. -/
theorem readsBack_entry (h : Spells spelling) {value : List Char → Option (Json × List Char)}
    {entry : String × Json}
    (hvalue : ReadsBack value (fun v => (v.textWith spelling).toList) entry.2) :
  ReadsBack (readPair? value) (entryText spelling) entry
  := by
  intro rest hrest
  have htext : entryText spelling entry ++ rest
      = '"' :: (spelled spelling entry.1.toList
        ++ '"' :: ':' :: ((entry.2.textWith spelling).toList ++ rest)) := by
    rw [entryText, toList_stringText, List.append_assoc, List.cons_append, List.append_assoc]
    rfl
  have hquote : isSpace '"' = false := by decide
  have hcolon : isSpace ':' = false := by decide
  rw [htext]
  simp only [readPair?, skipSpace_cons hquote, readString?_append h, skipSpace_cons hcolon,
    hvalue rest hrest, Option.map_some]

theorem readValue?_quote (depth : Nat) (t : List Char) :
  readValue? depth ('"' :: t) = (readString? t).map fun (s, t) => (string s, t)
  := by
  rw [readValue?, skipSpace_cons (by decide)]
  rfl

theorem readValue?_bracket (depth : Nat) (t : List Char) :
  readValue? (depth + 1) ('[' :: t)
    = (readList? (readValue? depth) ']' t).map fun (vs, t) => (array vs, t)
  := by
  rw [readValue?, skipSpace_cons (by decide)]
  rfl

theorem readValue?_brace (depth : Nat) (t : List Char) :
  readValue? (depth + 1) ('{' :: t)
    = (readList? (readPair? (readValue? depth)) '}' t).map fun (es, t) => (object es, t)
  := by
  rw [readValue?, skipSpace_cons (by decide)]
  rfl

theorem readValue?_other (depth : Nat) {c : Char} (t : List Char) (hspace : isSpace c = false)
    (hquote : c ≠ '"') (hbracket : c ≠ '[') (hbrace : c ≠ '{') :
  readValue? depth (c :: t)
    = if c == '-' || c.isDigit then readNumber? (c :: t) else readWord? (c :: t)
  := by
  rw [readValue?, skipSpace_cons hspace]
  split
  · next h => cases h; contradiction
  · next h => cases h; contradiction
  · next h => cases h; contradiction
  · next h => cases h; rfl
  · next h => cases h

/-- What is written for a value is read as that value. -/
theorem readsBack_value (h : Spells spelling) (hv : v.IsExact depth) :
  ReadsBack (readValue? depth) (fun v => (v.textWith spelling).toList) v
  := by
  induction hv with
  | null =>
      intro rest _
      dsimp only
      rw [textWith]
      exact readValue?_other _ _ (by decide) (by decide) (by decide) (by decide)
  | bool b =>
      intro rest _
      dsimp only
      rw [toList_textWith_bool]
      cases b with
      | true => exact readValue?_other _ _ (by decide) (by decide) (by decide) (by decide)
      | false => exact readValue?_other _ _ (by decide) (by decide) (by decide) (by decide)
  | @int _ n hword =>
      intro rest hrest
      dsimp only
      have hread := readNumber?_append hword hrest
      obtain ⟨c, t, htext, hc⟩ := exists_toList_toString n
      have hother (other : Char) (hother : ¬ (other == '-' || other.isDigit) = true) :
          c ≠ other := by
        rintro rfl
        exact hother hc
      rw [textWith]
      rw [htext, List.cons_append] at hread ⊢
      rw [readValue?_other _ _ (isSpace_eq_false hc) (hother _ (by decide)) (hother _ (by decide))
        (hother _ (by decide)), if_pos hc, hread]
  | string s =>
      intro rest _
      dsimp only
      rw [textWith, toList_stringText, List.cons_append, List.append_assoc, List.singleton_append,
        readValue?_quote, readString?_append h, Option.map_some]
  | @array depth items hitems ih =>
      intro rest _
      have hclose : EndsNumber (']' :: rest) := endsNumber_cons (by decide)
      dsimp only
      rw [toList_textWith_array, List.cons_append, List.append_assoc, List.singleton_append,
        readValue?_bracket, readList?_separated hclose (by decide) (by decide) ih, Option.map_some]
      exact fun v hv => exists_toList_textWith (hitems v hv) spelling
  | @object depth entries hentries ih =>
      intro rest _
      have hclose : EndsNumber ('}' :: rest) := endsNumber_cons (by decide)
      have hitems : ∀ entry ∈ entries,
          ReadsBack (readPair? (readValue? depth)) (entryText spelling) entry :=
        fun entry hentry => readsBack_entry h (ih entry hentry)
      dsimp only
      rw [toList_textWith_object, List.cons_append, List.append_assoc, List.singleton_append,
        readValue?_brace, readList?_separated hclose (by decide) (by decide) hitems,
        Option.map_some]
      intro entry _
      exact ⟨'"', _, by rw [entryText, toList_stringText]; rfl, by decide⟩

/-- The text of a value that is not nested too deeply writes that value. -/
theorem ofText?_textWith (h : Spells spelling) (hv : v.IsExact depthLimit) :
  ofText? (v.textWith spelling).toList = some v
  := by
  have hread := readsBack_value h hv [] fun _ h => nomatch h
  rw [List.append_nil] at hread
  rw [ofText?, hread]
  rfl

/-- The text in ASCII of a value that is not nested too deeply writes that value. -/
theorem ofText?_text (hv : v.IsExact depthLimit) :
  ofText? v.text.toList = some v
  := ofText?_textWith spells_charText hv

end Values

/-! ### Canonical forms -/

/-- All objects in the value have their entries in the order of the keys. -/
inductive IsCanonical : Json → Prop
  | null : IsCanonical null
  | bool (b : Bool) : IsCanonical (bool b)
  | int (n : Int) : IsCanonical (int n)
  | float (bits : UInt64) : IsCanonical (float bits)
  | string (s : String) : IsCanonical (string s)
  | array {items : List Json} (h : ∀ v ∈ items, IsCanonical v) : IsCanonical (array items)
  | object {entries : List (String × Json)} (horder : InKeyOrder entries)
      (h : ∀ entry ∈ entries, IsCanonical entry.2) : IsCanonical (object entries)

theorem canonicalItems_eq_self {items : List Json} (h : ∀ v ∈ items, v.canonical = v) :
  canonicalItems items = items
  := by
  induction items with
  | nil => rfl
  | cons v items ih =>
      rw [canonicalItems, h v List.mem_cons_self,
        ih fun w hw => h w (List.mem_cons_of_mem v hw)]

theorem canonicalEntries_eq_self {entries : List (String × Json)}
    (h : ∀ entry ∈ entries, entry.2.canonical = entry.2) :
  canonicalEntries entries = entries
  := by
  induction entries with
  | nil => rfl
  | cons entry entries ih =>
      rw [canonicalEntries, h entry List.mem_cons_self,
        ih fun other hother => h other (List.mem_cons_of_mem entry hother)]

theorem IsCanonical.canonical_eq_self {v : Json} (h : v.IsCanonical) :
  v.canonical = v
  := by
  induction h with
  | array _ ih => rw [canonical, canonicalItems_eq_self ih]
  | object horder _ ih => rw [canonical, canonicalEntries_eq_self ih, sortEntries_eq_self horder]
  | _ => rw [canonical] <;> exact fun _ h => nomatch h

end Stencil.Json
