import Stencil.Proofs.Tag.Run

/-!
# The tags cut the document into pieces

The tags of a document lie in it one after the other, and none of them is empty.  The opening, the
code and the closing of a tag follow each other from the beginning of the tag to its end, also
where no group of the match was taken for the code.  So the document is the texts between the tags
with the texts of the parts of the tags among them, and no text between tags holds an opener.
-/

namespace Stencil

open Text

/-- A text is found in another one unless it does not stand in it. -/
theorem Text.find?_eq_none_iff {needle t : Text} :
  Text.find? needle t = none ↔ ¬ needle <:+: t
  := by
  induction t with
  | nil => simp [Text.find?]
  | cons c t ih =>
      rw [Text.find?]
      split
      · next hstarts =>
          have hstands := (List.isPrefixOf_iff_prefix.mp hstarts).isInfix
          simp [hstands]
      · next hstarts =>
          rw [List.isPrefixOf_iff_prefix] at hstarts
          rw [Option.map_eq_none_iff, ih, List.infix_cons_iff]
          simp [hstarts]

namespace Tag

/-- The opening, the code and the closing of a tag follow each other from the beginning of the tag
to its end, each between two boundaries. -/
structure Tiled (document : Text) (tag : Tag) : Prop where
  opening : tag.opening = ⟨tag.span.start, tag.code.start⟩
  closing : tag.closing = ⟨tag.code.stop, tag.span.stop⟩
  inOrder : tag.span.start ≤ tag.code.start ∧ tag.code.start ≤ tag.code.stop
    ∧ tag.code.stop ≤ tag.span.stop
  onBoundaries : tag.code.OnBoundaries document

/-- The texts between the tags, from an offset to the end of the document. -/
def gaps (document : Text) (cursor : Nat) : List Tag → List Text
  | [] => [onward cursor document]
  | tag :: rest => slice document cursor tag.span.start :: gaps document tag.span.stop rest

/-- The text of the parts of a tag. -/
def partsText (document : Text) (tag : Tag) : Text :=
  tag.opening.text document ++ tag.code.text document ++ tag.closing.text document

variable {document : Text}

/-- The texts of the parts of a tag make up its text. -/
theorem Tiled.partsText_eq {tag : Tag} (h : tag.Tiled document)
    (hspan : tag.span.OnBoundaries document) :
  tag.partsText document = tag.span.text document
  := by
  obtain ⟨hstart, hstop⟩ := hspan
  obtain ⟨hopening, hcode, hclosing⟩ := h.inOrder
  obtain ⟨hcodeStart, hcodeStop⟩ := h.onBoundaries
  rw [partsText, h.opening, h.closing]
  dsimp only [Span.text]
  rw [slice_append_slice hstart hcodeStart hcodeStop hopening hcode,
    slice_append_slice hstart hcodeStop hstop (Nat.le_trans hopening hcode) hclosing]

/-- Tags that are replaced by their own text leave the document as it is. -/
theorem replaceTags_text {piece : Tag → Text} (tags : List Tag) {cursor : Nat}
    (hcursor : IsBoundary cursor document) (hplaced : Placed document tags)
    (hnext : ∀ tag ∈ tags, cursor ≤ tag.span.start)
    (hpiece : ∀ tag ∈ tags, piece tag = tag.span.text document) :
  replaceTags document id piece cursor tags = onward cursor document
  := by
  have happend {t s t' s' : Text} (hs : s = t) (hs' : s' = t') : s ++ s' = t ++ t' := by
    rw [hs, hs']
  exact related_replaceTags (R := fun t s => s = t) happend (fun _ => rfl) tags hcursor hplaced
    hnext hpiece

end Tag

namespace Settings

variable {s : Settings} {document : Text}

/-- The code of a match lies in it, also where no group was taken for it. -/
theorem tiled_tagOfMatch {kind : Tag.Kind} {m : Pattern.Match} {start : Nat}
    (h : m.Placed document start) :
  (tagOfMatch kind m).Tiled document
  := by
  cases hcode : m.code with
  | none =>
      simp only [tagOfMatch, hcode, Option.getD_none]
      constructor
      · rfl
      · rfl
      · exact ⟨h.forward, Nat.le_refl _, Nat.le_refl _⟩
      · exact ⟨h.onBoundaries.2, h.onBoundaries.2⟩
  | some code =>
      obtain ⟨hstart, hforward, hstop, hends⟩ := h.code code hcode
      simp only [tagOfMatch, hcode, Option.getD_some]
      constructor
      · rfl
      · rfl
      · exact ⟨hstart, hforward, hstop⟩
      · exact hends

/-- Where no opener is found none stands. -/
theorem not_infix_of_openerIn? {t : Text} (h : s.openerIn? t = none) :
  ∀ entry ∈ s.ordered, ∀ opener ∈ entry.2.opener, ¬ opener <:+: t
  := by
  intro entry hentry opener hopener
  rw [openerIn?, List.min?_eq_none_iff, List.filterMap_eq_nil_iff] at h
  have hfind : entry.2.opener.bind (Text.find? · t) = none := h entry hentry
  rw [Option.mem_def.mp hopener, Option.bind_some] at hfind
  apply Text.find?_eq_none_iff.mp hfind

/-- The tags that a scan takes from a boundary on are tiled and not empty, and no text between them
holds an opener. -/
theorem tiled_of_scans {start : Nat} {r : Except TagError (List Tag)}
    (h : Tag.Scans (s.step document) start r) (hstart : IsBoundary start document) :
  ∀ tags, r = .ok tags →
    (∀ tag ∈ tags, tag.span.start < tag.span.stop ∧ tag.Tiled document)
      ∧ ∀ gap ∈ Tag.gaps document start tags,
        ∀ entry ∈ s.ordered, ∀ opener ∈ entry.2.opener, ¬ opener <:+: gap
  := by
  induction h with
  | fault _ =>
      intro tags htags
      cases htags
  | done hstep =>
      intro tags htags
      obtain rfl := Except.ok.inj htags
      obtain ⟨-, hgap⟩ := step_eq_none hstep
      rw [slice_width hstart] at hgap
      constructor
      · simp
      · intro gap hmem
        obtain rfl := List.mem_singleton.mp hmem
        apply not_infix_of_openerIn? hgap
  | @tag start tag r hstep _ ih =>
      intro tags htags
      obtain ⟨hnext, hgap, hnonempty⟩ := step_eq_some hstep
      obtain ⟨kind, m, rfl, hplaced⟩ := placed_of_nextTag? hstart hnext
      cases r with
      | error e => cases htags
      | ok rest =>
          obtain rfl := Except.ok.inj htags
          obtain ⟨htiled, hgaps⟩ := ih hplaced.onBoundaries.2 rest rfl
          constructor
          · exact List.forall_mem_cons.mpr ⟨⟨hnonempty, tiled_tagOfMatch hplaced⟩, htiled⟩
          · exact List.forall_mem_cons.mpr ⟨not_infix_of_openerIn? hgap, hgaps⟩

/-- The tags of a document are tiled and not empty. -/
theorem tiled_of_tags {tags : List Tag} (h : s.tags document = .ok tags) :
  ∀ tag ∈ tags, tag.span.start < tag.span.stop ∧ tag.Tiled document
  := (tiled_of_scans (scans_iff.mpr h) (isBoundary_zero document) tags rfl).1

/-- The scan for the tags of a document comes to its end in one way.  If it faults nowhere, the tags
stand in the document from boundary to boundary, none of them empty and each behind the ones before
it; the parts of each tag follow each other through the whole tag; the texts between the tags and
the texts of the parts make up the document; and no text between the tags holds an opener. -/
theorem tags_tile_document (s : Settings) (document : Text) :
  (∀ r, Tag.Scans (s.step document) 0 r ↔ s.tags document = r)
    ∧ ∀ tags, s.tags document = .ok tags →
      (∀ tag ∈ tags, tag.span.start < tag.span.stop ∧ tag.span.stop ≤ width document
          ∧ tag.span.OnBoundaries document ∧ tag.Tiled document)
        ∧ (tags.Pairwise fun a b => a.span.stop ≤ b.span.start)
        ∧ replaceTags document id (Tag.partsText document) 0 tags = document
        ∧ ∀ gap ∈ Tag.gaps document 0 tags,
          ∀ entry ∈ s.ordered, ∀ opener ∈ entry.2.opener, ¬ opener <:+: gap
  := by
  constructor
  · intro r
    apply scans_iff
  · intro tags htags
    have hplaced := placed_tags htags
    obtain ⟨htiled, hgaps⟩ :=
      tiled_of_scans (scans_iff.mpr htags) (isBoundary_zero document) tags rfl
    refine ⟨?_, hplaced.inOrder, ?_, hgaps⟩
    · intro tag hmem
      obtain ⟨hnonempty, htile⟩ := htiled tag hmem
      have hends := hplaced.onBoundaries tag hmem
      exact ⟨hnonempty, hends.2.le_width, hends, htile⟩
    · rw [Tag.replaceTags_text tags (isBoundary_zero document) hplaced (fun _ _ => Nat.zero_le _)
        fun tag hmem => (htiled tag hmem).2.partsText_eq (hplaced.onBoundaries tag hmem),
        onward_zero]

/-- Tag patterns given by their sources.  The group of the first one may take no part in a match. -/
def sampleConfig : SettingsConfig :=
  ⟨some (.source "@(x)?;"), some (.source "\\[\\[([^\\]]*)\\]\\]"), none⟩

/-- A document with tags of all kinds.  The first tag has no code. -/
def sampleDocument : Text := Text.ofString "é@;[[ü]]@x;<%- a %>"

theorem tags_tile_document_sample :
  ∃ s, Settings.ofConfig sampleConfig = .ok s
    ∧ ∃ tags, s.tags sampleDocument = .ok tags
      ∧ tags.map (·.span) = [⟨2, 4⟩, ⟨4, 10⟩, ⟨10, 13⟩, ⟨13, 21⟩]
      ∧ (∀ tag ∈ tags, tag.Tiled sampleDocument)
      ∧ replaceTags sampleDocument id (Tag.partsText sampleDocument) 0 tags = sampleDocument
  := by
  obtain ⟨s, hs⟩ : ∃ s, Settings.ofConfig sampleConfig = .ok s := ⟨_, rfl⟩
  have hfound : (Settings.ofConfig sampleConfig).toOption.map (·.tags sampleDocument)
      = some (.ok [.ofCode .evaluate ⟨2, 4⟩ ⟨4, 4⟩, .ofCode .interpolate ⟨4, 10⟩ ⟨6, 8⟩,
          .ofCode .evaluate ⟨10, 13⟩ ⟨11, 12⟩, .ofCode .escape ⟨13, 21⟩ ⟨16, 19⟩]) := by
    decide +kernel
  rw [hs] at hfound
  have htags := Option.some.inj hfound
  obtain ⟨htiled, -, hreassembled, -⟩ := (tags_tile_document s sampleDocument).2 _ htags
  exact ⟨s, hs, _, htags, rfl, fun tag hmem => (htiled tag hmem).2.2.2, hreassembled⟩

end Settings

end Stencil
