import Mathlib.Data.List.MinMax
import Stencil.Proofs.Pattern.Escape
import Stencil.Proofs.Tag.Run

/-!
# Tags between delimiters

Where the tags of each kind are written between two delimiters, they can be found by comparing
texts.  A tag of a kind begins at the first place where its opening stands with its closing anywhere
after it, and ends with the first such closing.  Of the kinds the one that begins first has the next
tag.  `Delimiters.step` looks for tags in this way, and the scan with the patterns that are made
from the delimiters, or with the default patterns, comes to the same result.
-/

namespace Stencil

open Text

/-- The texts between which the code of a tag stands. -/
structure Delimiters where
  opening : Text
  closing : Text
  deriving DecidableEq, Repr, Inhabited

/-- The pattern is a default one, or it was made from delimiters. -/
inductive TagPattern.Delimited : TagPattern → Delimiters → Prop where
  | percent {opening : String} (h : opening ∈ ["<%", "<%=", "<%-"]) :
      Delimited (.percent opening) ⟨opening.toList, "%>".toList⟩
  | given {opening closing : String} {p : TagPattern}
      (h : TagPattern.ofDelimiters opening closing = .ok p) :
      Delimited p ⟨opening.toList, closing.toList⟩

namespace Delimiters

/-- The tag at the beginning of a text that stands at the offset `pos`: the opening stands there,
and the first closing after it ends the tag. -/
def tagAt? (d : Delimiters) (kind : Tag.Kind) (pos : Nat) (t : Text) : Option Tag :=
  if d.opening.isPrefixOf t then
    (Text.find? d.closing (t.drop d.opening.length)).map fun n =>
      .ofCode kind ⟨pos, pos + width d.opening + n + width d.closing⟩
        ⟨pos + width d.opening, pos + width d.opening + n⟩
  else none

/-- The first tag of a kind in a text that stands at the offset `pos`. -/
def tag? (d : Delimiters) (kind : Tag.Kind) : Nat → Text → Option Tag
  | _, [] => none
  | pos, c :: t => (d.tagAt? kind pos (c :: t)).or (tag? d kind (pos + c.utf8Size) t)

/-- The kinds of tags, in the order in which they are preferred. -/
def kinds : List Tag.Kind := [.escape, .interpolate, .evaluate]

/-- The tag that begins first at the offset `start` or later. -/
def next? (d : Tag.Kind → Delimiters) (document : Text) (start : Nat) : Option Tag :=
  (kinds.filterMap fun kind => (d kind).tag? kind start (onward start document)).argmin
    (·.span.start)

/-- The first place of a text where one of the given texts stands. -/
def firstOf? (needles : List Text) : Text → Option Nat
  | [] => none
  | c :: t =>
    if needles.any (·.isPrefixOf (c :: t)) then some 0
    else (firstOf? needles t).map (c.utf8Size + ·)

/-- What the search for tags does at an offset.  The text up to the next tag, or up to the end if
there is none, may not hold an opening. -/
def step (d : Tag.Kind → Delimiters) (document : Text) (start : Nat) :
    Except TagError (Option Tag) :=
  let next := next? d document start
  let gap := slice document start ((next.map (·.span.start)).getD (width document))
  match firstOf? (kinds.map fun kind => (d kind).opening) gap with
  | some pos => .error (.unterminated ⟨start + pos, width document⟩)
  | none => .ok next

end Delimiters

namespace TagPattern.Delimited

variable {p : TagPattern} {d : Delimiters}

/-- A pattern that was made from delimiters is the pattern between them, and they are not empty. -/
theorem of_ofDelimiters {opening closing : String} (h : ofDelimiters opening closing = .ok p) :
  p.pattern = between opening.toList closing.toList ∧ p.opener = some opening.toList
    ∧ opening.toList ≠ []
  := by
  unfold ofDelimiters at h
  split at h
  · cases h
  · next hsome =>
      obtain rfl := Except.ok.inj h
      refine ⟨rfl, rfl, ?_⟩
      simp only [Bool.or_eq_true, not_or] at hsome
      simpa using hsome.1

theorem pattern_eq (h : p.Delimited d) :
  p.pattern = between d.opening d.closing
  := by
  cases h with
  | percent _ => rfl
  | given h => exact (of_ofDelimiters h).1

theorem opener_eq (h : p.Delimited d) :
  p.opener = some d.opening
  := by
  cases h with
  | percent _ => rfl
  | given h => exact (of_ofDelimiters h).2.1

theorem opening_ne_nil (h : p.Delimited d) :
  d.opening ≠ []
  := by
  cases h with
  | percent h =>
      simp only [List.mem_cons, List.not_mem_nil, or_false] at h
      rcases h with rfl | rfl | rfl <;> decide
  | given h => exact (of_ofDelimiters h).2.2

/-- The source of the pattern reads as a pattern with one group that matches alike. -/
theorem exists_ofSource? (h : p.Delimited d) :
  ∃ q, Pattern.ofSource? p.source = some ⟨q, 1⟩ ∧ q.outcomes = p.pattern.outcomes
  := by
  use Pattern.written d.opening d.closing
  constructor
  · cases h with
    | percent h =>
        simp only [List.mem_cons, List.not_mem_nil, or_false] at h
        rcases h with rfl | rfl | rfl <;> rfl
    | given h =>
        unfold ofDelimiters at h
        split at h
        · cases h
        · obtain rfl := Except.ok.inj h
          apply Pattern.ofSource?_delimiters
  · rw [h.pattern_eq]
    apply Pattern.outcomes_written

/-- The first match from a place on is the first tag from there on. -/
theorem findFrom?_eq_tag? (h : p.Delimited d) (kind : Tag.Kind) (rest : Text) :
    ∀ (pos : Nat) (prev : Option Char),
      (p.pattern.findFrom? pos prev rest).map (Settings.tagOfMatch kind) = d.tag? kind pos rest
  := by
  rw [h.pattern_eq]
  induction rest with
  | nil =>
      intro pos prev
      have hopening : d.opening.isPrefixOf [] = false := by
        cases hd : d.opening with
        | nil => exact absurd hd h.opening_ne_nil
        | cons c t => rfl
      rw [Pattern.findFrom?, Pattern.matchAt?_between, hopening]
      rfl
  | cons c rest ih =>
      intro pos prev
      have hhere : ((between d.opening d.closing).matchAt? ⟨pos, prev, c :: rest, []⟩).map
          (Settings.tagOfMatch kind) = d.tagAt? kind pos (c :: rest) := by
        rw [Pattern.matchAt?_between, Delimiters.tagAt?]
        split
        · rw [Option.map_map]
          rfl
        · rfl
      rw [Pattern.findFrom?, Delimiters.tag?, ← hhere]
      cases (between d.opening d.closing).matchAt? ⟨pos, prev, c :: rest, []⟩ with
      | none => apply ih
      | some m => rfl

end TagPattern.Delimited

namespace Delimiters

/-! ### The first of several texts -/

/-- The first place where one of several texts stands is the least of the places where they stand
first. -/
theorem min?_find? {needles : List Text} (h : ∀ needle ∈ needles, needle ≠ []) (t : Text) :
  (needles.filterMap (Text.find? · t)).min? = firstOf? needles t
  := by
  induction t with
  | nil =>
      rw [firstOf?, List.min?_eq_none_iff, List.filterMap_eq_nil_iff]
      intro needle hneedle
      cases needle with
      | nil => exact absurd rfl (h [] hneedle)
      | cons c t => rfl
  | cons c t ih =>
      rw [firstOf?]
      split
      · next hany =>
          obtain ⟨needle, hneedle, hstands⟩ := List.any_eq_true.mp hany
          rw [List.min?_eq_some_iff]
          constructor
          · rw [List.mem_filterMap]
            exact ⟨needle, hneedle, by rw [Text.find?, if_pos hstands]⟩
          · intro n _
            apply Nat.zero_le
      · next hnone =>
          rw [Bool.not_eq_true, List.any_eq_false] at hnone
          have hlater : needles.filterMap (Text.find? · (c :: t))
              = (needles.filterMap (Text.find? · t)).map (c.utf8Size + ·) := by
            rw [List.map_filterMap]
            apply List.filterMap_congr
            intro needle hneedle
            rw [Text.find?, if_neg (hnone needle hneedle)]
          rw [hlater, ← ih]
          cases hmin : (needles.filterMap (Text.find? · t)).min? with
          | none =>
              rw [List.min?_eq_none_iff] at hmin
              rw [hmin]
              rfl
          | some n =>
              rw [List.min?_eq_some_iff] at hmin
              rw [Option.map_some, List.min?_eq_some_iff]
              constructor
              · apply List.mem_map_of_mem hmin.1
              · intro m hm
                obtain ⟨k, hk, rfl⟩ := List.mem_map.mp hm
                have := hmin.2 k hk
                omega

/-! ### The next tag -/

/-- A tag that is found has an opening, so it is not empty. -/
theorem forward_of_tag? {d : Delimiters} {kind : Tag.Kind} (h : d.opening ≠ []) {tag : Tag}
    (t : Text) :
    ∀ {pos : Nat}, d.tag? kind pos t = some tag → tag.span.start < tag.span.stop
  := by
  induction t with
  | nil =>
      intro pos htag
      cases htag
  | cons c t ih =>
      intro pos htag
      rw [tag?, Option.or_eq_some_iff] at htag
      rcases htag with hhere | ⟨-, hlater⟩
      · unfold tagAt? at hhere
        split at hhere
        · obtain ⟨n, -, rfl⟩ := Option.map_eq_some_iff.mp hhere
          have hopening := length_le_width d.opening
          have hlength := List.length_pos_iff.mpr h
          dsimp only [Tag.ofCode]
          omega
        · cases hhere
      · apply ih hlater

theorem forward_of_next? {d : Tag.Kind → Delimiters} {document : Text} {start : Nat} {tag : Tag}
    (h : ∀ kind ∈ kinds, (d kind).opening ≠ []) (hnext : next? d document start = some tag) :
  tag.span.start < tag.span.stop
  := by
  obtain ⟨kind, hkind, htag⟩ := List.mem_filterMap.mp (List.argmin_mem hnext)
  apply forward_of_tag? (h kind hkind) _ htag

end Delimiters

namespace Settings

variable {s : Settings} {d : Tag.Kind → Delimiters} {document : Text}

/-- Looking for the next tag of each kind and keeping the better one finds the one that begins
first. -/
theorem nextTag?_eq_next? (h : ∀ entry ∈ s.ordered, entry.2.Delimited (d entry.1)) (start : Nat) :
  s.nextTag? document start = Delimiters.next? d document start
  := by
  have hordered : s.ordered.map (·.1) = Delimiters.kinds := rfl
  rw [Delimiters.next?, List.argmin, ← hordered, List.filterMap_map, List.foldl_filterMap, nextTag?]
  apply List.foldl_ext
  intro best entry hentry
  have hfind := (h entry hentry).findFrom?_eq_tag? entry.1 (onward start document) start
    (before start document).getLast?
  rw [Function.comp_apply, ← hfind]
  simp only [Pattern.find?]
  cases entry.2.pattern.findFrom? start (before start document).getLast?
      (onward start document) with
  | none => rfl
  | some m =>
      cases best with
      | none => rfl
      | some tag =>
          dsimp only [Option.map_some, better, List.argAux]
          by_cases hle : tag.span.start ≤ (tagOfMatch entry.1 m).span.start
          · rw [if_pos hle, if_neg (Nat.not_lt_of_le hle)]
          · rw [if_neg hle, if_pos (Nat.lt_of_not_le hle)]

/-- Looking for the opener of each kind finds the first place where one of the openings stands. -/
theorem openerIn?_eq_firstOf? (h : ∀ entry ∈ s.ordered, entry.2.Delimited (d entry.1)) (t : Text) :
  s.openerIn? t = Delimiters.firstOf? (Delimiters.kinds.map fun kind => (d kind).opening) t
  := by
  have hneedles : ∀ needle ∈ s.ordered.map fun entry => (d entry.1).opening, needle ≠ [] := by
    intro needle hneedle
    obtain ⟨entry, hentry, rfl⟩ := List.mem_map.mp hneedle
    exact (h entry hentry).opening_ne_nil
  have hkinds : (Delimiters.kinds.map fun kind => (d kind).opening)
      = s.ordered.map fun entry => (d entry.1).opening := rfl
  rw [hkinds, ← Delimiters.min?_find? hneedles, List.filterMap_map, openerIn?]
  congr 1
  apply List.filterMap_congr
  intro entry hentry
  change entry.2.opener.bind (Text.find? · t) = _
  rw [(h entry hentry).opener_eq]
  rfl

/-- At every offset the scan with the patterns does what the search for delimiters does. -/
theorem step_eq_step (h : ∀ entry ∈ s.ordered, entry.2.Delimited (d entry.1)) :
  s.step document = Delimiters.step d document
  := by
  funext start
  have hopenings : ∀ kind ∈ Delimiters.kinds, (d kind).opening ≠ [] := by
    intro kind hkind
    obtain ⟨entry, hentry, rfl⟩ := List.mem_map.mp (show kind ∈ s.ordered.map (·.1) from hkind)
    exact (h entry hentry).opening_ne_nil
  dsimp only [step, Delimiters.step]
  rw [nextTag?_eq_next? h, openerIn?_eq_firstOf? h]
  cases hnext : Delimiters.next? d document start with
  | none =>
      cases Delimiters.firstOf? _ _ with
      | none => rfl
      | some pos => rfl
  | some tag =>
      -- a tag with an opening is not empty
      have hempty : tag.span.isEmpty = false := by
        simpa [Span.isEmpty] using Delimiters.forward_of_next? hopenings hnext
      cases Delimiters.firstOf? _ _ with
      | none => simp [hempty]
      | some pos => rfl

end Settings

namespace Delimiters

variable {d : Tag.Kind → Delimiters} {document : Text}

/-- Where the search for delimiters fails a tag was left open. -/
theorem message_of_scans {start : Nat} {r : Except TagError (List Tag)}
    (h : Tag.Scans (step d document) start r) :
  ∀ e, r = .error e → e.message = "unterminated template tag" ∧ e.span.stop = width document
  := by
  induction h with
  | fault hstep =>
      intro e he
      obtain rfl := Except.error.inj he
      dsimp only [step] at hstep
      split at hstep
      · obtain rfl := Except.error.inj hstep
        exact ⟨rfl, rfl⟩
      · cases hstep
  | done _ =>
      intro e he
      cases he
  | @tag start tag r _ _ ih =>
      intro e he
      cases r with
      | error e' =>
          obtain rfl := Except.error.inj he
          apply ih e' rfl
      | ok rest => cases he

end Delimiters

/-- With default patterns or patterns that were made from delimiters, the tags of a document, or the
fault instead of them, are the result of the one run of the search for delimiters.  The only fault
is a tag that was left open.  The patterns match as their sources read. -/
theorem Settings.scans_delimited {s : Settings} {d : Tag.Kind → Delimiters}
    (h : ∀ entry ∈ s.ordered, entry.2.Delimited (d entry.1)) (document : Text) :
  (∀ r, Tag.Scans (Delimiters.step d document) 0 r ↔ s.tags document = r)
    ∧ (∀ e, s.tags document = .error e →
      e.message = "unterminated template tag" ∧ e.span.stop = width document)
    ∧ ∀ entry ∈ s.ordered, ∃ q, Pattern.ofSource? entry.2.source = some ⟨q, 1⟩
      ∧ q.outcomes = entry.2.pattern.outcomes
  := by
  rw [← step_eq_step h]
  refine ⟨?_, ?_, ?_⟩
  · intro r
    apply scans_iff
  · intro e he
    have hrun : Tag.Scans (s.step document) 0 (s.tags document) := scans_iff.mpr rfl
    rw [step_eq_step h] at hrun
    apply Delimiters.message_of_scans hrun e he
  · intro entry hentry
    exact (h entry hentry).exists_ofSource?

/-- Delimiters of which one begins like another one. -/
def Delimiters.sample : Tag.Kind → Delimiters
  | .evaluate => ⟨ofString "[", ofString "]"⟩
  | .interpolate => ⟨ofString "[[", ofString "]]"⟩
  | .escape => ⟨ofString "<%-", ofString "%>"⟩

/-- The patterns of the delimiters in `Delimiters.sample`. -/
def SettingsConfig.sample : SettingsConfig :=
  ⟨some (.delimiters "[" "]"), some (.delimiters "[[" "]]"), none⟩

theorem Settings.scans_delimited_sample :
  ∃ s, Settings.ofConfig .sample = .ok s
    ∧ (∀ entry ∈ s.ordered, entry.2.Delimited (Delimiters.sample entry.1))
    ∧ Tag.Scans (Delimiters.step .sample (ofString "[[é] ]<%-]%>")) 0
        (.ok [.ofCode .evaluate ⟨0, 5⟩ ⟨1, 4⟩, .ofCode .escape ⟨7, 13⟩ ⟨10, 11⟩])
    ∧ Tag.Scans (Delimiters.step .sample (ofString "[é]b[[")) 0 (.error (.unterminated ⟨5, 7⟩))
  := by
  obtain ⟨s, hs⟩ : ∃ s, Settings.ofConfig .sample = .ok s := ⟨_, rfl⟩
  have hfound (t : Text) {r : Except TagError (List Tag)}
      (h : (Settings.ofConfig .sample).toOption.map (·.tags t) = some r) : s.tags t = r := by
    rw [hs] at h
    exact Option.some.inj h
  have hdelimited : ∀ entry ∈ s.ordered, entry.2.Delimited (Delimiters.sample entry.1) := by
    obtain rfl := Except.ok.inj hs
    simp only [ordered, List.forall_mem_cons]
    exact ⟨.percent (by decide), .given rfl, .given rfl, by simp⟩
  refine ⟨s, hs, hdelimited, ?_, ?_⟩
  · rw [(scans_delimited hdelimited _).1]
    apply hfound
    decide +kernel
  · rw [(scans_delimited hdelimited _).1]
    apply hfound
    decide +kernel

end Stencil
