import Stencil.Proofs.Pattern.Reading
import Stencil.Proofs.Tag.Delimiters
import Stencil.Proofs.Tag.Tiling

/-!
# What tags begin with

The opener of a tag pattern is cut out of its source character by character, and a tag counts as
left open where an opener stands that begins no tag.  This is sound if the tags of the pattern begin
with its opener.  They do if the pattern is made from delimiters, and also if it is read from a
source in which the characters that are taken stand for themselves.  There are three ways in which
they do not: an escape is an assertion about words, the last character can be left out because its
repetition is repeated, or the pattern has a further alternative with another beginning.
-/

namespace Stencil

open Text Pattern

namespace TagPattern

/-- The source begins with an escape that stands for the beginning or the end of a word. -/
def startsWordEscape : Text → Bool
  | '\\' :: '<' :: _ => true
  | '\\' :: '>' :: _ => true
  | _ => false

/-- The repetitions at the beginning of the source all ask for one turn at least, in the form of a
plus sign. -/
def startsWithTurns : Text → Bool
  | '+' :: '?' :: t => startsWithTurns t
  | '+' :: t => startsWithTurns t
  | t => !startsRepetition t

/-- The characters that `literalBeginning` takes from the source stand for themselves in the
pattern, and no repetition leaves them out. -/
def spellsOpener : Nat → Text → Bool
  | 0, _ => true
  | limit + 1, t =>
    match literalAt? t with
    | none => true
    | some (_, rest) =>
      match rest with
      | '?' :: _ => true
      | '*' :: _ => true
      | '{' :: _ => true
      | _ => !startsWordEscape t && startsWithTurns rest && spellsOpener limit rest

/-- The opener of the pattern is spelled out in its source, and the alternatives after the first one
begin with it as well. -/
structure Plain (p : TagPattern) : Prop where
  spelled : spellsOpener p.source.length p.source = true
  alternatives : ∀ opener ∈ p.opener, ∀ first others, p.pattern = .alt first others →
    others.Begins opener

/-! ### Reading the opener -/

theorem isPunctuation_bounds {c : Char} (hc : isPunctuation c = true) :
  c.val < 0x80 ∧ c.isAlphanum = false
  := by
  have halphanum : c.isAlphanum = (decide (c.val ≥ 'A'.val ∧ c.val ≤ 'Z'.val)
      || (c.val ≥ 'a'.val && c.val ≤ 'z'.val) || (c.val ≥ '0'.val && c.val ≤ '9'.val)) := rfl
  simp only [isPunctuation, Bool.or_eq_true, Bool.and_eq_true, decide_eq_true_eq, Char.le_def,
    UInt32.le_iff_toNat_le] at hc
  simp only [halphanum, Bool.or_eq_false_iff, Bool.and_eq_false_iff, decide_eq_false_iff_not,
    UInt32.lt_iff_toNat_lt, UInt32.le_iff_toNat_le, ge_iff_le]
  simp at hc ⊢
  omega

/-- Punctuation stands for itself after a backslash, unless the escape is an assertion. -/
theorem escape?_punctuation {c : Char} (hc : isPunctuation c = true) (hless : c ≠ '<')
    (hgreater : c ≠ '>') (f : Flags) (t : Text) :
  escape? f (c :: t) = some (.char c, t)
  := by
  have hcode := isPunctuation_bounds hc
  unfold escape?
  dsimp only
  split
  -- no letter is punctuation
  all_goals try (exfalso; revert hc; decide)
  · exact absurd rfl hless
  · exact absurd rfl hgreater
  · rw [if_pos (by simp [hcode])]

/-- A character that is taken for the opener reads as itself. -/
theorem body?_literalAt {t rest : Text} {c : Char} (hliteral : literalAt? t = some (c, rest))
    (hword : startsWordEscape t = false) {b : Partial} (hb : b.flags.verbose = false) (limit : Nat)
    (g : Groups) :
  body? (limit + 1) b g t = body? limit (b.push (b.flags.char c)) g rest
  := by
  unfold literalAt? at hliteral
  split at hliteral
  · cases hliteral
  · next d t =>
      split at hliteral
      · next hd =>
          obtain ⟨rfl, rfl⟩ := Prod.mk.inj (Option.some.inj hliteral)
          apply body?_escaped hb (escape?_punctuation hd _ _ _ _)
          · rintro rfl
            cases hword
          · rintro rfl
            cases hword
      · cases hliteral
  · next d t _ =>
      split at hliteral
      · cases hliteral
      · next hd =>
          obtain ⟨rfl, rfl⟩ := Prod.mk.inj (Option.some.inj hliteral)
          apply body?_plain hb
          simp only [List.mem_cons, List.not_mem_nil, or_false, not_or] at hd
          simp [isSign, hd]

/-- Turns that ask for one turn at least are written with a plus sign. -/
theorem exists_of_startsWithTurns {t : Text} (ht : startsWithTurns t = true)
    (hsign : startsRepetition t = true) (f : Flags) :
  ∃ t', t = '+' :: t' ∧ startsWithTurns (greed f t').2 = true
  := by
  unfold startsWithTurns at ht
  split at ht
  · next t' => exact ⟨'?' :: t', rfl, ht⟩
  · next t' hlazy =>
      use t', rfl
      unfold greed
      split
      · next t'' => exact absurd rfl (hlazy t'')
      · exact ht
  · rw [hsign] at ht
    cases ht

/-- An item keeps its beginning in the turns that are made of it. -/
theorem begins_of_startsWithTurns {g' : Groups} {rest o : Text} {p : Pattern} (limit : Nat) :
    ∀ {f : Flags} {done : List Pattern} {q : Pattern} {items : List (Option Pattern)} {g : Groups}
      {t : Text}, f.verbose = false → q.Begins o → startsWithTurns t = true →
      body? limit ⟨f, done, some q :: items⟩ g t = some (p, g', rest) →
      ∃ q', q'.Begins o ∧ ∃ more, Continues done (some q' :: items) more p
  := by
  induction limit with
  | zero =>
      intro f done q items g t _ _ _ h
      cases h
  | succ limit ih =>
      intro f done q items g t hf hq ht h
      cases hsign : startsRepetition t with
      | false =>
          use q, hq
          exact continues_of_body? hf hsign h
      | true =>
          obtain ⟨t', rfl, hturns⟩ := exists_of_startsWithTurns ht hsign f
          rw [body?] at h
          dsimp only at h
          rw [skipSpace_eq hf] at h
          exact ih hf (hq.turns _) hturns h

/-- A character that is taken for the opener is followed by what is taken after it. -/
theorem literalBeginning_cases {t rest : Text} {c : Char} (h : literalAt? t = some (c, rest))
    (limit : Nat) :
  literalBeginning (limit + 1) t = []
    ∨ literalBeginning (limit + 1) t = c :: literalBeginning limit rest
      ∧ spellsOpener (limit + 1) t
        = (!startsWordEscape t && startsWithTurns rest && spellsOpener limit rest)
  := by
  rw [literalBeginning.eq_2, h]
  dsimp only
  split
  · left
    rfl
  · left
    rfl
  · left
    rfl
  · next hquestion hstar hbrace =>
      right
      constructor
      · rfl
      · rw [spellsOpener.eq_2, h]
        dsimp only
        split
        · exact absurd rfl (hquestion _)
        · exact absurd rfl (hstar _)
        · exact absurd rfl (hbrace _)
        · rfl

/-- A sign of repetition is not taken for the opener. -/
theorem literalBeginning_of_startsRepetition {t : Text} (ht : startsRepetition t = true)
    (limit : Nat) :
  literalBeginning limit t = []
  := by
  cases t with
  | nil => cases ht
  | cons c t =>
      simp only [startsRepetition, decide_eq_true_eq, List.mem_cons, List.not_mem_nil,
        or_false] at ht
      cases limit with
      | zero => rfl
      | succ limit => rcases ht with rfl | rfl | rfl | rfl <;> rfl

/-- What is read from a source that spells its opener begins with the opener. -/
theorem begins_literalBeginning {g' : Groups} {rest : Text} {p : Pattern} (limit : Nat) :
    ∀ {n : Nat} {items : List (Option Pattern)} {g : Groups} {t : Text},
      spellsOpener limit t = true → startsRepetition t = false →
      body? n ⟨{}, [], items⟩ g t = some (p, g', rest) →
      ∃ more, Continues [] items more p
        ∧ Begins (literalBeginning limit t) (seqs (more.filterMap id))
  := by
  induction limit with
  | zero =>
      intro n items g t _ ht h
      obtain ⟨more, hmore⟩ := continues_of_body? rfl ht h
      exact ⟨more, hmore, begins_nil _⟩
  | succ limit ih =>
      intro n items g t hspelled ht h
      have hempty (hnone : literalBeginning (limit + 1) t = []) :
          ∃ more, Continues [] items more p
            ∧ Begins (literalBeginning (limit + 1) t) (seqs (more.filterMap id)) := by
        obtain ⟨more, hmore⟩ := continues_of_body? rfl ht h
        rw [hnone]
        exact ⟨more, hmore, begins_nil _⟩
      cases hliteral : literalAt? t with
      | none =>
          apply hempty
          rw [literalBeginning.eq_2, hliteral]
      | some literal =>
          obtain ⟨c, t'⟩ := literal
          rcases literalBeginning_cases hliteral limit with hnone | ⟨hcons, hspells⟩
          · exact hempty hnone
          · rw [hspells, Bool.and_eq_true, Bool.and_eq_true, Bool.not_eq_true'] at hspelled
            obtain ⟨⟨hword, hturns⟩, hrest⟩ := hspelled
            cases n with
            | zero => cases h
            | succ n =>
                rw [body?_literalAt hliteral hword rfl] at h
                rw [hcons]
                cases hsign : startsRepetition t' with
                | false =>
                    obtain ⟨more, hmore, hbegins⟩ := ih hrest hsign h
                    exact ⟨_, continues_cons.mp hmore, hbegins.seqs_char_cons c⟩
                | true =>
                    -- the opener ends with a character that is repeated
                    obtain ⟨q, hq, more, hmore⟩ :=
                      begins_of_startsWithTurns n rfl (begins_char c) hturns h
                    rw [literalBeginning_of_startsRepetition hsign]
                    exact ⟨_, continues_cons.mp hmore, hq.seqs_cons _⟩

/-- A tag pattern that is made from a source keeps it, takes its opener from it and is read from
it. -/
theorem read_of_ofSource {source : String} {p : TagPattern} (hp : ofSource source = .ok p) :
  p.source = source.toList ∧ p.opener = openerOfSource source.toList
    ∧ ∃ g, body? (source.toList.length + 1) ⟨{}, [], []⟩ ⟨0, []⟩ source.toList
      = some (p.pattern, g, [])
  := by
  unfold ofSource at hp
  split at hp
  · cases hp
  · next parsed hparsed =>
      split at hp
      · cases hp
      · obtain rfl := Except.ok.inj hp
        use rfl, rfl
        unfold ofSource? at hparsed
        split at hparsed
        · next pattern g hread =>
            obtain rfl := Option.some.inj hparsed
            exact ⟨g, hread⟩
        · cases hparsed

/-- An opener is what a source begins with, and no sign of repetition comes first there. -/
theorem literalBeginning_of_openerOfSource {t opener : Text} (h : openerOfSource t = some opener) :
  literalBeginning t.length t = opener ∧ startsRepetition t = false
  := by
  unfold openerOfSource at h
  split at h
  · cases h
  · next hsome =>
      use Option.some.inj h
      apply Bool.eq_false_iff.mpr
      intro hsign
      exact hsome (literalBeginning_of_startsRepetition hsign _)

/-- The matches of a plain pattern that is read from a source begin with its opener. -/
theorem Plain.begins {source : String} {p : TagPattern} (hplain : p.Plain)
    (hp : ofSource source = .ok p) {opener : Text} (hopener : p.opener = some opener) :
  p.pattern.Begins opener
  := by
  obtain ⟨hsource, hopenerOf, g, hread⟩ := read_of_ofSource hp
  have hspelled := hplain.spelled
  have halternatives := hplain.alternatives opener hopener
  rw [hsource] at hspelled
  rw [hopenerOf] at hopener
  obtain ⟨rfl, hsign⟩ := literalBeginning_of_openerOfSource hopener
  obtain ⟨more, ⟨others, hpattern⟩, hbegins⟩ := begins_literalBeginning _ hspelled hsign hread
  rw [hpattern] at halternatives ⊢
  cases others with
  | nil => exact hbegins
  | cons next others => exact hbegins.alt (halternatives _ _ rfl)

/-- The matches of the pattern between two delimiters begin with the opening one. -/
theorem begins_between (opening closing : Text) :
  (between opening closing).Begins opening
  := by
  have hliteral : Begins opening (literal opening) := by
    intro t first s _ e he
    rw [outcomes_literal] at he
    split at he
    · next hstands =>
        obtain rfl := List.mem_singleton.mp he
        exact ⟨List.isPrefixOf_iff_prefix.mp hstands, Nat.le_refl _⟩
    · cases he
  exact hliteral.seqs_cons [_]

end TagPattern

/-- A text stands at the place where it is found. -/
theorem Text.exists_append_of_find? {needle t : Text} {n : Nat}
    (h : Text.find? needle t = some n) :
  ∃ front back, t = front ++ (needle ++ back) ∧ width front = n
  := by
  induction t generalizing n with
  | nil =>
      unfold Text.find? at h
      split at h
      · next hempty =>
          obtain rfl := List.isEmpty_iff.mp hempty
          exact ⟨[], [], rfl, Option.some.inj h⟩
      · cases h
  | cons c t ih =>
      unfold Text.find? at h
      split at h
      · next hstands =>
          obtain ⟨back, hback⟩ := List.isPrefixOf_iff_prefix.mp hstands
          exact ⟨[], back, hback.symm, Option.some.inj h⟩
      · obtain ⟨n, hn, rfl⟩ := Option.map_eq_some_iff.mp h
        obtain ⟨front, back, rfl, rfl⟩ := ih hn
        exact ⟨c :: front, back, rfl, rfl⟩

namespace Settings

variable {s : Settings} {document : Text}

/-- A step that finds a tag that was left open has found an opener in the text that it skips. -/
theorem step_eq_unterminated {start : Nat} {span : Span} (hstart : IsBoundary start document)
    (h : s.step document start = .error (.unterminated span)) :
  ∃ stop pos, IsBoundary stop document ∧ start ≤ stop
    ∧ s.openerIn? (slice document start stop) = some pos ∧ span.start = start + pos
  := by
  unfold step at h
  dsimp only at h
  split at h
  · next pos hpos =>
      obtain rfl := TagError.unterminated.inj (Except.error.inj h)
      cases hnext : s.nextTag? document start with
      | none =>
          rw [hnext] at hpos
          exact ⟨_, pos, isBoundary_width document, hstart.le_width, hpos, rfl⟩
      | some tag =>
          rw [hnext] at hpos
          obtain ⟨kind, m, rfl, hplaced⟩ := placed_of_nextTag? hstart hnext
          exact ⟨_, pos, hplaced.onBoundaries.1, hplaced.fromFirst, hpos, rfl⟩
  · cases h
  · split at h
    · cases h
    · cases h

/-- Where a step finds a tag that was left open the opener of a kind stands. -/
theorem exists_opener_of_step {start : Nat} {span : Span} (hstart : IsBoundary start document)
    (h : s.step document start = .error (.unterminated span)) :
  ∃ entry ∈ s.ordered, ∃ opener ∈ entry.2.opener, opener <+: onward span.start document
  := by
  obtain ⟨stop, pos, hstop, hle, hpos, hspan⟩ := step_eq_unterminated hstart h
  rw [openerIn?, List.min?_eq_some_iff] at hpos
  obtain ⟨entry, hentry, hfind⟩ := List.mem_filterMap.mp hpos.1
  obtain ⟨opener, hopener, hfind⟩ := Option.bind_eq_some_iff.mp hfind
  obtain ⟨front, back, hslice, rfl⟩ := Text.exists_append_of_find? hfind
  have hcut : document.Cut start (front ++ (opener ++ (back ++ onward stop document))) := by
    rw [cut_iff, ← slice_append_onward hstart hstop hle, hslice]
    use hstart
    rw [List.append_assoc, List.append_assoc]
  use entry, hentry, opener, hopener
  rw [hspan, hcut.append.onward_eq]
  apply List.prefix_append

/-- Where a scan finds a tag that was left open the opener of a kind stands. -/
theorem exists_opener_of_scans {start : Nat} {r : Except TagError (List Tag)}
    (h : Tag.Scans (s.step document) start r) (hstart : IsBoundary start document) :
  ∀ span, r = .error (.unterminated span) →
    ∃ entry ∈ s.ordered, ∃ opener ∈ entry.2.opener, opener <+: onward span.start document
  := by
  induction h with
  | fault hstep =>
      intro span hspan
      rw [Except.error.inj hspan] at hstep
      exact exists_opener_of_step hstart hstep
  | done _ =>
      intro span hspan
      cases hspan
  | @tag start tag r hstep _ ih =>
      intro span hspan
      obtain ⟨hnext, -, -⟩ := step_eq_some hstep
      obtain ⟨kind, m, rfl, hplaced⟩ := placed_of_nextTag? hstart hnext
      cases r with
      | error e => exact ih hplaced.onBoundaries.2 span hspan
      | ok rest => cases hspan

end Settings

/-- The tag patterns that a configuration gives. -/
def SettingsConfig.given (c : SettingsConfig) : List PatternSetting :=
  [c.evaluate, c.interpolate, c.escape].filterMap id

namespace Settings

variable {s : Settings} {config : SettingsConfig}

/-- The pattern of each kind is made from what the configuration gives for it, if there is any. -/
theorem ofConfig_eq (config : SettingsConfig) :
  ofConfig config = (do
    let evaluate ← config.evaluate.elim (.ok (.percent "<%")) TagPattern.ofSetting
    let interpolate ← config.interpolate.elim (.ok (.percent "<%=")) TagPattern.ofSetting
    let escape ← config.escape.elim (.ok (.percent "<%-")) TagPattern.ofSetting
    pure ⟨evaluate, interpolate, escape⟩)
  := by
  obtain ⟨evaluate, interpolate, escape⟩ := config
  cases evaluate <;> cases interpolate <;> cases escape <;> rfl

/-- The pattern of each kind is one that the configuration gives, or a default one. -/
theorem ordered_of_ofConfig (h : ofConfig config = .ok s) :
  ∀ entry ∈ s.ordered, (∃ p ∈ config.given, TagPattern.ofSetting p = .ok entry.2)
    ∨ ∃ d, entry.2.Delimited d
  := by
  have hpattern {given : Option PatternSetting} {default p : TagPattern}
      (hp : given.elim (.ok default) TagPattern.ofSetting = .ok p)
      (hdefault : ∃ d, default.Delimited d)
      (hgiven : given ∈ [config.evaluate, config.interpolate, config.escape]) :
      (∃ q ∈ config.given, TagPattern.ofSetting q = .ok p) ∨ ∃ d, p.Delimited d := by
    cases given with
    | none =>
        obtain rfl := Except.ok.inj hp
        exact .inr hdefault
    | some q => exact .inl ⟨q, List.mem_filterMap.mpr ⟨_, hgiven, rfl⟩, hp⟩
  rw [ofConfig_eq] at h
  simp only [bind, Except.bind] at h
  split at h
  · cases h
  next evaluate hevaluate =>
  split at h
  · cases h
  next interpolate hinterpolate =>
  split at h
  · cases h
  next escape hescape =>
  obtain rfl := Except.ok.inj h
  simp only [ordered, List.forall_mem_cons]
  refine ⟨?_, ?_, ?_, by simp⟩
  · exact hpattern hescape ⟨_, .percent (by decide)⟩ (by simp)
  · exact hpattern hinterpolate ⟨_, .percent (by decide)⟩ (by simp)
  · exact hpattern hevaluate ⟨_, .percent (by decide)⟩ (by simp)

/-- The matches of the pattern of each kind begin with its opener if the patterns that are given by
their sources are plain. -/
theorem begins_of_ofConfig (h : ofConfig config = .ok s)
    (hplain : ∀ source p, .source source ∈ config.given → TagPattern.ofSource source = .ok p →
      p.Plain) :
  ∀ entry ∈ s.ordered, ∀ opener ∈ entry.2.opener, entry.2.pattern.Begins opener
  := by
  intro entry hentry opener hopener
  have hdelimited (d : Delimiters) (hd : entry.2.Delimited d) :
      entry.2.pattern.Begins opener := by
    rw [hd.opener_eq] at hopener
    obtain rfl := Option.some.inj hopener
    rw [hd.pattern_eq]
    apply TagPattern.begins_between
  rcases ordered_of_ofConfig h entry hentry with ⟨p, hgiven, hp⟩ | ⟨d, hd⟩
  · cases p with
    | source source => exact (hplain source _ hgiven hp).begins hp hopener
    | delimiters opening closing => exact hdelimited _ (.given hp)
  · exact hdelimited d hd

end Settings

/-- Every match of a plain pattern begins with its opener, wherever it is found.  If the other
sources in a configuration are plain too, a tag is only said to be left open where a text stands
with which all tags of one of the kinds begin. -/
theorem TagPattern.begins_with_opener {source : String} {p : TagPattern}
    (hp : ofSource source = .ok p) (hplain : p.Plain) :
  (∀ opener, p.opener = some opener →
    p.pattern.Begins opener
      ∧ ∀ t start m, IsBoundary start t → p.pattern.find? t start = some m →
        opener <+: m.span.text t)
    ∧ ∀ config s, Settings.ofConfig config = .ok s →
      (∀ other q, .source other ∈ config.given → other ≠ source → ofSource other = .ok q →
        q.Plain) →
      ∀ document span, s.tags document = .error (.unterminated span) →
        ∃ entry ∈ s.ordered, ∃ opener, entry.2.opener = some opener
          ∧ opener <+: onward span.start document ∧ entry.2.pattern.Begins opener
  := by
  constructor
  · intro opener hopener
    have hbegins := hplain.begins hp hopener
    use hbegins
    intro t start m hstart hm
    exact hbegins.find? hstart hm
  · intro config s hconfig hothers document span htags
    have hgiven (other : String) (q : TagPattern) (hother : .source other ∈ config.given)
        (hq : ofSource other = .ok q) : q.Plain := by
      by_cases hsame : other = source
      · subst hsame
        obtain rfl := Except.ok.inj (hp.symm.trans hq)
        exact hplain
      · exact hothers other q hother hsame hq
    obtain ⟨entry, hentry, opener, hopener, hstands⟩ :=
      Settings.exists_opener_of_scans (Settings.scans_iff.mpr htags) (isBoundary_zero document)
        span rfl
    use entry, hentry, opener, hopener, hstands
    exact Settings.begins_of_ofConfig hconfig hgiven entry hentry opener hopener

/-- Tag patterns of which one is given by a source with two alternatives. -/
def SettingsConfig.withAlternatives : SettingsConfig :=
  ⟨some (.source "ab+(x)|ab;"), some (.delimiters "[" "]"), none⟩

/-- Both alternatives of the source begin with the opener. -/
theorem SettingsConfig.plain_withAlternatives (source : String) (p : TagPattern)
    (hgiven : .source source ∈ withAlternatives.given)
    (hp : TagPattern.ofSource source = .ok p) :
  p.Plain
  := by
  obtain rfl : source = "ab+(x)|ab;" := by
    simpa [SettingsConfig.given, withAlternatives] using hgiven
  obtain rfl := Except.ok.inj hp
  constructor
  · decide +kernel
  · rintro opener hopener first others hpattern
    obtain rfl := Option.some.inj hopener
    obtain ⟨-, rfl⟩ := Pattern.alt.inj hpattern
    exact ((begins_nil (seqs [char ';'])).seqs_char_cons 'b').seqs_char_cons 'a'

theorem TagPattern.begins_with_opener_withAlternatives :
  ∃ p, ofSource "ab+(x)|ab;" = .ok p ∧ p.Plain ∧ p.opener = some (ofString "ab")
    ∧ p.pattern.find? (ofString "éabbx") 0 = some ⟨⟨2, 6⟩, some ⟨5, 6⟩⟩
    ∧ ofString "ab" <+: (Span.mk 2 6).text (ofString "éabbx")
    ∧ ∃ s, Settings.ofConfig .withAlternatives = .ok s
      ∧ s.tags (ofString "ab;ab") = .error (.unterminated ⟨3, 5⟩)
      ∧ ∃ entry ∈ s.ordered, ∃ opener, entry.2.opener = some opener
        ∧ opener <+: onward 3 (ofString "ab;ab") ∧ entry.2.pattern.Begins opener
  := by
  obtain ⟨p, hp⟩ : ∃ p, ofSource "ab+(x)|ab;" = .ok p := ⟨_, rfl⟩
  obtain ⟨s, hs⟩ : ∃ s, Settings.ofConfig .withAlternatives = .ok s := ⟨_, rfl⟩
  have hplain := SettingsConfig.plain_withAlternatives _ p (by decide) hp
  have hread : (ofSource "ab+(x)|ab;").toOption.map
      (fun p => (p.opener, p.pattern.find? (ofString "éabbx") 0))
        = some (some (ofString "ab"), some ⟨⟨2, 6⟩, some ⟨5, 6⟩⟩) := by
    decide +kernel
  rw [hp] at hread
  obtain ⟨hopener, hfind⟩ := Prod.mk.inj (Option.some.inj hread)
  have htags : (Settings.ofConfig .withAlternatives).toOption.map (·.tags (ofString "ab;ab"))
      = some (.error (.unterminated ⟨3, 5⟩)) := by
    decide +kernel
  rw [hs] at htags
  have htags := Option.some.inj htags
  obtain ⟨hbegins, htold⟩ := begins_with_opener hp hplain
  refine ⟨p, hp, hplain, hopener, hfind, ?_, s, hs, htags, ?_⟩
  · exact (hbegins _ hopener).2 _ 0 _ (isBoundary_zero _) hfind
  · apply htold _ s hs _ _ _ htags
    exact fun source q hgiven _ => SettingsConfig.plain_withAlternatives source q hgiven

/-- The opener of a pattern with an alternative that begins differently, of one that begins with an
assertion about words, and of one whose first character may be left out: a match begins without it.
Where the first of them stands without a tag, a tag is said to be left open. -/
theorem TagPattern.exists_match_without_opener :
  (∀ c ∈ [("abc(x)|zzz", "abc", "zzz"), ("\\<a(b)", "<a", "ab"), ("a+*(b)", "a", "b")],
    ∃ p m, ofSource c.1 = .ok p ∧ p.opener = some (ofString c.2.1)
      ∧ p.pattern.find? (ofString c.2.2) 0 = some m
      ∧ ¬ ofString c.2.1 <+: m.span.text (ofString c.2.2))
    ∧ ∃ s, Settings.ofConfig ⟨some (.source "abc(x)|zzz"), none, none⟩ = .ok s
      ∧ s.tags (ofString "abc") = .error (.unterminated ⟨0, 3⟩)
  := by
  constructor
  · simp only [List.forall_mem_cons]
    exact ⟨⟨_, _, rfl, rfl, rfl, by decide⟩, ⟨_, _, rfl, rfl, rfl, by decide⟩,
      ⟨_, _, rfl, rfl, rfl, by decide⟩, by simp⟩
  · exact ⟨_, rfl, rfl⟩

end Stencil
