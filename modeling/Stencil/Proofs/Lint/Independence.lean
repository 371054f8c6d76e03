import Mathlib.Data.Prod.Lex
import Mathlib.Data.String.Basic
import Stencil.Proofs.Lint.Findings

/-!
# Rules on their own

All rules of a linter share one store of views, and their diagnostics are put in order together.
Still what a rule reports does not depend on the other rules.  A rule asks for all views or for
none, and the store answers the question for all views in the same way however often it was asked
before.  Diagnostics that are equal to each other are of the same rule, so to put them in order and
to leave out repetitions can be done for each rule by itself.
-/

namespace Stencil

/-! ### Parts of sorted lists -/

section Sorted

variable {α : Type} {le : α → α → Bool} {p : α → Bool}

/-- A list is cut in one way only into entries that satisfy a condition and entries that do not. -/
theorem eq_of_append_eq {q : α → Bool} {l₁ l₂ m₁ m₂ : List α} (h : l₁ ++ l₂ = m₁ ++ m₂)
    (hl₁ : ∀ a ∈ l₁, q a = true) (hl₂ : ∀ a ∈ l₂, q a = false) (hm₁ : ∀ a ∈ m₁, q a = true)
    (hm₂ : ∀ a ∈ m₂, q a = false) :
  l₁ = m₁ ∧ l₂ = m₂
  := by
  have hfilter {k₁ k₂ : List α} (hk₁ : ∀ a ∈ k₁, q a = true) (hk₂ : ∀ a ∈ k₂, q a = false) :
      (k₁ ++ k₂).filter q = k₁ := by
    rw [List.filter_append, List.filter_eq_self.mpr hk₁, List.filter_eq_nil_iff.mpr (by simpa),
      List.append_nil]
  have hfirst : l₁ = m₁ := by rw [← hfilter hl₁ hl₂, h, hfilter hm₁ hm₂]
  rw [hfirst] at h
  exact ⟨hfirst, List.append_cancel_left h⟩

/-- Sorting keeps the order of entries that may stand in either order, so to sort a list and to take
a part of it can be done in either order. -/
theorem filter_mergeSort (htrans : ∀ a b c, le a b = true → le b c = true → le a c = true)
    (htotal : ∀ a b, (le a b || le b a) = true) (l : List α) :
  (l.mergeSort le).filter p = (l.filter p).mergeSort le
  := by
  induction l with
  | nil => simp
  | cons a l ih =>
      obtain ⟨l₁, l₂, hcons, hl, hl₁⟩ := List.mergeSort_cons htrans htotal a l
      rw [hl, List.filter_append] at ih
      rw [hcons, List.filter_append]
      by_cases ha : p a = true
      · obtain ⟨m₁, m₂, hcons', hm, hm₁⟩ := List.mergeSort_cons htrans htotal a (l.filter p)
        have hsorted := List.pairwise_mergeSort htrans htotal (a :: l)
        have hsorted' := List.pairwise_mergeSort htrans htotal (a :: l.filter p)
        rw [hcons, List.pairwise_append, List.pairwise_cons] at hsorted
        rw [hcons', List.pairwise_append, List.pairwise_cons] at hsorted'
        rw [hm] at ih
        obtain ⟨hfirst, hsecond⟩ := eq_of_append_eq (q := fun b => !le a b) ih
          (fun b hb => hl₁ b (List.mem_of_mem_filter hb))
          (fun b hb => by simpa using hsorted.2.1.1 b (List.mem_of_mem_filter hb)) hm₁
          (fun b hb => by simpa using hsorted'.2.1.1 b hb)
        rw [List.filter_cons_of_pos ha, List.filter_cons_of_pos ha, hcons', hfirst, hsecond]
      · rw [List.filter_cons_of_neg ha, List.filter_cons_of_neg ha]
        exact ih

theorem dropRepeats_cons_of_ne [DecidableEq α] {a : α} {l : List α}
    (h : ∀ b ∈ l.head?, a ≠ b) :
  Lint.dropRepeats (a :: l) = a :: Lint.dropRepeats l
  := by
  cases l with
  | nil => rfl
  | cons b rest => rw [Lint.dropRepeats, if_neg (h b rfl)]

/-- In a sorted list equal entries stand next to each other, so to leave out repetitions and to take
a part of the list can be done in either order, if entries that may stand in either order are taken
together. -/
theorem filter_dropRepeats [DecidableEq α] {l : List α} (hsorted : l.Pairwise (le · · = true))
    (hp : ∀ a b, le a b = true → le b a = true → p a = p b) :
  (Lint.dropRepeats l).filter p = Lint.dropRepeats (l.filter p)
  := by
  fun_induction Lint.dropRepeats l with
  | case1 => rfl
  | case2 a => by_cases ha : p a = true <;> simp [ha, Lint.dropRepeats]
  | case3 b rest ih =>
      rw [ih hsorted.of_cons]
      by_cases hb : p b = true
      · have hrepeat (l : List α) : Lint.dropRepeats (b :: b :: l) = Lint.dropRepeats (b :: l) := by
          rw [Lint.dropRepeats, if_pos rfl]
        rw [List.filter_cons_of_pos hb, List.filter_cons_of_pos hb, List.filter_cons_of_pos hb,
          hrepeat]
      · rw [List.filter_cons_of_neg hb, List.filter_cons_of_neg hb, List.filter_cons_of_neg hb]
  | case4 a b rest hne ih =>
      by_cases ha : p a = true
      · rw [List.filter_cons_of_pos ha, List.filter_cons_of_pos ha, ih hsorted.of_cons]
        apply (dropRepeats_cons_of_ne _).symm
        rintro c hc rfl
        -- between `a` and another `a` stands `b`, which is therefore taken with them
        obtain ⟨hab, hrest⟩ := List.pairwise_cons.mp hsorted
        by_cases hb : p b = true
        · rw [List.filter_cons_of_pos hb] at hc
          exact hne (Option.some.inj hc).symm
        · rw [List.filter_cons_of_neg hb] at hc
          have hmem := List.mem_of_mem_filter (List.mem_of_mem_head? hc)
          have hba := (List.pairwise_cons.mp hrest).1 a hmem
          rw [hp a b (hab b List.mem_cons_self) hba] at ha
          exact hb ha
      · rw [List.filter_cons_of_neg ha, List.filter_cons_of_neg ha, ih hsorted.of_cons]

end Sorted

namespace Lint

/-! ### The order of diagnostics -/

/-- What the order of diagnostics goes by. -/
def Diagnostic.key (d : Diagnostic) : ℕ ×ₗ ℕ ×ₗ String ×ₗ String :=
  toLex (d.span.start, toLex (d.span.stop, toLex (d.rule, d.message)))

theorem Diagnostic.le_iff {d e : Diagnostic} :
  d.le e = true ↔ d.key ≤ e.key
  := by
  obtain ⟨rule, -, message, ⟨start, stop⟩, -, -, -⟩ := d
  obtain ⟨rule', -, message', ⟨start', stop'⟩, -, -, -⟩ := e
  simp only [Diagnostic.le, key, Prod.Lex.le_iff, ofLex_toLex, Span.before, ne_eq, Span.mk.injEq]
  by_cases hstart : start = start'
  · by_cases hstop : stop = stop'
    · by_cases hrule : rule = rule' <;> simp [hstart, hstop, hrule]
    · simp [hstart, hstop]
  · simp [hstart]

theorem Diagnostic.le_transitive (d e f : Diagnostic) (hde : d.le e = true) (hef : e.le f = true) :
  d.le f = true
  := by
  rw [le_iff] at *
  exact hde.trans hef

theorem Diagnostic.le_or_le (d e : Diagnostic) :
  (d.le e || e.le d) = true
  := by
  rw [Bool.or_eq_true, le_iff, le_iff]
  exact le_total d.key e.key

/-- To bring diagnostics in order and to take those of one rule can be done in either order. -/
theorem filter_normalize (rule : String) (ds : List Diagnostic) :
  (normalize ds).filter (·.rule = rule) = normalize (ds.filter (·.rule = rule))
  := by
  rw [normalize, normalize, ← filter_mergeSort Diagnostic.le_transitive Diagnostic.le_or_le]
  apply filter_dropRepeats (List.pairwise_mergeSort Diagnostic.le_transitive Diagnostic.le_or_le ds)
  intro d e hde hed
  rw [Diagnostic.le_iff] at hde hed
  have hkey := hde.antisymm hed
  have hrule : d.rule = e.rule := by
    simp only [Diagnostic.key, EmbeddingLike.apply_eq_iff_eq, Prod.mk.injEq] at hkey
    exact hkey.2.2.1
  rw [hrule]

end Lint

/-! ### Rules and the store -/

namespace Analysis

variable {a : Analysis} {store : ViewStore}

/-- The store has been asked for nothing, or only for all views. -/
def IsAsked (a : Analysis) (store : ViewStore) : Prop := store = [] ∨ store = (a.views.run []).2

/-- All views are the same whether they were asked for before or not. -/
theorem run_views (hapart : a.outlined.branches.Apart) (hstore : a.IsAsked store) :
  a.views.run store = a.views.run []
  := by
  rcases hstore with rfl | rfl
  · rfl
  · have hall : (ViewStore.all a.outlined).run ((ViewStore.all a.outlined).run []).2
        = (ViewStore.all a.outlined).run [] :=
      ViewStore.run_collect_of_isPrefix hapart _ 0 [] (List.prefix_refl _)
    have hviews (store : ViewStore) : a.views.run store
        = (((ViewStore.all a.outlined).run store).1.map (·.2),
          ((ViewStore.all a.outlined).run store).2) := rfl
    simp only [hviews, hall]

end Analysis

namespace Lint

/-- The rule asks for nothing, or for all views once. -/
def Rule.IsSteady (rule : Rule) : Prop :=
  ∀ options a, (∃ found, rule.check options a = pure found)
    ∨ ∃ report : List View → List Finding, rule.check options a = report <$> a.views

theorem isSteady_of_mem_builtinRules {rule : Rule} (h : rule ∈ Registry.builtinRules) :
  rule.IsSteady
  := by
  simp only [Registry.builtinRules, List.mem_cons, List.not_mem_nil, or_false] at h
  intro options a
  rcases h with rfl | rfl | rfl | rfl | rfl | rfl | rfl | rfl | rfl
  · exact .inr ⟨_, rfl⟩
  · right
    apply Exists.intro
    unfold duplicateAttributes
    simp only [Analysis.walkItems, bind_assoc, pure_bind, map_eq_pure_bind]
    rfl
  · exact .inl ⟨_, rfl⟩
  · exact .inl ⟨_, rfl⟩
  · exact .inl ⟨_, rfl⟩
  · exact .inl ⟨_, rfl⟩
  · left
    unfold warningTerms
    dsimp only
    split <;> exact ⟨_, rfl⟩
  · exact .inl ⟨_, rfl⟩
  · left
    unfold tagSpacing
    dsimp only
    split <;> exact ⟨_, rfl⟩

namespace Linter

open Text

variable {a : Analysis} {store : ViewStore} {r : ActiveRule}

/-- The rules of a linter with built-in rules ask for nothing, or for all views once. -/
theorem isSteady_of_ofConfig {config : Config} {l : Linter} (h : ofConfig .builtin config = .ok l) :
  ∀ r ∈ l.rules, r.rule.IsSteady
  := by
  intro r hr
  apply isSteady_of_mem_builtinRules
  exact (Registry.mem_rules_addAll ((rules_ofConfig h).1 r hr)).resolve_right nofun

/-- A built-in rule finds the same whether views were asked for before or not. -/
theorem run_of_isAsked (hapart : a.outlined.branches.Apart) (hrule : r.rule.IsSteady)
    (hstore : a.IsAsked store) :
  ((run a r).run store).1 = ((run a r).run []).1 ∧ a.IsAsked ((run a r).run store).2
  := by
  rw [run, StateT.run_bind, StateT.run_bind]
  rcases hrule r.options a with ⟨found, hcheck⟩ | ⟨report, hcheck⟩
  · rw [hcheck]
    exact ⟨rfl, hstore⟩
  · rw [hcheck, StateT.run_map, StateT.run_map, Analysis.run_views hapart hstore]
    exact ⟨rfl, .inr rfl⟩

/-- What a rule reports is reported under its name. -/
theorem rule_of_mem_run {d : Diagnostic} (h : d ∈ ((run a r).run store).1) :
  d.rule = r.rule.name
  := by
  obtain ⟨finding, -, rfl⟩ := List.mem_map.mp h
  rfl

/-- What rules of one name report together is what each of them reports by itself. -/
theorem filter_runAll (hapart : a.outlined.branches.Apart) {rules : List ActiveRule}
    (hrules : ∀ r ∈ rules, r.rule.IsSteady) (hstore : a.IsAsked store) (name : String) :
  ((runAll a rules).run store).1.filter (·.rule = name)
    = (rules.filter (·.rule.name = name)).flatMap fun r => ((run a r).run []).1
  := by
  induction rules generalizing store with
  | nil => rfl
  | cons r rest ih =>
      rw [List.forall_mem_cons] at hrules
      obtain ⟨hfound, hnext⟩ := run_of_isAsked hapart hrules.1 hstore
      have hrun : ((runAll a (r :: rest)).run store).1
          = ((run a r).run store).1 ++ ((runAll a rest).run ((run a r).run store).2).1 := rfl
      rw [hrun, List.filter_append, ih hrules.2 hnext, hfound]
      by_cases hname : r.rule.name = name
      · rw [List.filter_cons_of_pos (by simpa using hname), List.flatMap_cons,
          List.filter_eq_self.mpr]
        intro d hd
        simpa [rule_of_mem_run hd] using hname
      · rw [List.filter_cons_of_neg (by simpa using hname), List.filter_eq_nil_iff.mpr,
          List.nil_append]
        intro d hd
        simpa [rule_of_mem_run hd] using hname

/-- The rules of one name that are on are those of the registry that the configuration leaves
on. -/
theorem filter_activate (registry : Registry) (config : Config) (name : String) :
  ((registry.rules.map (activate config)).filter (·.severity ≠ .off)).filter (·.rule.name = name)
    = ((registry.rules.filter (·.name = name)).map (activate config)).filter (·.severity ≠ .off)
  := by
  rw [List.filter_comm, List.filter_map]
  simp only [Function.comp_def, rule_activate]

/-- The rules of one name that are on depend on the configuration only by its entry for the
name. -/
theorem filter_rules {registry : Registry} {c c' : Config} {l l' : Linter}
    (hl : ofConfig registry c = .ok l) (hl' : ofConfig registry c' = .ok l') {name : String}
    (h : c.get? name = c'.get? name) :
  l.rules.filter (·.rule.name = name) = l'.rules.filter (·.rule.name = name)
  := by
  rw [(eq_of_ofConfig hl).1, (eq_of_ofConfig hl').1, filter_activate, filter_activate]
  congr 1
  apply List.map_congr_left
  intro rule hrule
  have hname : rule.name = name := by simpa using (List.mem_filter.mp hrule).2
  rw [activate, activate, hname, h]

/-- What a built-in rule reports does not depend on the other rules: two configurations with the
same settings and the same entry for the rule lead to the same diagnostics of the rule, in the same
order, in every document. -/
theorem filter_lint_eq {c c' : Config} {l l' : Linter} (hl : ofConfig .builtin c = .ok l)
    (hl' : ofConfig .builtin c' = .ok l') (hsettings : c.settings = c'.settings) {name : String}
    (hname : c.get? name = c'.get? name) (document : Text) :
  (l.lint document).filter (·.rule = name) = (l'.lint document).filter (·.rule = name)
  := by
  have hsteady {c : Config} {l : Linter} (hl : ofConfig .builtin c = .ok l) :
      ∀ r ∈ l.rules, r.rule.IsSteady := fun r hr =>
    isSteady_of_mem_builtinRules <|
      (Registry.mem_rules_addAll ((rules_ofConfig hl).1 r hr)).resolve_right (by
        simp [Registry.rules])
  have hsame : l.settings = l'.settings := by
    have hof := (rules_ofConfig hl).2
    rw [hsettings, (rules_ofConfig hl').2] at hof
    exact (Except.ok.inj hof).symm
  have hapart := Analysis.apart_branches l'.settings document
  rw [lint_eq, lint_eq, filter_normalize, filter_normalize, found, found, hsame,
    filter_runAll hapart (hsteady hl) (.inl rfl), filter_runAll hapart (hsteady hl') (.inl rfl),
    filter_rules hl hl' hname]

/-- A configuration in which the rule for repeated attributes is off. -/
def withoutDuplicates : Config := { rules := [(duplicateAttributes.name, .severity .off)] }

/-- A document with an element that is not closed in one of its branches. -/
def unclosed : Text := ofString "<% if (a) \x7b %><p><% \x7d %></p><p>"

theorem filter_lint_eq_sample :
  ∃ l l', ofConfig .builtin {} = .ok l ∧ ofConfig .builtin withoutDuplicates = .ok l'
    ∧ ({} : Config).settings = withoutDuplicates.settings
    ∧ ({} : Config).get? endTagMatch.name = withoutDuplicates.get? endTagMatch.name
    ∧ l.enabled ≠ l'.enabled
    ∧ (l.lint unclosed).filter (·.rule = endTagMatch.name)
      = (l'.lint unclosed).filter (·.rule = endTagMatch.name)
  := by
  have hboth : ((ofConfig .builtin {}).toOption.map fun l => l.enabled.length) = some 7
      ∧ ((ofConfig .builtin withoutDuplicates).toOption.map fun l => l.enabled.length)
        = some 6 := by
    decide +kernel
  obtain ⟨l, hl, hlength⟩ := Option.map_eq_some_iff.mp hboth.1
  obtain ⟨l', hl', hlength'⟩ := Option.map_eq_some_iff.mp hboth.2
  have hl := Analysis.eq_ok_of_toOption hl
  have hl' := Analysis.eq_ok_of_toOption hl'
  have hname : ({} : Config).get? endTagMatch.name = withoutDuplicates.get? endTagMatch.name := rfl
  refine ⟨l, l', hl, hl', rfl, hname, fun h => ?_, filter_lint_eq hl hl' rfl hname _⟩
  rw [h, hlength'] at hlength
  cases hlength

end Linter

end Lint

end Stencil
