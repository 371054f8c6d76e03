import Stencil.Proofs.Analysis.Looks
import Stencil.Proofs.Branch.Boundaries

/-!
# What a walk through several views passes over

A walk through the views of a document passes over what looks like something it has met before, with
all that is in it.  While the walk is in a part, not all that is in it was met, but nothing in a
part can look like this part.  So nothing is lost if what looks the same is the same: all that a
visitor is not told of looks like something that it was told of.
-/

namespace Stencil

open Text

namespace Outline

variable {α σ : Type}

/-- Takes the steps on a stack, if their number does not exceed the budget. -/
def runWithin (v : Visitor α σ) : Nat → List (Step α) → σ → Option (Bool × σ)
  | 0, _, _ => none
  | _ + 1, [], s => some (true, s)
  | budget + 1, .leave a parent :: rest, s => runWithin v budget rest (v.leave a parent s)
  | budget + 1, .enter (.node a below) parent :: rest, s =>
    match v.enter a parent s with
    | (.stop, s) => some (false, s)
    | (.skip, s) => runWithin v budget (.leave a parent :: rest) s
    | (.continue, s) => runWithin v budget (enterAll (some a) below ++ .leave a parent :: rest) s

theorem run_of_runWithin {v : Visitor α σ} {budget : Nat} {steps : List (Step α)} {s : σ}
    {r : Bool × σ} (h : runWithin v budget steps s = some r) :
  run v steps s = r
  := by
  fun_induction runWithin v budget steps s with
  | case1 => cases h
  | case2 =>
      rw [run]
      exact Option.some.inj h
  | case3 s budget a parent rest ih =>
      rw [run]
      exact ih h
  | case4 s budget a below parent rest s' henter =>
      rw [run, henter]
      exact Option.some.inj h
  | case5 s budget a below parent rest s' henter ih =>
      rw [run, henter]
      exact ih h
  | case6 s budget a below parent rest s' henter ih =>
      rw [run, henter]
      exact ih h

end Outline

namespace Analysis

open Markup

variable {β σ : Type}

/-! ### The course of a walk -/

/-- What is so of the appearances that were met: each is one of the given ones, or all that is in
the parts that look like this was met as well. -/
def Covers (views : List View) (inside seen : List Appearance) : Prop :=
  ∀ a ∈ seen, a ∈ inside ∨ ∀ v ∈ views, ∀ p, Occurs v p → appearance v p.item = a →
    looks v p ⊆ seen

/-- A part of a walk was completed and met the given appearances. -/
structure Met (views : List View) (inside shown : List Appearance) (s : Sighting σ)
    (c : Course Item (Sighting σ)) : Prop where
  completed : c.isCompleted = true
  covers : Covers views inside c.state.seen
  grows : s.seen ⊆ c.state.seen
  shown : shown ⊆ c.state.seen

variable {views : List View} {inside shown shown' : List Appearance} {s : Sighting σ}

theorem Met.andThen {c : Course Item (Sighting σ)} {next : Sighting σ → Course Item (Sighting σ)}
    (hc : Met views inside shown s c)
    (hnext : Met views inside shown' c.state (next c.state)) :
  Met views inside (shown ++ shown') s (c.andThen next)
  := by
  rw [Course.andThen, if_pos hc.completed]
  refine ⟨hnext.completed, hnext.covers, List.Subset.trans hc.grows hnext.grows, ?_⟩
  exact List.append_subset.mpr ⟨List.Subset.trans hc.shown hnext.grows, hnext.shown⟩

theorem met_inTurn {course : β → Sighting σ → Course Item (Sighting σ)}
    {shown : β → List Appearance} {l : List β}
    (h : ∀ b ∈ l, ∀ s : Sighting σ, Covers views inside s.seen →
      Met views inside (shown b) s (course b s)) (hs : Covers views inside s.seen) :
  Met views inside (l.flatMap shown) s (Course.inTurn course l s)
  := by
  induction l generalizing s with
  | nil => exact ⟨rfl, hs, List.Subset.refl _, List.nil_subset _⟩
  | cons b l ih =>
      rw [List.forall_mem_cons] at h
      have hb := h.1 s hs
      exact hb.andThen (ih h.2 hb.covers)

section Walk

variable {v : ItemVisitor σ} (hv : ∀ i parent view s, (v.enter i parent view s).1 = .continue)

include hv

/-- A walk that enters an item meets all that is in it. -/
theorem met_within {view : View} {i : Item} {parent : Option Item}
    {course : Sighting σ → Course Item (Sighting σ)} {below : List Appearance}
    (hnew : appearance view i ∉ s.seen)
    (hbelow : ∀ own, Met views (appearance view i :: inside) below
      ⟨appearance view i :: s.seen, true :: s.told, own⟩
      (course ⟨appearance view i :: s.seen, true :: s.told, own⟩))
    (hsame : ∀ w ∈ views, ∀ q, Occurs w q → appearance w q.item = appearance view i →
      looks w q = appearance view i :: below) :
  Met views inside (appearance view i :: below) s
    (Course.within (onceVisitor v view) i parent course s)
  := by
  obtain ⟨hcompleted, hcovers, hgrows, hshown⟩ := hbelow (v.enter i parent view s.own).2
  have hseen : (Course.within (onceVisitor v view) i parent course s).isCompleted = true
      ∧ (Course.within (onceVisitor v view) i parent course s).state.seen
        = (course ⟨appearance view i :: s.seen, true :: s.told,
          (v.enter i parent view s.own).2⟩).state.seen := by
    rw [Course.within, enter_onceVisitor_of_notMem v parent hnew, hv]
    simp [Course.andThen, Course.leave, hcompleted, onceVisitor]
  obtain ⟨hdone, hseen⟩ := hseen
  have hitem := hgrows List.mem_cons_self
  have hall := List.cons_subset.mpr ⟨hitem, hshown⟩
  rw [← hseen] at hcovers hgrows hall
  refine ⟨hdone, ?_, List.Subset.trans (List.subset_cons_self _ _) hgrows, hall⟩
  intro a ha
  rcases hcovers a ha with h | h
  · rcases List.mem_cons.mp h with rfl | h
    · right
      intro w hw q hq hlook
      rw [hsame w hw q hq hlook]
      exact hall
    · exact Or.inl h
  · exact Or.inr h

/-- A walk in a part meets all that is in it, while the parts around it have more in them. -/
theorem met_course (hsettled : LooksSettled views) {view : View} (hview : view ∈ views) {p : Part}
    (hp : Occurs view p)
    (hinside : ∀ a ∈ inside, ∀ w ∈ views, ∀ q, Occurs w q → appearance w q.item = a →
      (looks view p).length < (looks w q).length)
    (parent : Option Item) (hs : Covers views inside s.seen) :
  Met views inside (looks view p) s
    (Part.anatomy.course visitorKeys (onceVisitor v view) p parent s)
  := by
  induction p using Part.anatomy.inductionOnParts visitorKeys generalizing inside parent s with
  | step p ih =>
      have hsame (w : View) (hw : w ∈ views) (q : Part) (hq : Occurs w q)
          (hlook : appearance w q.item = appearance view p.item) : looks w q = looks view p :=
        hsettled w hw view hview q p hq hp hlook
      by_cases hseen : appearance view p.item ∈ s.seen
      · have hvalue : Part.anatomy.value p = p.item := rfl
        rw [Anatomy.course, Course.within, hvalue, enter_onceVisitor_of_mem v parent hseen]
        refine ⟨rfl, hs, List.Subset.refl _, ?_⟩
        rcases hs _ hseen with h | h
        · exact absurd (hinside _ h view hview p hp rfl) (Nat.lt_irrefl _)
        · exact h view hview p hp rfl
      · have hattach := List.attach_map_subtype_val (Part.anatomy.parts visitorKeys p)
        have hlooks := looks_eq view p
        rw [← hattach, List.flatMap_map] at hlooks
        rw [Anatomy.course, hlooks]
        apply met_within hv hseen
        · intro own
          apply met_inTurn
          · intro m _ s hs
            refine ih m.1 m.2 (.part hp m.2) ?_ (some p.item) hs
            -- What is met now has less in it than the part that is entered.
            intro a ha w hw q hq hlook
            have hless := length_looks_lt view m.2
            rcases List.mem_cons.mp ha with rfl | ha
            · rwa [hsame w hw q hq hlook]
            · exact Nat.lt_trans hless (hinside a ha w hw q hq hlook)
          · intro a ha
            rcases List.mem_cons.mp ha with rfl | ha
            · exact Or.inl List.mem_cons_self
            · apply (hs a ha).imp (List.mem_cons_of_mem _)
              intro hclosed w hw q hq hlook
              exact List.subset_cons_of_subset _ (hclosed w hw q hq hlook)
        · intro w hw q hq hlook
          rw [hsame w hw q hq hlook, hlooks]

/-- A walk through the views meets all that is in them. -/
theorem exists_walkViews (hsettled : LooksSettled views) {later : List View}
    (hlater : later ⊆ views) {seen : List Appearance} {own : List ItemCall × σ} {met : List Sight}
    (hsound : Sighting.Sound ⟨seen, [], own⟩ [] met) (hseen : Covers views [] seen) :
  ∃ s met', walkViews v.recording later seen own = (true, s.own) ∧ Sighting.Sound s [] met'
    ∧ seen ⊆ s.seen ∧ ∀ x ∈ sights later, x.appearance ∈ s.seen
  := by
  have hrecording (i : Item) (parent : Option Item) (view : View) (s : List ItemCall × σ) :
      (v.recording.enter i parent view s).1 = .continue := hv i parent view s.2
  induction later generalizing seen own met with
  | nil => exact ⟨_, met, rfl, hsound, List.Subset.refl _, by simp [sights]⟩
  | cons view rest ih =>
      have hview := hlater List.mem_cons_self
      have hcourse := reaches_course Part.anatomy visitorKeys v view (.document view.markup)
        (Takes.top view _) rfl hsound
      have hmet := met_course hrecording hsettled hview .top (by simp) none
        (s := ⟨seen, [], own⟩) hseen
      have hwalk : (Part.anatomy.outline visitorKeys (Part.document view.markup)).walk _ _ = _ :=
        Anatomy.walk_outline (onceVisitor v.recording view) (Part.document view.markup)
          ⟨seen, [], own⟩
      rw [hmet.completed, ← Document.outline_eq] at hwalk
      cases hcourse with
      | stopped h =>
          rw [hmet.completed] at h
          cases h
      | completed _ _ hs =>
          obtain ⟨s, met', hrest, hsound', hgrows, hshown⟩ :=
            ih (List.subset_of_cons_subset hlater) ⟨hs.follows, hs.seen_eq, hs.nodup, hs.sublist⟩
              hmet.covers
          refine ⟨s, met', ?_, hsound', List.Subset.trans hmet.grows hgrows, ?_⟩
          · rw [walkViews, hwalk]
            exact hrest
          · rw [sights, List.flatMap_cons]
            intro x hx
            rcases List.mem_append.mp hx with hx | hx
            · obtain ⟨y, hy, rfl⟩ := List.mem_map.mp hx
              apply hgrows
              apply hmet.shown
              rw [looks, ← Document.outline_eq]
              exact List.mem_map_of_mem (List.mem_map_of_mem hy)
            · exact hshown x hx

end Walk

/-- A walk through several views loses nothing: whatever is in them looks like something that the
visitor is told of, and what looks the same is the same. -/
structure LosesNothing (views : List View) (calls : List ItemCall) : Prop where
  exists_entered : ∀ x ∈ sights views, ∃ e ∈ entered calls, e.appearance = x.appearance
  outline_eq : ∀ v ∈ views, ∀ w ∈ views, ∀ p q, Occurs v p → Occurs w q →
    appearance v p.item = appearance w q.item →
      Part.anatomy.outline visitorKeys p = Part.anatomy.outline visitorKeys q

theorem run_walkItems (a : Analysis) (v : ItemVisitor σ) (own : σ) (store : ViewStore) :
  (a.walkItems v own).run store
    = (walkViews v (a.views.run store).1 [] own, (a.views.run store).2)
  := rfl

/-- A walk through the items of the views of a document loses nothing if the visitor always goes on
and the views are uniform. -/
theorem losesNothing_walkItems (a : Analysis) {v : ItemVisitor σ} (own : σ) (store : ViewStore)
    (hv : ∀ i parent view s, (v.enter i parent view s).1 = .continue)
    (huniform : IsUniform (a.views.run store).1) :
  ∃ calls own' store',
    (a.walkItems v own).run store = ((true, own'), store')
    ∧ (a.walkItems v.recording ([], own)).run store = ((true, calls, own'), store')
    ∧ LosesNothing (a.views.run store).1 calls
  := by
  simp only [run_walkItems]
  generalize (a.views.run store).1 = views at huniform ⊢
  have hsettled : LooksSettled views := fun v hv w hw p q hp hq hlook =>
    (huniform.outline_eq hv hw hp hq hlook).2
  have hempty : Sighting.Sound ⟨[], [], [], own⟩ [] [] := ⟨.nil, rfl, .nil, .refl []⟩
  obtain ⟨s, met, hrun, hsound, -, hshown⟩ :=
    exists_walkViews hv hsettled (List.Subset.refl views) hempty (by simp [Covers])
  have hrecording := walkViews_recording v views [] ([], own)
  rw [hrun] at hrecording
  refine ⟨s.own.1, s.own.2, _, by rw [hrecording], by rw [hrun], ?_, ?_⟩
  · intro x hx
    have hmem := hshown x hx
    rw [hsound.seen_eq, List.mem_reverse] at hmem
    obtain ⟨e, he, hlook⟩ := List.mem_map.mp hmem
    exact ⟨e, he, hlook⟩
  · exact fun v hv w hw p q hp hq hlook => (huniform.outline_eq hv hw hp hq hlook).1

/-! ### The same markup in the branches of a document -/

/-- A visitor that counts the items that it is told of. -/
def counting : ItemVisitor Nat where
  enter _ _ _ n := (.continue, n + 1)
  leave _ _ _ n := n

/-- A document whose branches put the same markup into an image and into a formula. -/
def svgOrMath : Text :=
  ofString "<% if (a) \x7b %><svg><% \x7d else \x7b %><math><% \x7d %><i><b/>x</i>"

/-- Both branches are foreign content. -/
theorem losesNothing_walkItems_sample :
  ∃ settings, Settings.ofConfig {} = .ok settings
    ∧ (∀ i parent view s, (counting.enter i parent view s).1 = .continue)
    ∧ IsUniform ((ofDocument readProgram settings svgOrMath).views.run []).1
    ∧ ∃ calls own' store',
      ((ofDocument readProgram settings svgOrMath).walkItems counting 0).run []
        = ((true, own'), store')
      ∧ ((ofDocument readProgram settings svgOrMath).walkItems counting.recording ([], 0)).run []
        = ((true, calls, own'), store')
      ∧ LosesNothing ((ofDocument readProgram settings svgOrMath).views.run []).1 calls
  := by
  have hknown : ((outlinedWithin 8 {} svgOrMath).map fun o =>
      decide (IsUniform (((ViewStore.all o).run []).1.map (·.2)))) = some true := by
    decide +kernel
  obtain ⟨o, ho, huniform⟩ := Option.map_eq_some_iff.mp hknown
  obtain ⟨settings, hsettings, rfl⟩ := of_outlinedWithin ho
  have huniform : IsUniform ((ofDocument readProgram settings svgOrMath).views.run []).1 :=
    of_decide_eq_true huniform
  exact ⟨settings, hsettings, fun _ _ _ _ => rfl, huniform,
    losesNothing_walkItems _ 0 [] (fun _ _ _ _ => rfl) huniform⟩

/-- A document whose branches put the same markup into foreign content and into other content. -/
def svgOrQuote : Text :=
  ofString "<% if (a) \x7b %><svg><% \x7d else \x7b %><q><% \x7d %><i><b/>x</i>"

/-- The views of this document. -/
def svgOrQuoteViews : List View :=
  [⟨ofString "/*          */<svg>                        <i><b/>x</i>", [⟨29, 40⟩]⟩,
    ⟨ofString "                                 <q>/*   */<i><b/>x</i>", [⟨10, 23⟩]⟩]

/-- Walks through several views, if this takes no more steps in each than the budget. -/
def walkViewsWithin (budget : Nat) (v : ItemVisitor σ) :
    List View → List Appearance → σ → Option (Bool × σ)
  | [], _, own => some (true, own)
  | view :: rest, seen, own => do
    let (completed, s) ← Outline.runWithin (onceVisitor v view) budget
      [.enter (view.markup.outline visitorKeys) none] ⟨seen, [], own⟩
    if completed then walkViewsWithin budget v rest s.seen s.own else some (false, s.own)

theorem walkViews_of_walkViewsWithin {budget : Nat} {v : ItemVisitor σ} {views : List View}
    {seen : List Appearance} {own : σ} {r : Bool × σ}
    (h : walkViewsWithin budget v views seen own = some r) :
  walkViews v views seen own = r
  := by
  induction views generalizing seen own with
  | nil => exact Option.some.inj h
  | cons view rest ih =>
      rw [walkViewsWithin, Option.bind_eq_bind, Option.bind_eq_some_iff] at h
      obtain ⟨⟨completed, s⟩, hrun, h⟩ := h
      rw [walkViews, Outline.walk, Outline.run_of_runWithin hrun]
      cases completed with
      | true => exact ih h
      | false => exact Option.some.inj h

/-- The element from 43 to 55 looks the same in both views.  In the second one, a slash does not
close the start tag from 46 to 50, and the element from 46 to 51 is lost. -/
theorem lost_in_other_content :
  ∃ settings, Settings.ofConfig {} = .ok settings
    ∧ ∃ calls own store,
      ((ofDocument readProgram settings svgOrQuote).walkItems counting.recording ([], 0)).run []
        = ((true, calls, own), store)
      ∧ ∃ x ∈ sights ((ofDocument readProgram settings svgOrQuote).views.run []).1,
        ∀ e ∈ entered calls, e.appearance ≠ x.appearance
  := by
  have houtlined : ((outlinedWithin 8 {} svgOrQuote).map fun o =>
      ((ViewStore.all o).run []).1.map (·.2)) = some svgOrQuoteViews := by
    decide +kernel
  have hwalk : ((walkViewsWithin 32 counting.recording svgOrQuoteViews [] ([], 0)).map fun r =>
      decide (r.1 = true ∧ ∃ x ∈ sights svgOrQuoteViews,
        ∀ e ∈ entered r.2.1, e.appearance ≠ x.appearance)) = some true := by
    decide +kernel
  obtain ⟨o, ho, hviews⟩ := Option.map_eq_some_iff.mp houtlined
  obtain ⟨settings, hsettings, rfl⟩ := of_outlinedWithin ho
  obtain ⟨⟨completed, calls, own⟩, hrun, hlost⟩ := Option.map_eq_some_iff.mp hwalk
  obtain ⟨rfl, hlost⟩ := of_decide_eq_true hlost
  replace hviews : ((ofDocument readProgram settings svgOrQuote).views.run []).1
      = svgOrQuoteViews := hviews
  refine ⟨settings, hsettings, calls, own,
    ((ofDocument readProgram settings svgOrQuote).views.run []).2, ?_, ?_⟩
  · rw [run_walkItems, hviews, walkViews_of_walkViewsWithin hrun]
  · rw [hviews]
    exact hlost

end Analysis

end Stencil
