import Mathlib.Data.List.Nodup
import Stencil.Analysis
import Stencil.Proofs.Script.Nesting
import Stencil.Proofs.Walk

/-!
# What a visitor of items is told

A walk through the items of a document goes through one view after the other and passes over what
looks like something it has met before.  The visitor sees none of this: whatever it answers, it is
told of a node only while the node above it is open, it leaves the nodes that it has entered in the
opposite order, and what it is told last is where it stops the walk.  A stack of the nodes that are
open follows the calls, and the list of what was met is the list of what was entered.
-/

namespace Stencil

namespace Analysis

open Markup

variable {β σ : Type}

/-! ### Calls -/

/-- A call of a visitor of items, with the view that it is told. -/
abbrev ItemCall := View × Call Item

/-- The visitor that also writes down its calls. -/
def ItemVisitor.recording (v : ItemVisitor σ) : ItemVisitor (List ItemCall × σ) where
  enter i parent view s :=
    let (answer, own) := v.enter i parent view s.2
    (answer, s.1 ++ [(view, .enter i parent answer)], own)
  leave i parent view s := (s.1 ++ [(view, .leave i parent)], v.leave i parent view s.2)

/-- An item as a visitor is told of it: with the item above it and with the view. -/
structure Sight where
  view : View
  item : Item
  parent : Option Item

/-- What an item looks like that a visitor is told of. -/
def Sight.appearance (s : Sight) : Appearance := Analysis.appearance s.view s.item

/-- The item that a call enters. -/
def enteredBy? : ItemCall → Option Sight
  | (view, .enter i parent _) => some ⟨view, i, parent⟩
  | (_, .leave _ _) => none

/-- The item that a call leaves. -/
def leftBy? : ItemCall → Option Sight
  | (_, .enter _ _ _) => none
  | (view, .leave i parent) => some ⟨view, i, parent⟩

/-- The items that are entered, in order. -/
def entered (calls : List ItemCall) : List Sight := calls.filterMap enteredBy?

/-- The items that are left, in order. -/
def left (calls : List ItemCall) : List Sight := calls.filterMap leftBy?

/-- The items of several views, in the order in which a walk comes to them. -/
def sights (views : List View) : List Sight :=
  views.flatMap fun view =>
    ((view.markup.outline visitorKeys).withParents none).map fun x => ⟨view, x.1, x.2⟩

/-! ### Nesting -/

/-- The items that were entered and not left yet, the innermost one first, with the answers that
the visitor gave on entering them. -/
abbrev Opened := List (Sight × Action)

/-- What a call does to the items that are open.  The top of a tree is entered if nothing is open.
Below that, an item is entered if the innermost open item is the one above it, is of the same view
and was answered by going on.  Only the innermost open item is left, unless the visitor stopped the
walk there. -/
inductive Takes : Opened → ItemCall → Opened → Prop where
  | top (view : View) (i : Item) (answer : Action) :
    Takes [] (view, .enter i none answer) [(⟨view, i, none⟩, answer)]
  | part (outer : Sight) (rest : Opened) (i : Item) (answer : Action) :
    Takes ((outer, .continue) :: rest) (outer.view, .enter i (some outer.item) answer)
      ((⟨outer.view, i, some outer.item⟩, answer) :: (outer, .continue) :: rest)
  | leave (s : Sight) (answer : Action) (rest : Opened) (h : answer ≠ .stop) :
    Takes ((s, answer) :: rest) (s.view, .leave s.item s.parent) rest

/-- The calls can be made one after the other, and the given items are open after them. -/
inductive Follows : List ItemCall → Opened → Prop where
  | nil : Follows [] []
  | snoc {calls : List ItemCall} {call : ItemCall} {opened opened' : Opened}
    (h : Follows calls opened) (hcall : Takes opened call opened') :
    Follows (calls ++ [call]) opened'

theorem entered_concat (calls : List ItemCall) (call : ItemCall) :
  entered (calls ++ [call]) = entered calls ++ (enteredBy? call).toList
  := by cases h : enteredBy? call <;> simp [entered, h]

theorem left_concat (calls : List ItemCall) (call : ItemCall) :
  left (calls ++ [call]) = left calls ++ (leftBy? call).toList
  := by cases h : leftBy? call <;> simp [left, h]

/-- Every item that was entered was left once or is open. -/
theorem Follows.perm {calls : List ItemCall} {opened : Opened} (h : Follows calls opened) :
  (left calls ++ opened.map Prod.fst).Perm (entered calls)
  := by
  induction h with
  | nil => rfl
  | snoc _ hcall ih =>
      rw [entered_concat, left_concat]
      cases hcall with
      | top view i answer =>
          simp only [List.map_nil, List.append_nil] at ih
          simp only [enteredBy?, leftBy?, Option.toList_none, Option.toList_some,
            List.append_nil, List.map_cons, List.map_nil]
          exact ih.append_right _
      | part outer rest i answer =>
          simp only [enteredBy?, leftBy?, Option.toList_none, Option.toList_some,
            List.append_nil, List.map_cons]
          apply List.perm_middle.trans
          apply (ih.cons _).trans
          exact (List.perm_append_singleton _ _).symm
      | leave s answer rest hanswer => simpa [enteredBy?, leftBy?] using ih

/-- The visitor went on at every open item but the innermost one. -/
theorem Follows.eq_continue {calls : List ItemCall} {opened : Opened} (h : Follows calls opened) :
  ∀ x ∈ opened.tail, x.2 = .continue
  := by
  induction h with
  | nil => simp
  | snoc _ hcall ih =>
      cases hcall with
      | top => simp
      | part outer rest i answer => simpa using ih
      | leave s answer rest hanswer => exact fun x hx => ih x (List.mem_of_mem_tail hx)

/-- The visitor stopped the walk at the innermost open item. -/
def Opened.IsStopped (opened : Opened) : Prop := ∃ s, opened.head? = some (s, Action.stop)

/-- Nothing is called once the walk was stopped. -/
theorem Takes.not_isStopped {opened opened' : Opened} {call : ItemCall}
    (h : Takes opened call opened') :
  ¬opened.IsStopped
  := by
  rintro ⟨s, hs⟩
  cases h with
  | top => simp at hs
  | part => simp at hs
  | leave s' answer rest hanswer =>
      simp only [List.head?_cons, Option.some.injEq, Prod.mk.injEq] at hs
      exact hanswer hs.2

/-- The walk was stopped if and only if the visitor says so in one of the calls. -/
theorem Follows.isStopped_iff {calls : List ItemCall} {opened : Opened} (h : Follows calls opened) :
  opened.IsStopped ↔ ∃ call ∈ calls, call.2.IsStop
  := by
  induction h with
  | nil => simp [Opened.IsStopped]
  | snoc h hcall ih =>
      have hbefore := mt ih.mpr hcall.not_isStopped
      simp only [List.mem_append, List.mem_singleton, or_and_right, exists_or, hbefore, false_or,
        exists_eq_left]
      have hbelow := h.eq_continue
      cases hcall with
      | top => simp [Opened.IsStopped, Call.IsStop]
      | part => simp [Opened.IsStopped, Call.IsStop]
      | leave s answer rest hanswer =>
          simp only [Opened.IsStopped, Call.IsStop, reduceCtorEq, exists_false, iff_false]
          rintro ⟨s', hs'⟩
          have := hbelow _ (List.mem_of_mem_head? hs')
          cases this

/-- Only the last call can stop a walk. -/
theorem Follows.not_isStop_of_mem_dropLast {calls : List ItemCall} {opened : Opened}
    (h : Follows calls opened) :
  ∀ call ∈ calls.dropLast, ¬call.2.IsStop
  := by
  cases h with
  | nil => simp
  | snoc h hcall =>
      rw [List.dropLast_concat]
      intro call hmem hstop
      exact hcall.not_isStopped (h.isStopped_iff.mpr ⟨call, hmem, hstop⟩)

/-! ### One view -/

/-- What is so between the calls for a view: the calls were made in turn, they entered what was met,
no appearance twice, and only what the walk came to. -/
structure Sighting.Sound (s : Sighting (List ItemCall × σ)) (opened : Opened) (met : List Sight) :
    Prop where
  follows : Follows s.own.1 opened
  seen_eq : s.seen = ((entered s.own.1).map Sight.appearance).reverse
  nodup : s.seen.Nodup
  sublist : (entered s.own.1).Sublist met

theorem Sighting.Sound.append {s : Sighting (List ItemCall × σ)} {opened : Opened}
    {met : List Sight} (h : s.Sound opened met) (more : List Sight) :
  s.Sound opened (met ++ more)
  := { h with sublist := h.sublist.trans (List.sublist_append_left met more) }

/-- What a part of a walk leads to: at its end the given items are open, the walk came to the given
items, and it is known of each open item whether the visitor was told of it; or else the visitor
stopped it on the way. -/
inductive Reaches (told : List Bool) (opened : Opened) (met : List Sight) :
    Course Item (Sighting (List ItemCall × σ)) → Prop where
  | completed {c : Course Item (Sighting (List ItemCall × σ))} (h : c.isCompleted = true)
      (htold : c.state.told = told) (hsound : c.state.Sound opened met) : Reaches told opened met c
  | stopped {c : Course Item (Sighting (List ItemCall × σ))} {opened' : Opened}
      (h : c.isCompleted = false) (hstop : opened'.IsStopped) (hsound : c.state.Sound opened' met) :
    Reaches told opened met c

variable {told told' : List Bool} {opened opened' : Opened} {met more : List Sight}

theorem Reaches.andThen {c : Course Item (Sighting (List ItemCall × σ))}
    {next : Sighting (List ItemCall × σ) → Course Item (Sighting (List ItemCall × σ))}
    (hc : Reaches told opened met c)
    (hnext : ∀ s, s.told = told → s.Sound opened met →
      Reaches told' opened' (met ++ more) (next s)) :
  Reaches told' opened' (met ++ more) (c.andThen next)
  := by
  rw [Course.andThen]
  cases hc with
  | completed h htold hsound =>
      rw [if_pos h]
      cases hnext c.state htold hsound with
      | completed h' htold' hsound' => exact .completed h' htold' hsound'
      | stopped h' hstop' hsound' => exact .stopped h' hstop' hsound'
  | stopped h hstop hsound =>
      rw [if_neg (by simp [h])]
      exact .stopped h hstop (hsound.append more)

/-- What is visited in turn, from one open item. -/
theorem reaches_inTurn {course : β → Sighting (List ItemCall × σ) →
      Course Item (Sighting (List ItemCall × σ))} {shown : β → List Sight} {l : List β}
    (h : ∀ b ∈ l, ∀ met s, s.told = told → s.Sound opened met →
      Reaches told opened (met ++ shown b) (course b s))
    {s : Sighting (List ItemCall × σ)} (htold : s.told = told) (hsound : s.Sound opened met) :
  Reaches told opened (met ++ l.flatMap shown) (Course.inTurn course l s)
  := by
  induction l generalizing met s with
  | nil => exact .completed rfl htold (hsound.append [])
  | cons b l ih =>
      rw [List.forall_mem_cons] at h
      rw [Course.inTurn, List.flatMap_cons, ← List.append_assoc]
      apply (h.1 met s htold hsound).andThen
      intro s' htold' hsound'
      exact ih h.2 htold' hsound'

/-- The visitor of one view leaves an item that the visitor was told of. -/
theorem reaches_leave (v : ItemVisitor σ) {view : View} {i : Item} {parent : Option Item}
    {answer : Action} (hanswer : answer ≠ .stop) {s : Sighting (List ItemCall × σ)}
    (htold : s.told = true :: told)
    (hsound : s.Sound ((⟨view, i, parent⟩, answer) :: opened) met) :
  Reaches told opened (met ++ []) (Course.leave (onceVisitor v.recording view) i parent s)
  := by
  have hcall := Takes.leave ⟨view, i, parent⟩ answer opened hanswer
  have hentered : entered (s.own.1 ++ [(view, .leave i parent)]) = entered s.own.1 := by
    simp [entered_concat, enteredBy?]
  refine .completed rfl ?_ ?_
  · simp [Course.leave, onceVisitor, htold]
  · rw [List.append_nil]
    simp only [Course.leave, onceVisitor, ItemVisitor.recording, htold, List.head?_cons,
      ↓reduceIte]
    constructor
    · exact hsound.follows.snoc hcall
    · rw [hentered]
      exact hsound.seen_eq
    · exact hsound.nodup
    · rw [hentered]
      exact hsound.sublist

/-- The visitor of one view passes over an item that looks like something it has met. -/
theorem enter_onceVisitor_of_mem (v : ItemVisitor σ) {view : View} {i : Item}
    (parent : Option Item) {s : Sighting σ} (h : appearance view i ∈ s.seen) :
  (onceVisitor v view).enter i parent s = (.skip, { s with told := false :: s.told })
  := if_pos (List.contains_iff_mem.mpr h)

/-- The visitor of one view enters an item that looks like nothing it has met. -/
theorem enter_onceVisitor_of_notMem (v : ItemVisitor σ) {view : View} {i : Item}
    (parent : Option Item) {s : Sighting σ} (h : appearance view i ∉ s.seen) :
  (onceVisitor v view).enter i parent s
    = ((v.enter i parent view s.own).1,
      ⟨appearance view i :: s.seen, true :: s.told, (v.enter i parent view s.own).2⟩)
  := if_neg (mt List.contains_iff_mem.mp h)

/-- What is so after entering an item that looks like nothing met before. -/
theorem Sighting.Sound.enter {s : Sighting (List ItemCall × σ)} (hsound : s.Sound opened met)
    {view : View} {i : Item} {parent : Option Item} {answer : Action}
    (hnew : appearance view i ∉ s.seen)
    (htakes : Takes opened (view, .enter i parent answer) opened') (own : σ) (told : List Bool) :
  Sighting.Sound ⟨appearance view i :: s.seen, told,
    s.own.1 ++ [(view, .enter i parent answer)], own⟩ opened' (met ++ [⟨view, i, parent⟩])
  := by
  have hentered : entered (s.own.1 ++ [(view, .enter i parent answer)])
      = entered s.own.1 ++ [⟨view, i, parent⟩] := entered_concat _ _
  constructor
  · exact hsound.follows.snoc htakes
  · rw [hentered, hsound.seen_eq]
    simp [Sight.appearance]
  · exact List.nodup_cons.mpr ⟨hnew, hsound.nodup⟩
  · rw [hentered]
    exact hsound.sublist.append_right _

/-- A visit of an item and of what is below it, where the item may be entered. -/
theorem reaches_within (v : ItemVisitor σ) {view : View} {i : Item} {parent : Option Item}
    {inside : Sighting (List ItemCall × σ) → Course Item (Sighting (List ItemCall × σ))}
    {below : List Sight}
    (htakes : ∀ answer, Takes opened (view, .enter i parent answer)
      ((⟨view, i, parent⟩, answer) :: opened))
    (hinside : ∀ met s, s.told = true :: told →
      s.Sound ((⟨view, i, parent⟩, .continue) :: opened) met →
      Reaches (true :: told) ((⟨view, i, parent⟩, .continue) :: opened) (met ++ below) (inside s))
    {s : Sighting (List ItemCall × σ)} (htold : s.told = told) (hsound : s.Sound opened met) :
  Reaches told opened (met ++ (⟨view, i, parent⟩ :: below))
    (Course.within (onceVisitor v.recording view) i parent inside s)
  := by
  subst htold
  rw [Course.within]
  by_cases hseen : appearance view i ∈ s.seen
  · rw [enter_onceVisitor_of_mem _ parent hseen]
    exact .completed rfl rfl (hsound.append _)
  · rw [enter_onceVisitor_of_notMem _ parent hseen]
    rcases hanswer : v.enter i parent view s.own.2 with ⟨answer, own⟩
    have hentered := hsound.enter hseen (htakes answer) own (true :: s.told)
    simp only [ItemVisitor.recording, hanswer]
    have hall : met ++ (⟨view, i, parent⟩ :: below)
        = met ++ [⟨view, i, parent⟩] ++ below ++ [] := by
      simp
    rw [hall]
    cases answer with
    | stop =>
        exact .stopped rfl ⟨⟨view, i, parent⟩, rfl⟩ ((hentered.append below).append [])
    | skip =>
        refine Reaches.andThen ?_ fun s htold hsound =>
          reaches_leave v (show Action.skip ≠ .stop by decide) htold hsound
        refine Reaches.andThen (.completed rfl rfl hentered) ?_
        intro s htold hsound
        exact .completed rfl htold (hsound.append below)
    | «continue» =>
        refine Reaches.andThen ?_ fun s htold hsound =>
          reaches_leave v (show Action.continue ≠ .stop by decide) htold hsound
        refine Reaches.andThen (.completed rfl rfl hentered) ?_
        intro s htold hsound
        exact hinside _ s htold hsound

/-- A visit of a tree in a view, where its top may be entered. -/
theorem reaches_course {ν : Type} (T : Anatomy ν Item) (keys : Keys) (v : ItemVisitor σ)
    (view : View) (n : ν) {parent : Option Item} {told : List Bool} {opened : Opened}
    (htakes : ∀ answer, Takes opened (view, .enter (T.value n) parent answer)
      ((⟨view, T.value n, parent⟩, answer) :: opened))
    {met : List Sight} {s : Sighting (List ItemCall × σ)} (htold : s.told = told)
    (hsound : s.Sound opened met) :
  Reaches told opened
    (met ++ ((T.outline keys n).withParents parent).map fun x => ⟨view, x.1, x.2⟩)
    (T.course keys (onceVisitor v.recording view) n parent s)
  := by
  induction n using T.inductionOnParts keys generalizing parent told opened met s with
  | step n ih =>
      rw [Anatomy.outline_eq, Outline.withParents, Outline.withParentsAll_eq_flatMap,
        List.flatMap_map, List.map_cons, List.map_flatMap, Anatomy.course]
      have hattach := List.attach_map_subtype_val (T.parts keys n)
      rw [← hattach, List.flatMap_map, hattach]
      apply reaches_within v htakes ?_ htold hsound
      intro met s htold hsound
      apply reaches_inTurn ?_ htold hsound
      intro m _ met s htold hsound
      apply ih m.1 m.2 ?_ htold hsound
      exact Takes.part ⟨view, T.value n, parent⟩ opened (T.value m.1)

/-! ### All views -/

/-- The state without the calls that were written down. -/
def Sighting.withoutCalls (s : Sighting (List ItemCall × σ)) : Sighting σ :=
  ⟨s.seen, s.told, s.own.2⟩

/-- In one view, the visitor that also writes down its calls goes the same way as without that. -/
theorem walk_onceVisitor_recording (v : ItemVisitor σ) (view : View) (t : Outline Item)
    (s : Sighting (List ItemCall × σ)) :
  t.walk (onceVisitor v view) s.withoutCalls
    = ((t.walk (onceVisitor v.recording view) s).1,
      (t.walk (onceVisitor v.recording view) s).2.withoutCalls)
  := by
  apply Outline.run_eq_of_map
  · intro i parent s
    by_cases h : appearance view i ∈ s.seen
    · rw [enter_onceVisitor_of_mem _ parent h, enter_onceVisitor_of_mem v parent h]
      rfl
    · rw [enter_onceVisitor_of_notMem _ parent h, enter_onceVisitor_of_notMem v parent h]
      rfl
  · intro i parent s
    simp only [onceVisitor, Sighting.withoutCalls, ItemVisitor.recording]
    split <;> rfl

/-- The visitor that also writes down its calls goes the same way as without that. -/
theorem walkViews_recording (v : ItemVisitor σ) (views : List View) (seen : List Appearance)
    (own : List ItemCall × σ) :
  walkViews v views seen own.2
    = ((walkViews v.recording views seen own).1, (walkViews v.recording views seen own).2.2)
  := by
  induction views generalizing seen own with
  | nil => rfl
  | cons view rest ih =>
      have hview : (view.markup.outline visitorKeys).walk (onceVisitor v view) ⟨seen, [], own.2⟩
          = _ := walk_onceVisitor_recording v view _ ⟨seen, [], own⟩
      simp only [walkViews, hview]
      rcases (view.markup.outline visitorKeys).walk (onceVisitor v.recording view) ⟨seen, [], own⟩
        with ⟨completed, s⟩
      cases completed with
      | true => exact ih s.seen s.own
      | false => rfl

/-- After a walk through several views that follows some calls nothing is open, or else the visitor
stopped the walk. -/
theorem sound_walkViews (v : ItemVisitor σ) (views : List View) {seen : List Appearance}
    {own : List ItemCall × σ} {met : List Sight}
    (hsound : Sighting.Sound ⟨seen, [], own⟩ [] met) :
  ∃ s opened, Sighting.Sound s opened (met ++ sights views)
    ∧ s.own = (walkViews v.recording views seen own).2
    ∧ (if (walkViews v.recording views seen own).1 then opened = [] else opened.IsStopped)
  := by
  induction views generalizing seen own met with
  | nil => exact ⟨_, [], hsound.append [], rfl, rfl⟩
  | cons view rest ih =>
      have hcourse := reaches_course Part.anatomy visitorKeys v view (.document view.markup)
        (Takes.top view _) rfl hsound
      have hwalk : (Part.anatomy.outline visitorKeys (Part.document view.markup)).walk _ _ = _ :=
        Anatomy.walk_outline (onceVisitor v.recording view) (Part.document view.markup)
          ⟨seen, [], own⟩
      rw [← Document.outline_eq] at hwalk hcourse
      rw [sights, List.flatMap_cons, ← List.append_assoc]
      cases hcourse with
      | completed h htold hs =>
          rw [h] at hwalk
          rw [walkViews, hwalk]
          exact ih ⟨hs.follows, hs.seen_eq, hs.nodup, hs.sublist⟩
      | stopped h hstop hs =>
          rw [h] at hwalk
          rw [walkViews, hwalk]
          exact ⟨_, _, hs.append _, rfl, hstop⟩

/-- What a visitor of the items of several views can rely on: its calls can be made one after the
other, where nothing is open after a completed walk; in a completed walk the items that are left are
those that are entered; what is entered is what the walk comes to, in this order and with the item
that is above it in the view, without the items that are passed over; no two items that are entered
look the same; the walk is completed if and only if the visitor never stops it; and nothing is
called after that. -/
structure IsOrderly (views : List View) (completed : Bool) (calls : List ItemCall) : Prop where
  follows : ∃ opened, Follows calls opened ∧ (completed = true → opened = [])
  left_perm : completed = true → (left calls).Perm (entered calls)
  entered_sublist : (entered calls).Sublist (sights views)
  nodup_entered : ((entered calls).map Sight.appearance).Nodup
  completed_iff : completed = true ↔ ∀ call ∈ calls, ¬call.2.IsStop
  not_isStop : ∀ call ∈ calls.dropLast, ¬call.2.IsStop

/-- A walk through the items of the views of a document keeps to the order that visitors rely on,
whatever the visitor answers and whatever views were made before.  It is the walk of the visitor
that does not write down its calls. -/
theorem isOrderly_walkItems (a : Analysis) (v : ItemVisitor σ) (own : σ) (store : ViewStore) :
  ∃ completed calls own' store',
    (a.walkItems v own).run store = ((completed, own'), store')
    ∧ (a.walkItems v.recording ([], own)).run store = ((completed, calls, own'), store')
    ∧ IsOrderly (a.views.run store).1 completed calls
  := by
  rcases hviews : a.views.run store with ⟨views, store'⟩
  have hwalk {τ : Type} (w : ItemVisitor τ) (s : τ) :
      (a.walkItems w s).run store = (walkViews w views [] s, store') := by
    rw [walkItems, StateT.run_bind, hviews]
    rfl
  have hrecording := walkViews_recording v views [] ([], own)
  rcases hrun : walkViews v.recording views [] ([], own) with ⟨completed, calls, own'⟩
  rw [hrun] at hrecording
  refine ⟨completed, calls, own', store', ?_, ?_, ?_⟩
  · rw [hwalk, hrecording]
  · rw [hwalk, hrun]
  · have hempty : Sighting.Sound ⟨[], [], [], own⟩ [] [] := ⟨.nil, rfl, .nil, .refl []⟩
    obtain ⟨s, opened, hsound, hown, hopened⟩ := sound_walkViews v views hempty
    rw [hrun] at hown hopened
    have hcalls : s.own.1 = calls := congrArg Prod.fst hown
    obtain ⟨hfollows, hseen, hnodup, hsublist⟩ := hsound
    rw [hcalls] at hfollows hseen hsublist
    have hclosed (h : completed = true) : opened = [] := by simpa [h] using hopened
    constructor
    · exact ⟨opened, hfollows, hclosed⟩
    · intro h
      simpa [hclosed h] using hfollows.perm
    · exact hsublist
    · rw [hseen] at hnodup
      exact List.nodup_reverse.mp hnodup
    · cases completed with
      | true =>
          have hstop : ¬opened.IsStopped := by simp [hclosed rfl, Opened.IsStopped]
          rw [hfollows.isStopped_iff] at hstop
          simpa using hstop
      | false =>
          obtain ⟨call, hcall, hstop⟩ := hfollows.isStopped_iff.mp hopened
          simp only [Bool.false_eq_true, false_iff]
          exact fun h => h call hcall hstop
    · exact hfollows.not_isStop_of_mem_dropLast

end Analysis

end Stencil
