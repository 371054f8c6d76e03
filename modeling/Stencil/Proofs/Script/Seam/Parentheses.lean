import Stencil.Proofs.Script.Seam.Opening

/-!
# A code in parentheses and as a statement

What stands in parentheses is a list of expressions with commas between them, and so is the
expression that makes up a statement.  The first reader takes the list up to the closing
parenthesis and the second one as long as a comma follows.  If the parentheses reach over the code,
both readers come to the end of the code with the same expression.
-/

namespace Stencil.Script

open Carries (carry)

namespace Parse

variable {n : Node} {r s : Reader}

/-! ### Items with commas between them -/


/-- A step of a repetition that collects items with commas between them. -/
abbrev collectSeparated {α : Type} (close : String) (item : Parse α) (items : List α) :
    Parse (List α ⊕ (List α × Bool)) := do
  let l ← current
  if l.isMark close || l.isEnd then pure (.inr (items.reverse, false))
  else
    if !items.isEmpty then expect ","
    if !items.isEmpty && (← atMark close) then pure (.inr (items.reverse, true))
    else pure (.inl ((← item) :: items))

theorem separated_eq {α : Type} (close : String) (item : Parse α) :
  separated close item = loop (collectSeparated close item) []
  := rfl

variable {α : Type} {close : String} {item : Parse α} {r s : Reader} {all : List α}

/-- The first item, if there is one, is read where the list begins. -/
theorem collectSeparated_nil {x : List α ⊕ (List α × Bool)}
    (hrun : collectSeparated close item [] r = .ok x s) :
  x = .inr ([], false) ∧ s = r ∧ (r.lexed.lexeme.isMark close || r.lexed.lexeme.isEnd) = true
    ∨ (r.lexed.lexeme.isMark close || r.lexed.lexeme.isEnd) = false
      ∧ ∃ n, x = .inl [n] ∧ item r = .ok n s
  := by
  obtain ⟨l, m, hl, hrun⟩ := Footing.bind_eq_ok hrun
  cases hl
  split at hrun
  · next hclose =>
      cases hrun
      exact .inl ⟨rfl, rfl, hclose⟩
  · next hopen =>
      obtain ⟨_, m, hat, hrun⟩ := Footing.bind_eq_ok hrun
      cases hat
      obtain ⟨n, m, hn, hrun⟩ := Footing.bind_eq_ok hrun
      cases hrun
      exact .inr ⟨eq_false_of_ne_true hopen, n, rfl, hn⟩

/-- Each further item stands behind a comma. -/
theorem collectSeparated_cons {n : α} {items : List α} {x : List α ⊕ (List α × Bool)}
    (hrun : collectSeparated close item (n :: items) r = .ok x s) :
  x = .inr ((n :: items).reverse, false) ∧ s = r
    ∨ (∃ m, expect "," r = .ok () m
      ∧ (x = .inr ((n :: items).reverse, true)
        ∨ m.lexed.lexeme.isMark close = false ∧ ∃ k, x = .inl (k :: n :: items) ∧ item m = .ok k s))
  := by
  obtain ⟨l, m, hl, hrun⟩ := Footing.bind_eq_ok hrun
  cases hl
  split at hrun
  · cases hrun
    exact .inl ⟨rfl, rfl⟩
  · obtain ⟨_, m, hcomma, hrun⟩ := Footing.bind_eq_ok hrun
    obtain ⟨_, m', hat, hrun⟩ := Footing.bind_eq_ok hrun
    cases hat
    refine .inr ⟨m, hcomma, ?_⟩
    cases hmark : m.lexed.lexeme.isMark close <;> rw [hmark] at hrun
    · obtain ⟨k, u, hk, hrun⟩ := Footing.bind_eq_ok hrun
      cases hrun
      exact .inr ⟨rfl, k, rfl, hk⟩
    · cases hrun
      exact .inl rfl

/-- A step of a repetition that collects the nodes behind commas. -/
abbrev collectBehind (item : Parse Node) (items : List Node) : Parse (List Node ⊕ List Node) := do
  if ← eat "," then pure (.inl ((← item) :: items))
  else pure (.inr items.reverse)

/-- At another mark than a comma the nodes are complete. -/
theorem collectBehind_done {item : Parse Node} {items : List Node} {r : Reader}
    (h : r.lexed.lexeme.isMark "," = false) :
  collectBehind item items r = .ok (.inr items.reverse) r
  := by
  rw [collectBehind, Seam.eat_bind]
  change (if r.lexed.lexeme.isMark "," then _ else _ : Parse _) r = _
  rw [h]
  rfl

/-- Behind a comma stands one more node. -/
theorem collectBehind_more {item : Parse Node} {items : List Node} {n : Node} {r m s : Reader}
    (hcomma : expect "," r = .ok () m) (hn : item m = .ok n s) :
  collectBehind item items r = .ok (.inl (n :: items)) s
  := by
  obtain ⟨hmark, rfl⟩ := Seam.expect_eq_ok hcomma
  have hcomma : r.lexed.lexeme.isMark "," = true := by
    rw [hmark]
    rfl
  rw [collectBehind, Seam.eat_bind]
  change (if r.lexed.lexeme.isMark "," then _ else _ : Parse _) r = _
  rw [if_pos hcomma, Seam.bind_of_ok _ (Seam.advance_mark hmark)]
  exact Seam.bind_of_ok _ hn

end Parse

namespace Seam

variable {E : Seam} (p p' : Parse Node) [hp : ∀ t, E.Agree t p p']
  [hkeeps : (edges []).Keeps False p'] {r r' s : Reader}

/-- What is left of the second text becomes less from one comma to the next. -/
theorem length_rest_lt {u' m m' : Reader} {n : Node} (hpaired : E.Paired r r')
    (hcomma : Parse.expect "," r' = .ok () u') (hn : p' u' = .ok n m')
    (hready : E.Paired m m' ∨ E.Met m m') :
  m'.lexed.rest.length < r'.lexed.rest.length
  := by
  rcases hready with ⟨-, v, w, hreads⟩ | hmet
  · obtain ⟨-, rfl⟩ := expect_eq_ok hcomma
    obtain ⟨hshows, hafter⟩ := shows_lex r'.lexed.stop false r'.lexed.rest
    have hreaches : r'.lexed.after.Reaches m'.lexed := (grows_of_keeps hkeeps hn).lexed
    calc m'.lexed.rest.length
        < m'.lexed.here.length := by
          have htakes := hreads.takes
          rw [hreads.rest', hreads.here', List.length_append, List.length_append]
          omega
      _ ≤ r'.lexed.after.here.length := (hreaches.shows hshows).2.length_le
      _ ≤ r'.lexed.rest.length := hafter.length_le
  · obtain ⟨-, v, w, hreads⟩ := hpaired
    rw [hmet.meets.rest, hreads.rest', List.length_append]
    exact Nat.lt_add_left _ (by decide)

set_option synthInstance.maxSize 1000 in
/-- The items in parentheses, from the second one on, are the nodes behind commas in the second
text. -/
theorem goes_items {budget budget' : Text} (hbudget : r'.lexed.rest.length < budget'.length)
    {n : Node} {items all : List Node} (hready : E.Paired r r' ∨ E.Met r r')
    (hrun : Parse.loopFor budget (Parse.collectSeparated ")" p) (n :: items) r
      = .ok (all, false) s)
    (hclean : E.Clean s) (hstop : E.stop < s.lexed.stop) :
  (∃ s', Parse.loopFor budget' (Parse.collectBehind p') (carry E (n :: items)) r'
      = .ok (carry E all) s' ∧ E.Met s s')
    ∧ (all = (n :: items).reverse ∧ s = r ∨ (n :: items).length < all.length)
  := by
  have hp_loose : E.Agree false p p' := hp false
  induction budget generalizing budget' n items r r' with
  | nil => exact (unexpected_ne_ok hrun).elim
  | cons c budget ih =>
      obtain ⟨c', budget', rfl⟩ := List.exists_cons_of_length_pos (Nat.zero_lt_of_lt hbudget)
      obtain ⟨x, m, hstep, hrest⟩ := Footing.bind_eq_ok hrun
      rcases Parse.collectSeparated_cons hstep with ⟨rfl, rfl⟩ | ⟨u, hcomma, hmore⟩
      · cases hrest
        rcases hready with hpaired | hmet
        · -- a parenthesis of the code ends in the code
          obtain ⟨-, v, w, hreads⟩ := hpaired
          have hwidth := hreads.stop_add_width
          omega
        · refine ⟨⟨r', ?_, hmet⟩, .inl ⟨rfl, rfl⟩⟩
          have hcomma : r'.lexed.lexeme.isMark "," = false := by
            rw [hmet.meets.lexeme]
            rfl
          rw [Parse.loopFor, bind_of_ok _ (Parse.collectBehind_done hcomma)]
          change EStateM.Result.ok _ r' = .ok (List.map _ (List.reverse _)) r'
          rw [List.map_reverse]
          rfl
      · have hpaired : E.Paired r r' := by
          rcases hready with hpaired | hmet
          · exact hpaired
          · have hmark := (expect_eq_ok hcomma).1
            rw [hmet.meets.edge.lexeme] at hmark
            exact absurd (Lexeme.mark.inj hmark) (by decide)
        rcases hmore with rfl | ⟨hclose, k, rfl, hk⟩
        · cases hrest
        have hagree : E.Agree false
            (Parse.loopFor budget (Parse.collectSeparated ")" p) (k :: n :: items))
            (Parse.loopFor budget (Parse.collectSeparated ")" p') (carry E (k :: n :: items))) := by
          apply Agree.loopFor (fun items => ?_) (Nat.le_refl _)
          infer_instance
        have hm := hagree.back hrest hclean
        have hu := (hp true).back hk hm
        rcases (agree_expect (t := true) ",").goes hpaired hcomma hu with
          ⟨u', hcomma', hu' | ⟨-, hmet⟩⟩ | ⟨⟨⟩, -⟩
        · rcases (hp true).goes hu' hk hm with ⟨m', hk', hm'⟩ | ⟨⟨⟩, -⟩
          have hready' := hm'.imp_right And.right
          have hlt := length_rest_lt p' hpaired hcomma' hk' hready'
          obtain ⟨⟨s', hrun', hs⟩, hall⟩ := ih
            (Nat.lt_of_lt_of_le hlt (Nat.le_of_lt_succ hbudget)) hready' hrest
          refine ⟨⟨s', ?_, hs⟩, .inr ?_⟩
          · rw [Parse.loopFor, bind_of_ok _ (Parse.collectBehind_more hcomma' hk')]
            exact hrun'
          · rcases hall with ⟨rfl, -⟩ | hall
            · simp
            · exact Nat.lt_of_succ_lt hall
        · rw [hmet.meets.edge.lexeme] at hclose
          cases hclose

omit [∀ t, E.Agree t p p'] hkeeps in
theorem expression_eq (g : Level) (scope : Scope) :
  Parse.expression g scope
    = (do
        let start ← Parse.start
        let first ← g.assignment scope
        if ← Parse.atMark "," then
          let items ← Parse.loop (Parse.collectBehind (g.assignment scope)) [first]
          Parse.node start (.sequence items)
        else pure first)
  := rfl

theorem closeParenthesis_gives {start : Nat} {items : List Node} {n : Node}
    (h : Parse.closeParenthesis start items r = .ok n s) :
  Parse.expect ")" r = .ok () s
    ∧ (items = [n] ∨ 2 ≤ items.length ∧ n = .mk 0 ⟨start, r.lastEnd⟩ (.sequence items))
  := by
  rcases items with _ | ⟨item, _ | ⟨other, items⟩⟩
  · obtain ⟨_, m, -, h⟩ := Footing.bind_eq_ok h
    exact (throw_ne_ok h).elim
  · obtain ⟨_, m, hclose, h⟩ := Footing.bind_eq_ok h
    cases h
    exact ⟨hclose, .inl rfl⟩
  · obtain ⟨k, m, hk, h⟩ := Footing.bind_eq_ok h
    cases hk
    obtain ⟨_, m, hclose, h⟩ := Footing.bind_eq_ok h
    cases h
    exact ⟨hclose, .inr ⟨by simp, rfl⟩⟩

section

variable (g g' : Level) [E.Parallel g g'] [g'.Lawful] (scope : Scope) {u : Reader} {n : Node}
  {items : List Node}

set_option synthInstance.maxSize 1000 in
/-- What the first reader finds in the parentheses around the code is the expression that the second
reader finds. -/
theorem goes_parenthesized (hpaired : E.Paired r r')
    (hrun : Parse.separated ")" (g.assignment scope) r = .ok (items, false) u)
    (hclose : Parse.closeParenthesis r.lexed.start items u = .ok n s) (hclean : E.Clean u)
    (hstop : E.stop < u.lexed.stop) :
  ∃ u', Parse.expression g' scope r' = .ok (carry E n) u' ∧ E.Met u u'
  := by
  obtain ⟨v, w, hreads⟩ := hpaired.twin
  have hitems := (closeParenthesis_gives hclose).2
  obtain ⟨_, _, hget, hrun⟩ := Footing.bind_eq_ok (Parse.separated_eq _ _ ▸ hrun)
  cases hget
  obtain ⟨x, m, hfirst, hrest⟩ := Footing.bind_eq_ok hrun
  rcases Parse.collectSeparated_nil hfirst with ⟨rfl, rfl, -⟩ | ⟨-, k, rfl, hk⟩
  · cases hrest
    rcases hitems with hitems | ⟨hlength, -⟩
    · cases hitems
    · cases hlength
  have hagree : E.Agree false (Parse.loopFor (' ' :: ' ' :: r.lexed.rest)
      (Parse.collectSeparated ")" (g.assignment scope)) [k])
      (Parse.loopFor (' ' :: ' ' :: r.lexed.rest)
        (Parse.collectSeparated ")" (g'.assignment scope)) (carry E [k])) := by
    apply Agree.loopFor (fun items => ?_) (Nat.le_refl _)
    infer_instance
  have hm := hagree.back hrest hclean
  rcases (agree_level_assignment (t := true) g g' scope).goes hpaired hk hm with
    ⟨m', hk', hm'⟩ | ⟨⟨⟩, -⟩
  have hready := hm'.imp_right And.right
  have hbudget : m'.lexed.rest.length < (' ' :: ' ' :: ' ' :: m'.lexed.rest).length := by
    simp only [List.length_cons]
    omega
  obtain ⟨⟨u', hrun', hu⟩, hall⟩ := goes_items (g.assignment scope) (g'.assignment scope)
    hbudget hready hrest hclean hstop
  have hloop : Parse.loop (Parse.collectBehind (g'.assignment scope)) [carry E k] m'
      = .ok (carry E items) u' := hrun'
  have hexpression : Parse.expression g' scope r'
      = (if m'.lexed.lexeme.isMark "," then do
          let items ← Parse.loop (Parse.collectBehind (g'.assignment scope)) [carry E k]
          Parse.node r'.lexed.start (.sequence items)
        else pure (carry E k) : Parse Node) m' := by
    change (g'.assignment scope >>= fun first => _) r' = _
    rw [bind_of_ok _ hk']
    rfl
  rw [hexpression]
  cases hcomma : m'.lexed.lexeme.isMark "," with
  | false =>
      obtain ⟨hdone, rfl⟩ := EStateM.Result.ok.inj
        (hrun'.symm.trans (bind_of_ok _ (Parse.collectBehind_done hcomma)))
      have hlength := congrArg List.length hdone
      change (items.map _).length = 1 at hlength
      rw [List.length_map] at hlength
      rcases hitems with rfl | ⟨hle, -⟩
      · have hsame : carry E n = carry E k := (List.cons.inj hdone).1
        rw [hsame]
        exact ⟨u', rfl, hu⟩
      · omega
  | true =>
      refine ⟨u', ?_, hu⟩
      rw [if_pos rfl, bind_of_ok _ hloop]
      rcases hall with ⟨-, rfl⟩ | hlength
      · rcases hready with ⟨-, v, w, hreads⟩ | hmet
        · have hwidth := hreads.stop_add_width
          omega
        · rw [hmet.meets.lexeme] at hcomma
          cases hcomma
      · rcases hitems with rfl | ⟨-, rfl⟩
        · simp at hlength
        · change EStateM.Result.ok (Node.mk 0 ⟨r'.lexed.start, u'.lastEnd⟩ _) u' = _
          have hkind : E.Carried (Kind.sequence items) (Kind.sequence (carry E items)) :=
            inferInstance
          rw [hu.lastEnd, moved_node ⟨hreads.start'⟩ hkind]

end

variable {m : Reader} {n : Node}

/-- The first reader stands at the parenthesis before the code and the second one at the first
lexeme of it.  Neither remembers anything that matters. -/
structure Begins (E : Seam) (r r' : Reader) : Prop where
  opening : r.lexed.lexeme = .mark "("
  rest : r.lexed.rest = E.code ++ tail
  stop : r.lexed.stop = E.start
  uncovered : r.uncovered = []
  trailing : r.trailing = []
  lexed' : r'.lexed = lex (E.start + E.shift) false (E.code ++ tail')
  lastEnd' : r'.lastEnd = E.before
  uncovered' : r'.uncovered = []
  trailing' : r'.trailing = []
  lexFaults' : r'.lexFaults = r'.lexed.faults
  faults' : r'.faults = []
  notArrows' : r'.notArrows = []

/-- Unless the parentheses are empty, the readers go on from the first lexeme of the code. -/
theorem Begins.paired_or (h : E.Begins r r') (hclean : r.next.lexed.faults = []) :
  E.Paired r.next r'
    ∨ (r.next.lexed.lexeme.isMark ")" || r.next.lexed.lexeme.isEnd) = true
  := by
  have hlexed : r.next.lexed = lex E.start false (E.code ++ tail) := by
    change lex r.lexed.stop false r.lexed.rest = _
    rw [h.stop, h.rest]
  rw [hlexed] at hclean ⊢
  have hnext := twin_lex (E := E) (List.suffix_refl _) rfl hclean
  rw [← h.lexed'] at hnext
  rcases hnext with htwin | hmeets | hpast
  · left
    obtain ⟨v, w, hreads⟩ := htwin
    refine ⟨⟨?_, ?_, ?_, ?_, ?_, h.faults', ?_⟩, ?_⟩
    · change r'.lastEnd = E.ends r.lexed.stop
      rw [h.lastEnd', h.stop, ends, if_pos (Nat.le_refl _)]
    · change r.lexed.stop ≤ E.stop
      rw [h.stop]
      apply Nat.le_add_right
    · change r'.uncovered = r.uncovered.map _
      rw [h.uncovered', h.uncovered]
      rfl
    · change r'.trailing = r.trailing.map _
      rw [h.trailing', h.trailing]
      rfl
    · rw [h.lexFaults']
      exact hreads.clean'
    · rw [h.notArrows']
      exact fun _ _ _ => List.not_mem_nil
    · rw [hlexed]
      exact ⟨v, w, hreads⟩
  · right
    rw [hmeets.edge.lexeme]
    rfl
  · right
    rw [hpast.lexeme]
    rfl

set_option synthInstance.maxSize 1000 in
/-- What stands in parentheses that reach over the code is the expression that the second reader
finds. -/
theorem Begins.goes (g g' : Level) [E.Parallel g g'] [g.Lawful] [g'.Lawful] (scope : Scope)
    (h : E.Begins r r') (hrun : Parse.parenthesized g scope r = .ok n m)
    (hlexFaults : m.lexFaults = []) (hfaults : m.faults = [])
    (hnotArrows : ∀ k ∈ m.notArrows, ¬ E.Live k) (hstop : E.stop < m.lastEnd) :
  r'.lexed.lexeme.isEnd = false
    ∧ ∃ u u', Parse.expression g' scope.withIn r' = .ok (carry E n) u' ∧ E.Met u u'
      ∧ u.uncovered = m.uncovered
  := by
  obtain ⟨_, r₁, hadvance, hrun⟩ := Footing.bind_eq_ok hrun
  obtain ⟨-, rfl⟩ := EStateM.Result.ok.inj ((advance_mark h.opening).symm.trans hadvance)
  obtain ⟨start, _, hstart, hrun⟩ := Footing.bind_eq_ok hrun
  cases hstart
  obtain ⟨⟨items, comma⟩, u, hitems, hrun⟩ := Footing.bind_eq_ok hrun
  cases comma with
  | true =>
      obtain ⟨_, _, hthrow, -⟩ := Footing.bind_eq_ok hrun
      exact (throw_ne_ok hthrow).elim
  | false =>
  have hclose : Parse.closeParenthesis r.next.lexed.start items u = .ok n m := hrun
  have hexpect := (closeParenthesis_gives hclose).1
  obtain ⟨hmark, rfl⟩ := expect_eq_ok hexpect
  have hu : E.Clean u := by
    refine ⟨(List.append_eq_nil_iff.mp hlexFaults).2, hfaults, ?_, hnotArrows⟩
    intro hpast
    rw [hpast.lexeme] at hmark
    cases hmark
  have hkeeps : (edges []).Keeps False (Parse.separated ")" (g.assignment scope.withIn)) :=
    inferInstance
  have hfirst := hkeeps.startsClean hitems hu.lexFaults
  rcases h.paired_or (List.append_eq_nil_iff.mp hfirst).1 with hpaired | hempty
  · obtain ⟨u', hrun', hu'⟩ := goes_parenthesized g g' scope.withIn hpaired hitems hclose hu hstop
    obtain ⟨v, w, hreads⟩ := hpaired.twin
    exact ⟨hreads.lexeme ▸ hreads.goesOn, u, u', hrun', hu', rfl⟩
  · obtain ⟨_, _, hget, hitems⟩ := Footing.bind_eq_ok (Parse.separated_eq _ _ ▸ hitems)
    cases hget
    obtain ⟨x, v, hstep, hrest⟩ := Footing.bind_eq_ok hitems
    rcases Parse.collectSeparated_nil hstep with ⟨rfl, rfl, -⟩ | ⟨hopen, -⟩
    · cases hrest
      rcases (closeParenthesis_gives hclose).2 with hnil | ⟨hlength, -⟩
      · cases hnil
      · cases hlength
    · rw [hempty] at hopen
      cases hopen

end Seam

end Stencil.Script
