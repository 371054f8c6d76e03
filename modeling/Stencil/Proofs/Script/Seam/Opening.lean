import Stencil.Proofs.Script.Order
import Stencil.Proofs.Script.Seam.Statements

/-!
# What begins with a parenthesis

An expression that begins with an opening parenthesis is what stands in the parentheses, without
them, if nothing follows that belongs to it.  Otherwise it begins where the parenthesis does, since
each rule that goes on with a left side gives its node the beginning of the left side.
-/

namespace Stencil.Script

/-- The reader only looked at what comes next. -/
structure Reader.Idles (r s : Reader) : Prop where
  lastEnd : s.lastEnd = r.lastEnd
  uncovered : s.uncovered = r.uncovered
  clean : s.lexFaults = [] → r.lexFaults = []
  grows : r.Grows s

theorem Reader.Idles.refl (r : Reader) :
  r.Idles r
  := ⟨rfl, rfl, id, .refl r⟩

theorem Reader.Idles.trans {r s t : Reader} (h : r.Idles s) (h' : s.Idles t) :
  r.Idles t
  where
    lastEnd := h'.lastEnd.trans h.lastEnd
    uncovered := h'.uncovered.trans h.uncovered
    clean := h.clean ∘ h'.clean
    grows := h.grows.trans h'.grows

namespace Parse

variable {g : Level} {scope : Scope} {start : Nat} {left n : Node} {r s : Reader}

/-! ### At an opening parenthesis -/

theorem leftHand_open (h : r.lexed.lexeme = .mark "(") :
  leftHand g scope r
    = (do
        let first ← parenthesized g scope
        let (n, inChain) ← calls g scope r.lexed.start first
        pure (if inChain then closeChain n else n) : Parse Node) r
  := by
  obtain ⟨⟨lexeme, _, _, _, _, _, _, _⟩, _, _, _, _, _, _, _⟩ := r
  obtain rfl : lexeme = .mark "(" := h
  rfl

theorem update_open (h : r.lexed.lexeme = .mark "(") :
  update g scope r
    = (do
        let operand ← leftHand g scope
        let l ← current
        if ← atUpdateBehind then
          advance
          let operand ← simpleTarget operand
          node r.lexed.start (.update l.spelling false operand)
        else pure operand : Parse Node) r
  := by
  obtain ⟨⟨lexeme, _, _, _, _, _, _, _⟩, _, _, _, _, _, _, _⟩ := r
  obtain rfl : lexeme = .mark "(" := h
  rfl

theorem unary_open (h : r.lexed.lexeme = .mark "(") :
  unary g scope r = update g scope r
  := by
  obtain ⟨⟨lexeme, _, _, _, _, _, _, _⟩, _, _, _, _, _, _, _⟩ := r
  obtain rfl : lexeme = .mark "(" := h
  rfl

theorem binary_open (h : r.lexed.lexeme = .mark "(") (rank : Nat) :
  binary g rank scope r
    = (do
        let left ← unary g scope
        operators g scope rank r.lexed.start true left : Parse Node) r
  := by
  obtain ⟨⟨lexeme, _, _, _, _, _, _, _⟩, _, _, _, _, _, _, _⟩ := r
  obtain rfl : lexeme = .mark "(" := h
  obtain ⟨⟨⟩ | ⟨⟩, _, _⟩ := scope <;> rfl


/-! ### What begins where the left side does -/

instance beginsAt_namedMember (isOptional : Bool) :
    (namedMember start left isOptional).BeginsAt start := by
  unfold namedMember
  infer_instance

instance beginsAt_computedMember (isOptional : Bool) :
    (computedMember g scope start left isOptional).BeginsAt start := by
  unfold computedMember
  infer_instance

instance beginsAt_tagged (inChain : Bool) :
    (tagged g scope start left inChain).BeginsAt start := by
  unfold tagged
  infer_instance

instance beginsAt_optionalMember : (optionalMember g scope start left).BeginsAt start := by
  unfold optionalMember
  infer_instance

instance beginsAt_operation (leftParen : Bool) (operator : String) (own : Nat) :
    (operation g scope start leftParen left operator own).BeginsAt start := by
  unfold operation
  infer_instance

instance beginsAt_arrowBody (isAsync : Bool) (params : List Node) :
    (arrowBody g scope start isAsync params).BeginsAt start := by
  unfold arrowBody
  infer_instance

/-! ### What follows a left side -/

/-- A repetition gives its beginning back and only looks at what comes next, or changes it, if each
step does so. -/
theorem loop_gives {α : Type} {step : α → Parse (α ⊕ α)} {P : α → Prop}
    (hstep : ∀ {a r x s}, step a r = .ok x s →
      (∃ b, P b ∧ (x = .inl b ∨ x = .inr b)) ∨ x = .inr a ∧ r.Idles s)
    {a b : α} (h : loop step a r = .ok b s) :
  P b ∨ b = a ∧ r.Idles s
  := by
  have hloop : ∀ (budget : Text) {a r}, loopFor budget step a r = .ok b s →
      P b ∨ b = a ∧ r.Idles s := by
    intro budget
    induction budget with
    | nil => exact fun hrun => (Seam.unexpected_ne_ok hrun).elim
    | cons c budget ih =>
        intro a r hrun
        obtain ⟨x, m, hfirst, hrest⟩ := Footing.bind_eq_ok hrun
        rcases hstep hfirst with ⟨a', hP, rfl | rfl⟩ | ⟨rfl, hidles⟩
        · rcases ih hrest with hb | ⟨rfl, -⟩
          · exact .inl hb
          · exact .inl hP
        · cases hrest
          exact .inl hP
        · cases hrest
          exact .inr ⟨rfl, hidles⟩
  exact hloop _ h

theorem member_gives {allowsChain inChain : Bool} {x : (Node × Bool) ⊕ (Node × Bool)}
    (h : member g scope start allowsChain left inChain r = .ok x s) :
  (∃ y : Node × Bool, y.1.span.start = start ∧ (x = .inl y ∨ x = .inr y))
    ∨ x = .inr (left, inChain) ∧ r.Idles s
  := by
  have hgives (p : Parse Node) [hp : p.BeginsAt start] (inChain : Bool) {r : Reader}
      (hrun : (do pure (.inl (← p, inChain)) : Parse ((Node × Bool) ⊕ (Node × Bool))) r
        = .ok x s) :
      ∃ y : Node × Bool, y.1.span.start = start ∧ (x = .inl y ∨ x = .inr y) := by
    obtain ⟨n, m, hn, hrest⟩ := Footing.bind_eq_ok hrun
    cases hrest
    exact ⟨(n, inChain), hp.gives hn, .inl rfl⟩
  change (if r.lexed.lexeme.isMark "." then _ else _ : Parse _) r = _ at h
  split at h
  · obtain ⟨_, m, -, h⟩ := Footing.bind_eq_ok h
    exact .inl (hgives _ inChain h)
  split at h
  · exact .inl (hgives _ inChain h)
  split at h
  · exact .inl (hgives _ inChain h)
  obtain ⟨b, m, hnext, h⟩ := Footing.bind_eq_ok h
  cases hnext
  split at h
  · exact .inl (hgives _ true h)
  · cases h
    exact .inr ⟨rfl, Reader.Idles.refl _⟩

theorem members_gives {allowsChain inChain : Bool} {y : Node × Bool}
    (h : members g scope start allowsChain left inChain r = .ok y s) :
  y.1.span.start = start ∨ y = (left, inChain) ∧ r.Idles s
  := by
  apply loop_gives _ h
  rintro ⟨left, inChain⟩ r x s hrun
  exact member_gives hrun

theorem call_gives {inChain : Bool} {x : (Node × Bool) ⊕ (Node × Bool)}
    (h : call g scope start left inChain r = .ok x s) :
  (∃ y : Node × Bool, y.1.span.start = start ∧ (x = .inl y ∨ x = .inr y))
    ∨ x = .inr (left, inChain) ∧ r.Idles s
  := by
  obtain ⟨⟨n, c⟩, m, hmembers, h⟩ := Footing.bind_eq_ok h
  have hleft := members_gives hmembers
  dsimp only at h
  rw [Seam.eat_bind] at h
  obtain ⟨isOptional, m', hat, h⟩ := Footing.bind_eq_ok h
  cases hat
  split at h
  · obtain ⟨_, u, -, h⟩ := Footing.bind_eq_ok h
    obtain ⟨b, v, -, h⟩ := Footing.bind_eq_ok h
    split at h
    · obtain ⟨args, v', -, h⟩ := Footing.bind_eq_ok h
      obtain ⟨k, w, hk, h⟩ := Footing.bind_eq_ok h
      cases hk
      cases h
      exact .inl ⟨_, rfl, .inl rfl⟩
    · exact (Seam.unexpected_ne_ok h).elim
  · obtain ⟨b, v, hat, h⟩ := Footing.bind_eq_ok h
    cases hat
    split at h
    · obtain ⟨args, v', -, h⟩ := Footing.bind_eq_ok h
      obtain ⟨k, w, hk, h⟩ := Footing.bind_eq_ok h
      cases hk
      cases h
      exact .inl ⟨_, rfl, .inl rfl⟩
    · cases h
      rcases hleft with hstart | ⟨heq, hidles⟩
      · exact .inl ⟨_, hstart, .inr rfl⟩
      · rw [heq]
        exact .inr ⟨rfl, hidles⟩

theorem calls_gives {y : Node × Bool} (h : calls g scope start left r = .ok y s) :
  y.1.span.start = start ∨ y = (left, false) ∧ r.Idles s
  := by
  apply loop_gives _ h
  rintro ⟨left, inChain⟩ r x s hrun
  exact call_gives hrun

theorem span_closeChain (n : Node) :
  (closeChain n).span = n.span
  := by
  unfold closeChain
  split
  · split <;> rfl
  · rfl

theorem operationAt_gives {rank : Nat} {leftParen : Bool} {operator : String} {x : Node ⊕ Node}
    (h : operationAt g scope rank start leftParen left operator r = .ok x s) :
  (∃ n : Node, n.span.start = start ∧ (x = .inl n ∨ x = .inr n)) ∨ x = .inr left ∧ r.Idles s
  := by
  unfold operationAt at h
  cases hrank : rankOf? operator <;> rw [hrank] at h
  · obtain ⟨_, m, hrefuse, h⟩ := Footing.bind_eq_ok h
    cases h
    obtain ⟨onLine, m', hline, hrefuse⟩ := Footing.bind_eq_ok hrefuse
    cases hline
    split at hrefuse
    · obtain ⟨_, u, -, hrefuse⟩ := Footing.bind_eq_ok hrefuse
      obtain ⟨_, v, -, hrefuse⟩ := Footing.bind_eq_ok hrefuse
      split at hrefuse
      · exact (Seam.unexpected_ne_ok hrefuse).elim
      · exact (Seam.throw_ne_ok hrefuse).elim
    · cases hrefuse
      exact .inr ⟨rfl, Reader.Idles.refl _⟩
  · next own =>
      dsimp only at h
      split at h
      · cases h
        exact .inr ⟨rfl, Reader.Idles.refl _⟩
      · obtain ⟨n, m, hn, h⟩ := Footing.bind_eq_ok h
        cases h
        have hbegins : (operation g scope start leftParen left operator own).BeginsAt start :=
          inferInstance
        exact .inl ⟨n, hbegins.gives hn, .inl rfl⟩

theorem operators_gives {rank : Nat} {leftParen : Bool}
    (h : operators g scope rank start leftParen left r = .ok n s) :
  n.span.start = start ∨ n = left ∧ r.Idles s
  := by
  apply loop_gives (P := fun n => n.span.start = start) _ h
  intro left r x s h
  obtain ⟨isGreater, m, hat, h⟩ := Footing.bind_eq_ok h
  cases hat
  have hrest {r : Reader} (hrun : (current >>= fun l =>
      operationAt g scope rank start leftParen left l.spelling) r = .ok x s) :
      (∃ n : Node, n.span.start = start ∧ (x = .inl n ∨ x = .inr n))
        ∨ x = .inr left ∧ r.Idles s := by
    obtain ⟨l, m, hl, hrun⟩ := Footing.bind_eq_ok hrun
    cases hl
    exact operationAt_gives hrun
  split at h
  · obtain ⟨_, m', hreread, h⟩ := Footing.bind_eq_ok h
    have hkeeps : (edges []).Keeps False
        (modify fun r => r.reread r.lexed.asOperator : Parse Unit) := inferInstance
    have hgrows := Seam.grows_of_keeps hkeeps hreread
    have hclean := hkeeps.startsClean hreread
    cases hreread
    have hidles : r.Idles (r.reread r.lexed.asOperator) := ⟨rfl, rfl, hclean, hgrows⟩
    rcases hrest h with hn | ⟨hx, hrest⟩
    · exact .inl hn
    · exact .inr ⟨hx, hidles.trans hrest⟩
  · exact hrest h

theorem assignmentFrom_gives (h : assignmentFrom g scope start left r = .ok n s) :
  n.span.start = start ∨ n = left ∧ r.Idles s
  := by
  obtain ⟨l, m, hl, h⟩ := Footing.bind_eq_ok h
  cases hl
  split at h
  · obtain ⟨_, m, -, h⟩ := Footing.bind_eq_ok h
    have hbegins : (arrowBody g scope start false [left]).BeginsAt start := inferInstance
    exact .inl (hbegins.gives h)
  split at h
  · have hbegins (left : Node) (op : String) : Parse.BeginsAt start (do
        advance
        let right ← g.assignment scope
        node start (.assignment op left right)) := inferInstance
    dsimp only at h
    split at h
    · obtain ⟨target, m, -, h⟩ := Footing.bind_eq_ok h
      exact .inl ((hbegins _ _).gives h)
    · obtain ⟨target, m, -, h⟩ := Footing.bind_eq_ok h
      exact .inl ((hbegins _ _).gives h)
  · rw [Seam.eat_bind] at h
    obtain ⟨isCondition, m, hat, h⟩ := Footing.bind_eq_ok h
    cases hat
    split at h
    · have hbegins : Parse.BeginsAt start (do
          let consequent ← g.assignment scope.withIn
          expect ":"
          let alternate ← g.assignment scope
          node start (.conditional left consequent alternate)) := inferInstance
      obtain ⟨_, m, -, h⟩ := Footing.bind_eq_ok h
      exact .inl (hbegins.gives h)
    · cases h
      exact .inr ⟨rfl, Reader.Idles.refl _⟩

/-! ### What is in parentheses and what follows it -/

theorem leftHand_gives (hopen : r.lexed.lexeme = .mark "(")
    (h : leftHand g scope r = .ok n s) :
  n.span.start = r.lexed.start ∨ ∃ m, parenthesized g scope r = .ok n m ∧ m.Idles s
  := by
  rw [leftHand_open hopen] at h
  obtain ⟨first, m, hfirst, h⟩ := Footing.bind_eq_ok h
  obtain ⟨⟨k, inChain⟩, m', hcalls, h⟩ := Footing.bind_eq_ok h
  cases h
  rcases calls_gives hcalls with hstart | ⟨heq, hidles⟩
  · refine .inl ?_
    dsimp only at hstart ⊢
    split
    · rw [span_closeChain]
      exact hstart
    · exact hstart
  · cases heq
    exact .inr ⟨m, hfirst, hidles⟩

theorem update_gives (hopen : r.lexed.lexeme = .mark "(") (h : update g scope r = .ok n s) :
  n.span.start = r.lexed.start ∨ ∃ m, parenthesized g scope r = .ok n m ∧ m.Idles s
  := by
  rw [update_open hopen] at h
  obtain ⟨operand, m, hoperand, h⟩ := Footing.bind_eq_ok h
  obtain ⟨l, m', hl, h⟩ := Footing.bind_eq_ok h
  cases hl
  obtain ⟨isUpdate, m', hupdate, h⟩ := Footing.bind_eq_ok h
  cases hupdate
  split at h
  · obtain ⟨_, u, -, h⟩ := Footing.bind_eq_ok h
    obtain ⟨_, v, -, h⟩ := Footing.bind_eq_ok h
    cases h
    exact .inl rfl
  · cases h
    exact leftHand_gives hopen hoperand

theorem binary_gives {rank : Nat} (hopen : r.lexed.lexeme = .mark "(")
    (h : binary g rank scope r = .ok n s) :
  n.span.start = r.lexed.start ∨ ∃ m, parenthesized g scope r = .ok n m ∧ m.Idles s
  := by
  rw [binary_open hopen] at h
  obtain ⟨left, m, hleft, h⟩ := Footing.bind_eq_ok h
  rw [unary_open hopen] at hleft
  rcases operators_gives h with hstart | ⟨rfl, hidles⟩
  · exact .inl hstart
  · rcases update_gives hopen hleft with hstart | ⟨u, hrun, hu⟩
    · exact .inl hstart
    · exact .inr ⟨u, hrun, hu.trans hidles⟩

theorem parenthesizedArrow_gives {o : Option Node}
    (h : parenthesizedArrow? g scope r = .ok o s) :
  (∃ n, o = some n ∧ n.span.start = r.lexed.start)
    ∨ o = none ∧ ∃ places, s = { r with notArrows := places }
  := by
  have hbody {isAsync : Bool} {params : List Node} {m : Reader}
      (hrun : (some <$> arrowBody g scope r.lexed.start isAsync params) m = .ok o s) :
      ∃ n, o = some n ∧ n.span.start = r.lexed.start := by
    obtain ⟨n, u, hn, hrun⟩ := Footing.bind_eq_ok hrun
    cases hrun
    have hbegins : (arrowBody g scope r.lexed.start isAsync params).BeginsAt r.lexed.start :=
      inferInstance
    exact ⟨n, rfl, hbegins.gives hn⟩
  rw [Seam.parenthesizedArrow_apply] at h
  split at h
  · cases h
    exact .inr ⟨rfl, r.notArrows, rfl⟩
  cases hsign : signAt r.lexed <;> rw [hsign] at h
  · obtain ⟨⟨isAsync, params⟩, m, -, h⟩ := Footing.bind_eq_ok h
    exact .inl (hbody h)
  · cases h
    exact .inr ⟨rfl, r.notArrows, rfl⟩
  · dsimp only at h
    split at h
    · cases h
      exact .inr ⟨rfl, r.notArrows, rfl⟩
    · obtain ⟨tried, m, hattempt, h⟩ := Footing.bind_eq_ok h
      rcases Seam.attempt_eq_ok hattempt with ⟨⟨isAsync, params⟩, rfl, -⟩ | ⟨rfl, f, u, -, rfl⟩
      · exact .inl (hbody h)
      · cases h
        exact .inr ⟨rfl, _, rfl⟩

theorem assignment_open (h : r.lexed.lexeme = .mark "(") :
  assignment g scope r
    = (do
        match ← parenthesizedArrow? g scope with
        | some n => pure n
        | none =>
          match ← asyncArrow? g scope with
          | some n => pure n
          | none =>
            let start ← Parse.start
            let left ← binary g 0 scope
            assignmentFrom g scope start left : Parse Node) r
  := by
  obtain ⟨⟨lexeme, _, _, _, _, _, _, _⟩, _, _, _, _, _, _, _⟩ := r
  obtain rfl : lexeme = .mark "(" := h
  rfl

theorem asyncArrow_open (h : r.lexed.lexeme = .mark "(") :
  asyncArrow? g scope r = .ok none r
  := by
  unfold asyncArrow?
  change (ahead nameBeforeArrow false >>= fun b => _) r = _
  rw [Seam.bind_of_ok _ (Seam.ahead_nameBeforeArrow r), h]
  rfl

theorem assignment_gives (hopen : r.lexed.lexeme = .mark "(")
    (h : assignment g scope r = .ok n s) :
  n.span.start = r.lexed.start
    ∨ ∃ places m, parenthesized g scope { r with notArrows := places } = .ok n m ∧ m.Idles s
  := by
  rw [assignment_open hopen] at h
  obtain ⟨o, m, harrow, h⟩ := Footing.bind_eq_ok h
  rcases parenthesizedArrow_gives harrow with ⟨k, rfl, hk⟩ | ⟨rfl, places, rfl⟩
  · cases h
    exact .inl hk
  have hopen' : ({ r with notArrows := places } : Reader).lexed.lexeme = .mark "(" := hopen
  dsimp only at h
  rw [Seam.bind_of_ok _ (asyncArrow_open hopen')] at h
  obtain ⟨start, m, hstart, h⟩ := Footing.bind_eq_ok h
  cases hstart
  obtain ⟨left, m, hleft, h⟩ := Footing.bind_eq_ok h
  rcases assignmentFrom_gives h with hbegins | ⟨rfl, hidles⟩
  · exact .inl hbegins
  · rcases binary_gives hopen' hleft with hbegins | ⟨u, hrun, hu⟩
    · exact .inl hbegins
    · exact .inr ⟨places, u, hrun, hu.trans hidles⟩

end Parse

end Stencil.Script
