import Stencil.Script.Grammar

/-!
# Expressions on their own

A text may be read as an expression that stands on its own, with nothing around it.
-/

namespace Stencil.Script

/-- A reader that has come to the given offset and goes on with a text. -/
def Reader.behind (offset : Nat) (t : Text) : Reader :=
  let l := lex offset false t
  ⟨l, offset, l.faults, [], l.comments, [], [], []⟩

/-- The expression that a text is on its own, if it is one. -/
def Expression.ofText? (t : Text) : Option Node :=
  match Parse.expression (Level.ofHeight (t.length + 2)) {} (.behind 0 t) with
  | .ok n r => if r.lexed.lexeme = .stop ∧ r.allFaults = [] then some n else none
  | .error _ _ => none

end Stencil.Script
