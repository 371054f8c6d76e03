import Stencil.Lint.Rule

/-!
# Scripted rules

A scripted rule is given by data: texts to look for, and findings to report as they are.
-/

namespace Stencil.Lint

/-- What is to be done with an occurrence of a text. -/
inductive NeedleFix where
  | replace (t : Text)
  | remove
  | insertBefore (t : Text)
  | insertAfter (t : Text)
  deriving DecidableEq, Repr, Inhabited

/-- The fix for an occurrence. -/
def NeedleFix.at (s : Span) : NeedleFix → Fix
  | replace t => ⟨s, t⟩
  | remove => .remove s
  | insertBefore t => .insert s.start t
  | insertAfter t => .insert s.stop t

/-- A text to look for, and what to report of each occurrence. -/
structure Needle where
  find : Text
  message : String
  fix : Option NeedleFix
  deriving DecidableEq, Repr, Inhabited

/-- The occurrences of a text from left to right, none of which overlap.  The number of characters
to pass over is given. -/
def occurrencesFrom (needle : Text) (pos skip : Nat) : Text → List Span
  | [] => if needle.isEmpty then [⟨pos, pos⟩] else []
  | c :: t =>
    let next := pos + c.utf8Size
    match skip with
    | skip + 1 => occurrencesFrom needle next skip t
    | 0 =>
      if needle.isPrefixOf (c :: t) then
        ⟨pos, pos + Text.width needle⟩ :: occurrencesFrom needle next (needle.length - 1) t
      else occurrencesFrom needle next 0 t

/-- The findings for a text to look for. -/
def Needle.findings (n : Needle) (document : Text) : List Finding :=
  (occurrencesFrom n.find 0 0 document).map fun s =>
    { span := s, message := n.message, fix := n.fix.map (NeedleFix.at s) }

/-- The rule that is given by texts to look for and by findings.  It rejects the given options,
unless they are null. -/
def scriptedRule (info : RuleInfo) (needles : List Needle) (findings : List Finding)
    (rejected : Json) : Rule where
  info := info
  accepts options :=
    if !rejected.same .null && options.same rejected then .error (.rejected info.name)
    else .ok ()
  check _ a := pure (needles.flatMap (·.findings a.document) ++ findings)

end Stencil.Lint
