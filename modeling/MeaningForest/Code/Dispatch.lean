import MeaningForest.Analysis.Basic
import MeaningForest.Code.Line

/-!
# Dispatch of overridden methods

A method that is overridden begins with a block that narrows the object step by step along the tree of overrides and
calls the deepest override that applies.  If none applies, the block falls through to the method's own body.
-/

namespace MeaningForest.Code

/-- A block of statements. -/
inductive Dispatch where
  /-- Nothing is left: control falls through. -/
  | done
  /-- If `object` is a `target`, the body runs with the narrowed object in `var`; then the rest. -/
  | narrow (var flag object target : Text) (body rest : Dispatch)
  /-- The call of an override, which leaves the method. -/
  | leave (call : OverrideCall)
  deriving DecidableEq, Repr

namespace Dispatch

/-- A block followed by a call, if there is one. -/
def thenLeave (call : Option OverrideCall) : Dispatch → Dispatch
  | done => match call with
    | none => done
    | some c => leave c
  | narrow v flag object target body rest => narrow v flag object target body (rest.thenLeave call)
  | leave c => leave c

/-- The block for a tree of overrides.  The object has been narrowed along `path` and is in the variable `object`. -/
def ofTree (params : List Text) (object : Text) (path : List Text) : OverrideTree Text OverrideCall → Dispatch
  | .nil => done
  | .node sub call below rest =>
    let v := (dispatchNames params (path ++ [sub])).getLast?.getD []
    narrow v (freeName "ok" params) object sub ((ofTree params v (path ++ [sub]) below).thenLeave call)
      (ofTree params object path rest)

/-- The lines of a block. -/
def lines : Dispatch → List Line
  | done => []
  | narrow v flag object target body rest =>
    block ("if " ++ v ++ ", " ++ flag ++ " := " ++ object ++ "." ++ downcastName target ++ "(); " ++ flag ++ " \x7b")
      body.lines "\x7d" ++ rest.lines
  | leave call => call.text.lines.map line

end Dispatch

end MeaningForest.Code
