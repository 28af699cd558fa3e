import LispCore.Text.Quoted
/-!
Notices: what the library reports beside its answers. Each has a severity and a text; the numbers of
binding frames are kept but not told.
-/

namespace LispCore

/-- Something worth a report. -/
inductive Notice where
  /-- A lazy sequence was asked again after its producer panicked. -/
  | realizedAfterPanic
  /-- A referred var gives way to a var of the namespace itself. -/
  | referReplaced (sym var ns : String)
  /-- A setting that is neither true nor false. -/
  | unknownReadEval (setting : String)
  /-- A guard was dropped whose frame is not on the chain. -/
  | frameNotOnChain (frame : Nat)
  /-- A frame was unwound together with the frame of a guard below it. -/
  | frameUnwound (frame : Nat) (vars : List String)
deriving DecidableEq, Repr, Inhabited

inductive Severity where
  | warn
  | error
deriving DecidableEq, Repr, Inhabited

namespace Notice

def severity : Notice → Severity
  | frameNotOnChain _ | frameUnwound .. => .error
  | _ => .warn

def message : Notice → String
  | realizedAfterPanic => "lazy seq realized after its producer panicked"
  | referReplaced sym var ns =>
    sym ++ " already refers to " ++ var ++ " in namespace " ++ ns ++ ", being replaced by " ++ ns ++
      "/" ++ sym
  | unknownReadEval setting =>
    "unrecognised read-eval setting " ++ Text.quoted setting ++ ", using :unknown"
  | frameNotOnChain _ => "binding frame # is not on this thread's stack, leaving bindings alone"
  | frameUnwound _ vars =>
    "unwinding unbalanced binding frame # for " ++ ", ".intercalate vars

/-- The line of the log. -/
def line (n : Notice) : String :=
  (match n.severity with
    | .warn => "WARN "
    | .error => "ERROR ") ++ n.message

end Notice

end LispCore
