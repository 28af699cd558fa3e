/-!
Identities. Lazy sequences, vars, namespaces and registries are known by number; what they hold is
looked up in the world. A handle stands for something of the host that values carry around without
looking inside: handles are the same when their numbers are.
-/

namespace LispCore

structure Lazy where
  id : Nat
deriving DecidableEq, Repr, Inhabited

structure Var where
  id : Nat
deriving DecidableEq, Repr, Inhabited

structure Namespace where
  id : Nat
deriving DecidableEq, Repr, Inhabited

structure Registry where
  id : Nat
deriving DecidableEq, Repr, Inhabited

inductive Stream where
  | stdin
  | stdout
  | stderr
deriving DecidableEq, Repr, Inhabited

/-- What a handle stands for. -/
inductive Referent where
  /-- Something only the host knows. -/
  | foreign
  | stream (s : Stream)
  | names (ns : Namespace)
deriving DecidableEq, Repr, Inhabited

/-- A handle onto something of the host. -/
structure Handle where
  id : Nat
  kind : String
  label : String
  referent : Referent
deriving DecidableEq, Repr, Inhabited

/-- The label of a standard stream. -/
def Stream.label : Stream → String
  | stdin => "stdin"
  | stdout => "stdout"
  | stderr => "stderr"

end LispCore
