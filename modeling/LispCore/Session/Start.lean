import LispCore.Binding.Value
import LispCore.Namespace.Registry
import LispCore.Seq.Build
/-!
Starting a session. The well-known vars are interned once, in the core namespace, with the initial
values given here; afterwards code changes them by binding. The user namespace refers to everything
public in the core namespace.
-/

namespace LispCore

namespace Stream

/-- A new handle onto the stream. -/
def toValue (s : Stream) : Act Value := do
  return .handle ⟨← Act.freshStamp, "StdStream", s.label, .stream s⟩

/-- The stream that a value stands for. -/
def ofValue? : Value → Option Stream
  | .handle ⟨_, _, _, .stream s⟩ => some s
  | _ => none

def debugText : Stream → String
  | stdin => "Stdin"
  | stdout => "Stdout"
  | stderr => "Stderr"

end Stream

namespace Session

/-- The name of the core namespace. -/
def coreName : String := "kestrel.core"

/-- The name of the namespace that new sessions start in. -/
def userName : String := "user"

/-- The setting of `*read-eval*`: true, false, or for anything else `:unknown`. -/
def readEvalValue (setting : String) : Act Value :=
  if setting = "true" then pure (.bool true)
  else if setting = "false" then pure (.bool false)
  else do
    Act.notice (.unknownReadEval setting)
    return .keyword (← Name.read .keyword "unknown")

/-- The arguments as a list of strings; nil when there are none. -/
def argumentsValue (arguments : List String) : Act Value :=
  if arguments.isEmpty then pure .nil
  else do return .list (← Linked.ofList (arguments.map Value.str))

def internKeywords : Act CoreKeywords := do
  return {
    tag := ← Keyword.plain "tag"
    constant := ← Keyword.plain "const"
    line := ← Keyword.plain "line"
    column := ← Keyword.plain "column"
    file := ← Keyword.plain "file"
    declared := ← Keyword.plain "declared"
    doc := ← Keyword.plain "doc" }

/-- Interns a dynamic var of the core namespace. -/
def internCore (core : Namespace) (name : String) (init : Value) : Act Var := do
  core.internDynamic (← Symbol.plain name) (some init)

def internVars (core : Namespace) (config : Config) : Act CoreVars := do
  let arguments ← argumentsValue config.arguments
  return {
    stdin := ← internCore core "*in*" (← Stream.stdin.toValue)
    stdout := ← internCore core "*out*" (← Stream.stdout.toValue)
    stderr := ← internCore core "*err*" (← Stream.stderr.toValue)
    currentNs := ← internCore core "*ns*" (← core.toValue)
    printMeta := ← internCore core "*print-meta*" (.bool false)
    printReadably := ← internCore core "*print-readably*" (.bool true)
    printDup := ← internCore core "*print-dup*" (.bool false)
    printLength := ← internCore core "*print-length*" .nil
    readEval := ← internCore core "*read-eval*" (← readEvalValue config.readEval)
    dataReaders := ← internCore core "*data-readers*" (.map .empty)
    defaultDataReadersFn := ← internCore core "*default-data-readers-fn*" (.map .empty)
    defaultDataReaders := ← internCore core "*default-data-readers*" (.map .empty)
    arguments := ← internCore core "*command-line-args*" arguments
    agent := ← internCore core "*agent*" .nil
    fnLoader := ← internCore core "*fn-loader*" .nil
    inNs := ← core.internVar (← Symbol.plain "in-ns") (some (.bool false))
    ns := ← core.internVar (← Symbol.plain "ns") (some (.bool false))
    printInitialized := ← core.intern (← Symbol.plain "print-initialized") }

/-- Starts a session with a registry of its own. -/
def start (config : Config) : Act Session := do
  let registry ← Registry.make
  let core ← registry.findOrCreate (← Symbol.plain coreName)
  let user ← registry.findOrCreate (← Symbol.plain userName)
  let vars ← internVars core config
  user.referAll core
  return { registry, core, user, vars, config, keywords := ← internKeywords }

/-- The session shared by the process, started with these settings on first use. -/
def sharedWith (config : Config) : Act Session := do
  match (← get).shared with
  | some s => return s
  | none =>
    let s ← start config
    modify fun w => { w with shared := some s }
    return s

end Session

end LispCore
