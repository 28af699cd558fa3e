import LispCore.Name.Basic
import LispCore.Text.Quoted
import LispCore.Value.Handle
/-!
Sessions. A session has a registry of its own with the core and the user namespace, the well-known
vars that every layer reads, the metadata keywords, and the settings that it was started with.
-/

namespace LispCore

/-- The settings fixed when a session starts. -/
structure Config where
  /-- `true`, `false`, or anything else for unknown. -/
  readEval : String := "true"
  /-- The command line arguments. -/
  arguments : List String := []
deriving DecidableEq, Repr, Inhabited

namespace Config

/-- The environment variable with the setting for `*read-eval*`. -/
def readEvalVariable : String := "KESTREL_READ_EVAL"

/-- The value of an environment variable, or the default when it is not set. -/
def variableOr (environment : String → Option String) (key default : String) : String :=
  (environment key).getD default

/-- The settings of an environment and a command line, whose first word is the program. -/
def ofEnvironment (environment : String → Option String) (commandLine : List String) : Config :=
  { readEval := variableOr environment readEvalVariable "true", arguments := commandLine.drop 1 }

def debugText (c : Config) : String :=
  "RuntimeConfig \x7b read_eval: " ++ Text.quoted c.readEval ++ ", command_line_args: [" ++
    ", ".intercalate (c.arguments.map Text.quoted) ++ "] \x7d"

end Config

/-- The well-known vars of the core namespace. -/
structure CoreVars where
  stdin : Var
  stdout : Var
  stderr : Var
  currentNs : Var
  printMeta : Var
  printReadably : Var
  printDup : Var
  printLength : Var
  readEval : Var
  dataReaders : Var
  defaultDataReadersFn : Var
  defaultDataReaders : Var
  arguments : Var
  agent : Var
  fnLoader : Var
  inNs : Var
  ns : Var
  printInitialized : Var
deriving Repr, Inhabited

/-- The vars in their order, with the names of the fields. -/
def CoreVars.fields (c : CoreVars) : List (String × Var) :=
  [("stdin", c.stdin), ("stdout", c.stdout), ("stderr", c.stderr), ("current_ns", c.currentNs),
    ("print_meta", c.printMeta), ("print_readably", c.printReadably), ("print_dup", c.printDup),
    ("print_length", c.printLength), ("read_eval", c.readEval), ("data_readers", c.dataReaders),
    ("default_data_readers_fn", c.defaultDataReadersFn),
    ("default_data_readers", c.defaultDataReaders), ("command_line_args", c.arguments),
    ("agent", c.agent), ("fn_loader", c.fnLoader), ("in_ns", c.inNs), ("ns", c.ns),
    ("print_initialized", c.printInitialized)]

/-- The keywords that stand for metadata of forms and vars. -/
structure CoreKeywords where
  tag : Keyword
  constant : Keyword
  line : Keyword
  column : Keyword
  file : Keyword
  declared : Keyword
  doc : Keyword
deriving Repr, Inhabited

def CoreKeywords.toList (k : CoreKeywords) : List Keyword :=
  [k.tag, k.constant, k.line, k.column, k.file, k.declared, k.doc]

structure Session where
  registry : Registry
  core : Namespace
  user : Namespace
  vars : CoreVars
  keywords : CoreKeywords
  config : Config
deriving Repr, Inhabited

end LispCore
