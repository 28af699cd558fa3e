import LispCore.World
/-!
Actions. An action reads and changes the world and ends with a result, an error, a panic, or
because its budget ran out; whatever happens, the changes made so far stay. The budget bounds the
rounds of every loop and the depth of every recursion that the data alone does not bound, such as a
walk over a lazy sequence; an action that ends otherwise ends the same way with any larger budget.
-/

namespace LispCore

/-- How an action ends early. -/
inductive Fault where
  | error (e : Error)
  | panic (text : String)
  /-- The budget was not enough. -/
  | exhausted
deriving DecidableEq, Repr, Inhabited

/-- An action with a result. -/
abbrev Act := ReaderT Nat (EStateM Fault World)

namespace Act

variable {α β : Type}

def budget : Act Nat := fun n w => .ok n w

def fail (e : Error) : Act α := fun _ w => .error (.error e) w

def panic (text : String) : Act α := fun _ w => .error (.panic text) w

def exhausted : Act α := fun _ w => .error .exhausted w

/-- Ends with the result or the error given. -/
def ofExcept : Except Error α → Act α
  | .ok a => pure a
  | .error e => fail e

/-- Catches an error. Panics go on. -/
def attempt (x : Act α) : Act (Except Error α) := fun n w =>
  match x n w with
  | .ok a w => .ok (.ok a) w
  | .error (.error e) w => .ok (.error e) w
  | .error f w => .error f w

/-- Runs an action and then, however it ended, another one. -/
def ensure (x : Act α) (after : Act Unit) : Act α := fun n w =>
  match x n w with
  | .ok a w =>
    match after n w with
    | .ok _ w => .ok a w
    | .error f w => .error f w
  | .error f w =>
    match after n w with
    | .ok _ w => .error f w
    | .error g w => .error g w

/-- The result of an action in a world, without its changes. -/
def peek (x : Act α) (n : Nat) (w : World) (otherwise : α) : α :=
  match x n w with
  | .ok a _ => a
  | .error _ _ => otherwise

/-- A number that no list node, no early-stop marker and no handle has had. -/
def freshStamp : Act Nat :=
  modifyGet fun w => (w.nextStamp, { w with nextStamp := w.nextStamp + 1 })

/-- Reserves as many numbers, of which the first is given. -/
def freshStamps (count : Nat) : Act Nat :=
  modifyGet fun w => (w.nextStamp, { w with nextStamp := w.nextStamp + count })

def notice (n : Notice) : Act Unit := modify fun w => { w with notices := w.notices.push n }

/-- The lines that producers wrote since the last call. -/
def takeProduced : Act (Array String) :=
  modifyGet fun w => (w.produced, { w with produced := #[] })

def takeNotices : Act (Array Notice) :=
  modifyGet fun w => (w.notices, { w with notices := #[] })

end Act

/-- Interns a name. -/
def Name.intern (kind : NameKind) (ns : Option String) (name : String) : Act (Name kind) :=
  fun _ w =>
    match (w.names kind).intern kind ns name with
    | .ok (n, t) => .ok n (w.setNames t kind)
    | .error e => .error (.error e) w

/-- Reads a written name and interns it. -/
def Name.read (kind : NameKind) (s : String) : Act (Name kind) :=
  let (ns, name) := Name.parse kind s
  Name.intern kind ns name

def Symbol.plain (name : String) : Act Symbol := Name.intern .symbol none name

def Keyword.plain (name : String) : Act Keyword := Name.intern .keyword none name

def Symbol.withoutNs (s : Symbol) : Act Symbol :=
  match s.ns with
  | none => pure s
  | some _ => fun n w =>
    match Symbol.plain s.name n w with
    | .ok t w => .ok t w
    | .error _ w => .ok s w

end LispCore
