import LispCore.Error
import LispCore.Name.Basic
import LispCore.Table
import LispCore.Text.Blank
/-!
Intern tables. A table gives each pair of a namespace and a plain name one serial number, for good;
nothing is ever evicted. A name is refused when its plain name is empty or holds white space, or its
namespace is given and is empty or holds white space, checked in this order.
-/

namespace LispCore

/-- The names interned so far, with their serial numbers. -/
structure InternTable where
  serials : Table (Option String × String) Nat := {}
deriving Inhabited

namespace InternTable

/-- The number of names interned so far; it is also the next serial number. -/
def size (t : InternTable) : Nat := t.serials.size

/-- Checks the parts of a name. -/
def validate (ns : Option String) (name : String) : Except Error Unit :=
  if name.isEmpty then .error (.invalidName name "empty name")
  else if Text.hasBlank name then .error (.invalidName name "name contains whitespace")
  else
    match ns with
    | none => .ok ()
    | some ns =>
      if ns.isEmpty then .error (.invalidName name "empty namespace")
      else if Text.hasBlank ns then .error (.invalidName ns "namespace contains whitespace")
      else .ok ()

/-- The serial number of a name, given out now if the name is new. -/
def serialOf (t : InternTable) (ns : Option String) (name : String) : Nat × InternTable :=
  match t.serials.find? (ns, name) with
  | some serial => (serial, t)
  | none => (t.size, ⟨t.serials.insert (ns, name) t.size⟩)

/-- Interns a name; a refused name leaves the table as it was. -/
def intern (t : InternTable) (kind : NameKind) (ns : Option String) (name : String) :
    Except Error (Name kind × InternTable) :=
  match validate ns name with
  | .error e => .error e
  | .ok () =>
    let (serial, t) := t.serialOf ns name
    .ok (⟨serial, ns, name⟩, t)

end InternTable

end LispCore
