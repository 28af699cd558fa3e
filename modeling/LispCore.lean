import LispCore.Binding.Convey
import LispCore.Collection.Steps
import LispCore.Print.Debug
import LispCore.Seq.Known
import LispCore.Session.Use
import LispCore.Proofs.Binding.Guards
import LispCore.Proofs.Binding.Visible
import LispCore.Proofs.Binding.Renaming
import LispCore.Proofs.Binding.Tasks
import LispCore.Proofs.Binding.Owners
import LispCore.Proofs.Binding.Setting
import LispCore.Proofs.Binding.Conveyance
import LispCore.Proofs.Binding.Nesting
import LispCore.Proofs.Lazy.Refinement
import LispCore.Proofs.Lazy.Course
import LispCore.Proofs.Trie.FiniteMap
import LispCore.Proofs.Trie.Walk
import LispCore.Proofs.Trie.Canonical
import LispCore.Proofs.Trie.Bounds
import LispCore.Proofs.Value.Equality
import LispCore.Proofs.Seq.Agreement
import LispCore.Proofs.Seq.Uses
import LispCore.Proofs.Seq.EarlyStop
import LispCore.Proofs.Seq.Markers
import LispCore.Proofs.Seq.Splicing
import LispCore.Proofs.Seq.Rests
import LispCore.Proofs.Seq.Draining
import LispCore.Proofs.Seq.OnElement
import LispCore.Proofs.Vector.Views
import LispCore.Proofs.Map.Keys
import LispCore.Proofs.Map.KeptKeys
import LispCore.Proofs.Map.Merge
import LispCore.Proofs.Map.Insertion
import LispCore.Proofs.Map.Slots
import LispCore.Proofs.Collection.Presence
import LispCore.Proofs.Collection.Stacks
import LispCore.Proofs.Collection.Bounds
import LispCore.Proofs.Name.Written
import LispCore.Proofs.Name.Interning
import LispCore.Proofs.Namespace.Steps
import LispCore.Proofs.Namespace.Ownership
import LispCore.Proofs.Namespace.Resolution
import LispCore.Proofs.Namespace.Entries
import LispCore.Proofs.Session.Failure
import LispCore.Proofs.Session.Switching
import LispCore.Proofs.Print.Quoting
import LispCore.Proofs.Print.Limited
import LispCore.Proofs.Print.Capped
import LispCore.Proofs.Lazy.Course
