import LispCore.Digest
import LispCore.Seq.Walk
/-!
Hashing. A value feeds tokens to a hasher: sequential values of every kind feed one common mark and
then their elements, up to the first failure; any other value feeds its kind and what tells it from
others of that kind. A map feeds the sum of the digests of its entries, which does not depend on
their order, and an early-stop marker what its value feeds. `feed` takes the digest of entries as an
argument; `hash` digests the tokens of a value as the bytes that they stand for.
-/

namespace LispCore

/-- What a value feeds to a hasher. -/
inductive Token where
  /-- The common mark of sequential values. -/
  | sequential
  /-- The mark of any other kind. -/
  | kind (n : UInt64)
  | bool (b : Bool)
  | char (c : Char)
  | word (n : UInt64)
  | text (s : String)
deriving DecidableEq, Repr, Inhabited

namespace Token

/-- The bytes of a token. Numbers have a fixed width and a byte that no text holds ends a text. -/
def bytes : Token → List UInt8
  | sequential => [0x5E]
  | kind n | word n => Digest.bytesOf 8 n
  | bool b => [b.toUInt8]
  | char c => Digest.bytesOf 4 c.toNat.toUInt64
  | text s => s.toList.flatMap String.utf8EncodeChar ++ [0xFF]

def digest (tokens : Array Token) : UInt64 := Digest.ofBytes (tokens.toList.flatMap bytes)

end Token

namespace Value

/-- Feeds the elements of a walk, up to its end or failure. -/
def feedItems (feed : Value → Act (Array Token)) :
    (rounds : Nat) → Array Token → Walk → Act (Array Token)
  | 0, _, _ => Act.exhausted
  | rounds + 1, out, walk => do
    match ← walk.pull with
    | (some (.ok x), walk) =>
      let tokens ← feed x
      feedItems feed rounds (out ++ tokens) walk
    | _ => return out

/-- The sum of the digests of entries. -/
def sumEntries (digest : Array Token → UInt64) (feed : Value → Act (Array Token)) :
    UInt64 → List (Value × Value) → Act UInt64
  | sum, [] => pure sum
  | sum, e :: es => do
    let key ← feed e.1
    let val ← feed e.2
    sumEntries digest feed (sum + digest (key ++ val)) es

/-- The tokens of a value; `depth` bounds how deep values nest. -/
def feedAt (digest : Array Token → UInt64) : (depth : Nat) → Value → Act (Array Token)
  | 0, _ => Act.exhausted
  | depth + 1, v =>
    if v.isSequential then do
      match ← Act.attempt (Walk.of v) with
      | .ok walk => feedItems (feedAt digest depth) (← Act.budget) #[.sequential] walk
      | .error _ => return #[.sequential]
    else
      match v with
      | nil => pure #[.kind 0]
      | bool b => pure #[.kind 1, .bool b]
      | int n => pure #[.kind 2, .word n.toUInt64]
      | float bits => pure #[.kind 3, .word bits]
      | char c => pure #[.kind 4, .char c]
      | str s => pure #[.kind 5, .text s]
      | symbol s => pure #[.kind 6, .word s.serial.toUInt64]
      | keyword k => pure #[.kind 7, .word k.serial.toUInt64]
      | map m => do
        let sum ← sumEntries digest (feedAt digest depth) 0 m.toList
        return #[.kind 11, .word sum, .word m.count.toUInt64]
      | var v => pure #[.kind 14, .word v.id.toUInt64]
      | reduced _ v => do return #[.kind 15] ++ (← feedAt digest depth v)
      | handle h => pure #[.kind 16, .word h.id.toUInt64]
      | _ => pure #[]

/-- A sequential value feeds the common mark and its elements, whatever its kind. -/
theorem feedAt_sequential (digest : Array Token → UInt64) (depth : Nat) {v : Value}
    (hv : v.isSequential = true) :
    feedAt digest (depth + 1) v = (do
      match ← Act.attempt (Walk.of v) with
      | .ok walk => feedItems (feedAt digest depth) (← Act.budget) #[.sequential] walk
      | .error _ => return #[.sequential]) := by
  cases v <;> cases hv <;> rfl

/-- The tokens that a value feeds to a hasher. -/
def feed (digest : Array Token → UInt64) (v : Value) : Act (Array Token) := do
  feedAt digest (← Act.budget) v

def hash (v : Value) : Act UInt64 := do return Token.digest (← v.feed Token.digest)

end Value

end LispCore
