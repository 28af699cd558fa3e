/-!
Digests of bytes by SipHash-1-3 under the zero key. Bytes are absorbed in blocks of eight, low end
first. The last block holds the bytes that are left, fewer than eight, and at its high end the number
of all bytes modulo 256, so that trailing zeros count. The same bytes have the same digest in every
run, and with it the order of the entries of a hashed map.
-/

namespace LispCore

/-- The state of a digest: four words. -/
structure Digest where
  a : UInt64
  b : UInt64
  c : UInt64
  d : UInt64
deriving DecidableEq, Repr, Inhabited

namespace Digest

def start : Digest :=
  ⟨0x736F6D6570736575, 0x646F72616E646F6D, 0x6C7967656E657261, 0x7465646279746573⟩

def rotate (x n : UInt64) : UInt64 := (x <<< n) ||| (x >>> (64 - n))

def mix (s : Digest) : Digest :=
  let a := s.a + s.b
  let b := rotate s.b 13 ^^^ a
  let a := rotate a 32
  let c := s.c + s.d
  let d := rotate s.d 16 ^^^ c
  let a := a + d
  let d := rotate d 21 ^^^ a
  let c := c + b
  let b := rotate b 17 ^^^ c
  ⟨a, b, rotate c 32, d⟩

def absorb (s : Digest) (block : UInt64) : Digest :=
  let s := mix { s with d := s.d ^^^ block }
  { s with a := s.a ^^^ block }

/-- The digest of what has been absorbed. -/
def finish (s : Digest) : UInt64 :=
  let s := mix (mix (mix { s with c := s.c ^^^ 0xFF }))
  s.a ^^^ s.b ^^^ s.c ^^^ s.d

/-- The low bytes of a word, lowest first. -/
def bytesOf (count : Nat) (word : UInt64) : List UInt8 :=
  (List.range count).map fun i => (word >>> UInt64.ofNat (8 * i)).toUInt8

/-- The word of at most eight bytes, lowest first. -/
def wordOf (bytes : List UInt8) : UInt64 := bytes.foldr (fun b w => (w <<< 8) ||| b.toUInt64) 0

/-- Absorbs bytes that end a message of this length. -/
def ofRest (length : Nat) (s : Digest) : List UInt8 → UInt64
  | p :: q :: r :: t :: u :: v :: w :: x :: rest =>
    ofRest length (s.absorb (wordOf [p, q, r, t, u, v, w, x])) rest
  | rest => (s.absorb ((UInt64.ofNat length <<< 56) ||| wordOf rest)).finish

def ofBytes (bytes : List UInt8) : UInt64 := ofRest bytes.length start bytes

/-- The digest of the empty message, as a known value. -/
example : ofBytes [] = 0xD1FBA762150C532C := by decide +kernel

end Digest

end LispCore
