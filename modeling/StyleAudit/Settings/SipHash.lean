/-!
# SipHash

SipHash turns a list of bytes into a word of 64 bits.  It keeps four words, stirs in the bytes
eight at a time, least significant first, with some rounds after each, and finishes with the
length and some more rounds.  `SipHash.hash` takes both numbers of rounds and the key as
parameters.
-/

namespace StyleAudit.SipHash

/-- The four words. -/
structure State where
  a : UInt64
  b : UInt64
  c : UInt64
  d : UInt64
  deriving DecidableEq, Repr

/-- The word with its bits moved up by `n` places, those at the top coming in again at the
bottom. -/
def rotate (x n : UInt64) : UInt64 := (x <<< n) ||| (x >>> (64 - n))

/-- One round. -/
def round (s : State) : State :=
  let a := s.a + s.b
  let b := rotate s.b 13 ^^^ a
  let a := rotate a 32
  let c := s.c + s.d
  let d := rotate s.d 16 ^^^ c
  let a := a + d
  let d := rotate d 21 ^^^ a
  let c := c + b
  let b := rotate b 17 ^^^ c
  let c := rotate c 32
  ⟨a, b, c, d⟩

/-- Several rounds. -/
def rounds : Nat → State → State
  | 0, s => s
  | n + 1, s => rounds n (round s)

/-- The state before any byte, from the two halves of the key. -/
def init (k₀ k₁ : UInt64) : State :=
  ⟨k₀ ^^^ 0x736f6d6570736575, k₁ ^^^ 0x646f72616e646f6d, k₀ ^^^ 0x6c7967656e657261,
    k₁ ^^^ 0x7465646279746573⟩

/-- The word that bytes make, least significant first. -/
def wordOf (bytes : List UInt8) : UInt64 :=
  bytes.foldr (fun byte word => (word <<< 8) ||| byte.toUInt64) 0

/-- Stirs in one word. -/
def absorb (n : Nat) (s : State) (word : UInt64) : State :=
  let s := rounds n { s with d := s.d ^^^ word }
  { s with a := s.a ^^^ word }

/-- Stirs in bytes, and behind them their whole number, of which the last byte counts. -/
def absorbAll (n length : Nat) (s : State) (bytes : List UInt8) : State :=
  if bytes.length < 8 then
    absorb n s (wordOf bytes ||| (UInt64.ofNat (length % 256) <<< 56))
  else absorbAll n length (absorb n s (wordOf (bytes.take 8))) (bytes.drop 8)
termination_by bytes.length
decreasing_by simp only [List.length_drop]; omega

/-- The hash of a list of bytes, with the given number of rounds after each word and at the
end. -/
def hash (perWord atEnd : Nat) (k₀ k₁ : UInt64) (bytes : List UInt8) : UInt64 :=
  let s := absorbAll perWord bytes.length (init k₀ k₁) bytes
  let s := rounds atEnd { s with c := s.c ^^^ 0xff }
  s.a ^^^ s.b ^^^ s.c ^^^ s.d

end StyleAudit.SipHash
