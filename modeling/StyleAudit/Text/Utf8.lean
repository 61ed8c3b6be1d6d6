import StyleAudit.Text.Basic

/-!
# Reading bytes as UTF-8

A character takes one to four bytes.  The first byte tells how many continuation bytes
follow and, in four cases, narrows the range of the first of them, which keeps out over-long
forms, surrogates and codes above `U+10FFFF` (`leadOf?`).

Bytes that are no character are reported by the longest stretch that could have begun one:
`Head.bad n` says that `n` bytes at the front are such a stretch and that the byte behind
them does not continue it, and `Head.cut` that the input ends inside it.

* `decode` reads all bytes or says where the first fault is;
* `decodeLossy` puts `U+FFFD` in the place of every stretch that is no character.
-/

namespace StyleAudit.Utf8

/-- Why bytes are not UTF-8: where the readable part ends, and how many bytes are wrong
there, unless the input just ends too early. -/
structure Fault where
  validUpTo : Nat
  length : Option Nat
  deriving DecidableEq, Repr

/-- What a fault says. -/
def Fault.message (f : Fault) : String :=
  match f.length with
  | some n =>
    "invalid utf-8 sequence of " ++ toString n ++ " bytes from index " ++ toString f.validUpTo
  | none => "incomplete utf-8 byte sequence from index " ++ toString f.validUpTo

/-! ## One character -/

/-- What the first byte of a character promises: the bits of the code that it holds, the
number of continuation bytes, and the range of the first of these. -/
structure Lead where
  bits : Nat
  more : Nat
  low : Nat
  high : Nat

/-- What a byte promises as the first of a character; nothing if it cannot be the first. -/
def leadOf? (b : UInt8) : Option Lead :=
  let n := b.toNat
  if n < 0x80 then some ⟨n, 0, 0x80, 0xBF⟩
  else if n < 0xC2 then none
  else if n < 0xE0 then some ⟨n - 0xC0, 1, 0x80, 0xBF⟩
  else if n = 0xE0 then some ⟨0, 2, 0xA0, 0xBF⟩
  else if n = 0xED then some ⟨n - 0xE0, 2, 0x80, 0x9F⟩
  else if n < 0xF0 then some ⟨n - 0xE0, 2, 0x80, 0xBF⟩
  else if n = 0xF0 then some ⟨0, 3, 0x90, 0xBF⟩
  else if n < 0xF4 then some ⟨n - 0xF0, 3, 0x80, 0xBF⟩
  else if n = 0xF4 then some ⟨4, 3, 0x80, 0x8F⟩
  else none

/-- What stands at the front of a list of bytes. -/
inductive Head where
  /-- A character, and the number of its continuation bytes. -/
  | char (c : Char) (more : Nat)
  /-- Bytes that begin no character. -/
  | bad (length : Nat)
  /-- The end of the input inside a character. -/
  | cut

/-- The continuation bytes of a character: the code so far, the number of bytes read so far
and still to come, and the range of the next one. -/
def continuation (code seen : Nat) : Nat → Nat → Nat → List UInt8 → Head
  | 0, _, _, _ => .char (Char.ofNat code) (seen - 1)
  | _ + 1, _, _, [] => .cut
  | more + 1, low, high, b :: bs =>
    if low ≤ b.toNat ∧ b.toNat ≤ high then
      continuation (64 * code + b.toNat % 64) (seen + 1) more 0x80 0xBF bs
    else .bad seen

/-- What stands at the front of the bytes `b :: bs`. -/
def headOf (b : UInt8) (bs : List UInt8) : Head :=
  match leadOf? b with
  | none => .bad 1
  | some lead => continuation lead.bits 1 lead.more lead.low lead.high bs

/-! ## All characters -/

/-- Reads bytes that begin at the given index. -/
def decodeFrom (index : Nat) : List UInt8 → Except Fault Text
  | [] => .ok []
  | b :: bs =>
    match headOf b bs with
    | .char c more => do
      let t ← decodeFrom (index + 1 + more) (bs.drop more)
      return c :: t
    | .bad n => .error ⟨index, some n⟩
    | .cut => .error ⟨index, none⟩
termination_by bs => bs.length
decreasing_by simp only [List.length_cons, List.length_drop]; omega

/-- The text that the bytes are, or the first fault. -/
def decode (bytes : List UInt8) : Except Fault Text := decodeFrom 0 bytes

/-- The text that the bytes are, with `U+FFFD` for every stretch that is no character. -/
def decodeLossy : List UInt8 → Text
  | [] => []
  | b :: bs =>
    match headOf b bs with
    | .char c more => c :: decodeLossy (bs.drop more)
    | .bad n => '\uFFFD' :: decodeLossy (bs.drop (n - 1))
    | .cut => ['\uFFFD']
termination_by bs => bs.length
decreasing_by all_goals simp only [List.length_cons, List.length_drop]; omega

/-- The bytes of a text. -/
def encode (t : Text) : List UInt8 := (String.ofList t).toUTF8.toList

end StyleAudit.Utf8
