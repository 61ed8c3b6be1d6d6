import StyleAudit.Settings.Config
import StyleAudit.Settings.SipHash

/-!
# The fingerprint of a configuration

Reports carry a fingerprint of the configuration they were made with.  It is a hash of bytes
that hold everything in the configuration: `Config.encode` writes texts with the byte `255`
behind them, which no text contains, lists with their length in front, and choices as
numbers.  Numbers take eight bytes, least significant first.
-/

namespace StyleAudit.Config

/-- A number in eight bytes, least significant first. -/
def encodeNat (n : Nat) : List UInt8 :=
  (List.range 8).map fun i => UInt8.ofNat (n >>> (8 * i))

/-- A text with the byte behind it that ends it. -/
def encodeText (t : Text) : List UInt8 := Utf8.encode t ++ [0xff]

/-- A list of texts. -/
def encodeTexts (ts : List Text) : List UInt8 := encodeNat ts.length ++ ts.flatMap encodeText

/-- A text that may be missing. -/
def encodeOption : Option Text → List UInt8
  | none => encodeNat 0
  | some t => encodeNat 1 ++ encodeText t

/-- A check under its name. -/
def encodeCheck (id : Text) (rule : CheckRule) : List UInt8 :=
  encodeText id ++ encodeText rule.description ++ encodeNat rule.severity.rank ++
    [if rule.enabled then 1 else 0]

/-- Everything in a configuration. -/
def encode (c : Config) : List UInt8 :=
  encodeText c.version ++ encodeTexts c.paths.patterns ++ encodeOption c.paths.ignoreFile ++
    encodeTexts c.paths.extensions ++ c.checks.toList.flatMap fun (id, rule) => encodeCheck id rule

/-- The fingerprint of a configuration, in hexadecimal digits. -/
def fingerprint (c : Config) : String :=
  String.ofList (Nat.toDigits 16 (SipHash.hash 1 3 0 0 c.encode).toNat)

end StyleAudit.Config
