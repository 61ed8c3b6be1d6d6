/-!
# Dyadic numbers

A finite floating-point number is a natural number times a power of two, up to its sign.
`Dyadic` is that pair.  Everything exact about a floating-point number, such as its decimal
digits, is computed from it with natural numbers.

`roundHalfEven` rounds a fraction to the nearest natural number and, between two equally
near ones, to the even one.
-/

namespace StyleAudit.Decimal

/-- The number `mantissa * 2 ^ exponent`. -/
structure Dyadic where
  mantissa : Nat
  exponent : Int
  deriving DecidableEq, Repr

namespace Dyadic

/-- The numerator of the number as a fraction of natural numbers. -/
def numerator (d : Dyadic) : Nat := d.mantissa * Nat.pow 2 d.exponent.toNat

/-- The denominator of the number as a fraction of natural numbers. -/
def denominator (d : Dyadic) : Nat := Nat.pow 2 (-d.exponent).toNat

theorem denominator_pos (d : Dyadic) : 0 < d.denominator := Nat.pow_pos (by decide)

end Dyadic

/-- The size of a finite double-precision number. -/
def Dyadic.ofDouble (x : Float) : Dyadic :=
  let bits := x.toBits.toNat
  let field : Nat := bits / Nat.pow 2 52 % Nat.pow 2 11
  let low : Nat := bits % Nat.pow 2 52
  if field = 0 then ⟨low, -1074⟩ else ⟨low + Nat.pow 2 52, (field : Int) - 1075⟩

/-- The size of a finite single-precision number. -/
def Dyadic.ofSingle (x : Float32) : Dyadic :=
  let bits := x.toBits.toNat
  let field : Nat := bits / Nat.pow 2 23 % Nat.pow 2 8
  let low : Nat := bits % Nat.pow 2 23
  if field = 0 then ⟨low, -149⟩ else ⟨low + Nat.pow 2 23, (field : Int) - 150⟩

/-- The natural number nearest to `num / den`; of two equally near the even one. -/
def roundHalfEven (num den : Nat) : Nat :=
  let q := num / den
  let twice := 2 * (num % den)
  if twice < den then q
  else if twice = den then q + q % 2
  else q + 1

/-- Rounding is off by at most one half. -/
theorem roundHalfEven_spec (num den : Nat) (h : 0 < den) :
    2 * num ≤ (2 * roundHalfEven num den + 1) * den ∧
      2 * roundHalfEven num den * den ≤ 2 * num + den := by
  have hd := Nat.div_add_mod num den
  have hm := Nat.mod_lt num h
  have hq : num / den % 2 ≤ 1 := by omega
  simp only [roundHalfEven]
  generalize num / den = q at *
  generalize num % den = r at *
  subst hd
  have hc : den * q = q * den := Nat.mul_comm _ _
  split
  · constructor <;> simp only [Nat.add_mul, Nat.mul_add, Nat.mul_assoc, hc] <;> omega
  · split
    · rcases Nat.mod_two_eq_zero_or_one q with hp | hp <;>
        constructor <;> simp only [hp, Nat.add_mul, Nat.mul_add, Nat.mul_assoc, hc] <;> omega
    · constructor <;> simp only [Nat.add_mul, Nat.mul_add, Nat.mul_assoc, hc] <;> omega

/-- The number of tenths nearest to a dyadic number, halves to even. -/
def Dyadic.tenths (d : Dyadic) : Nat := roundHalfEven (10 * d.numerator) d.denominator

end StyleAudit.Decimal
