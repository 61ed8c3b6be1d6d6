import Mathlib.Data.List.Infix
import StyleAudit.Proofs.Extract.Walk

/-!
# Colours written with a hash

The catalogue of colours lists hexadecimal ones of three, six and eight digits.  Its pattern is
looked for anywhere in a value and says nothing about what stands behind the digits, so the longer
lengths never decide: wherever six or eight digits match, three of them do, and three are tried
first (`firstOf_hexDigits`).

So a value that is no colour name and calls no colour function holds a colour **exactly if three
hexadecimal digits stand behind some hash in it**, however long the run is that they begin and
whatever ends it (`holdsColor_iff_hexRun`).  A run of a listed length that a name does not go on
behind (`IsListedHex`) is one of these, but so is the front of the address `url(#face)`
(`exists_holdsColor_unlisted`).

* `Pattern.occursIn_iff` --- a pattern occurs where it matches at the front of an end of the text;
* `isSome_hexColor_iff`, `prefix_of_call` --- what a hash and a function match.
-/

namespace StyleAudit
namespace Css

/-! ## Patterns -/

namespace Pattern

/-- **A pattern occurs in a text where one of the text's ends begins with a match.** -/
theorem occursIn_iff {p : Pattern} {t : Text} :
    p.occursIn t = true ↔ ∃ r, r <:+ t ∧ (p r).isSome = true := by
  induction t with
  | nil =>
    constructor
    · exact fun h => ⟨[], List.suffix_rfl, h⟩
    · rintro ⟨r, hr, h⟩
      rwa [List.suffix_nil.mp hr] at h
  | cons c t ih =>
    rw [occursIn, Bool.or_eq_true, ih]
    constructor
    · rintro (h | ⟨r, hr, h⟩)
      · exact ⟨c :: t, List.suffix_rfl, h⟩
      · exact ⟨r, hr.trans (List.suffix_cons c t), h⟩
    · rintro ⟨r, hr, h⟩
      rcases List.suffix_cons_iff.mp hr with rfl | hr
      · exact .inl h
      · exact .inr ⟨r, hr, h⟩

theorem chain_cons (p : Pattern) (ps : List Pattern) (t : Text) :
    chain (p :: ps) t = (p t).bind (chain ps) := rfl

theorem chain_singleton (p : Pattern) : chain [p] = p :=
  funext fun t => Option.bind_fun_some (p t)

/-- What a literal matches is at the front of the text. -/
theorem eq_of_literal {u t r : Text} (h : literal u t = some r) : t = u ++ r := by
  rw [literal] at h
  split at h
  next hprefix =>
    obtain ⟨rest, rfl⟩ := List.isPrefixOf_iff_prefix.mp hprefix
    rw [List.drop_left] at h
    rw [Option.some.inj h]
  next => cases h

/-- A call begins with its name and a parenthesis. -/
theorem prefix_of_call {name : String} {arguments : List Pattern} {t : Text}
    (h : (call name arguments t).isSome = true) : name.toList ++ ['('] <+: t := by
  obtain ⟨r, hr⟩ := Option.isSome_iff_exists.mp h
  obtain ⟨behindName, hname, hr⟩ := Option.bind_eq_some_iff.mp hr
  obtain ⟨behindParen, hparen, -⟩ := Option.bind_eq_some_iff.mp hr
  exact ⟨behindParen, by rw [eq_of_literal hname, eq_of_literal hparen, List.append_assoc]⟩

end Pattern

open Pattern

/-! ## Hashes -/

/-- How many hexadecimal digits stand at the front of the text. -/
def hexRun (t : Text) : Nat := (t.takeWhile isHexDigit).length

/-- Behind some hash in the text stands something of which `P` holds. -/
def HasHash (P : Text → Prop) (t : Text) : Prop := ∃ r, '#' :: r <:+ t ∧ P r

/-- What stands behind a hash begins with as many hexadecimal digits as the catalogue lists, and
neither a letter nor a digit nor one of the marks that join words goes on behind them. -/
def IsListedHex (r : Text) : Prop :=
  hexRun r ∈ [3, 6, 8] ∧
    ∀ c ∈ (r.drop (hexRun r)).head?, c.isAlphanum = false ∧ c ≠ '-' ∧ c ≠ '_'

theorem hexRun_cons {c : Char} {t : Text} :
    hexRun (c :: t) = if isHexDigit c then hexRun t + 1 else 0 := by
  rw [hexRun, List.takeWhile_cons]
  split <;> rfl

/-- **So many digits match exactly if the text begins with a run as long.** -/
theorem isSome_hexDigits_iff {n : Nat} {t : Text} :
    (hexDigits n t).isSome = true ↔ n ≤ hexRun t := by
  induction n generalizing t with
  | zero => exact iff_of_true rfl (Nat.zero_le _)
  | succ n ih =>
    rw [hexDigits, List.replicate_succ, chain_cons, ← hexDigits]
    cases t with
    | nil => exact iff_of_false Bool.false_ne_true (Nat.not_succ_le_zero n)
    | cons c t =>
      rw [hexDigit, hexRun_cons]
      split
      · rw [Option.bind_some, ih, Nat.succ_le_succ_iff]
      · exact iff_of_false Bool.false_ne_true (Nat.not_succ_le_zero n)

/-- **An alternative that matches wherever the later ones do is the only one that counts.** -/
theorem firstOf_cons_eq {p : Pattern} {ps : List Pattern}
    (h : ∀ q ∈ ps, ∀ t, (q t).isSome = true → (p t).isSome = true) : firstOf (p :: ps) = p := by
  funext t
  rw [firstOf, List.findSome?_cons]
  cases hp : p t with
  | some r => rfl
  | none =>
    refine List.findSome?_eq_none_iff.mpr fun q hq => ?_
    rw [← Option.not_isSome_iff_eq_none]
    intro hsome
    have hmatch := h q hq t hsome
    rw [hp] at hmatch
    cases hmatch

/-- **Of three, six or eight digits three are taken.** -/
theorem firstOf_hexDigits : firstOf ([3, 6, 8].map hexDigits) = hexDigits 3 := by
  refine firstOf_cons_eq fun q hq t hsome => ?_
  obtain ⟨n, hn, rfl⟩ := List.mem_map.mp hq
  have hle : 3 ≤ n := (by decide : ∀ n ∈ [6, 8], 3 ≤ n) n hn
  exact isSome_hexDigits_iff.mpr (Nat.le_trans hle (isSome_hexDigits_iff.mp hsome))

/-- **The pattern asks for three digits and stops there.** -/
theorem isSome_hexColor_iff {t : Text} :
    (hexColor t).isSome = true ↔ ∃ r, t = '#' :: r ∧ 3 ≤ hexRun r := by
  rw [hexColor, firstOf_hexDigits, chain_cons, chain_singleton]
  constructor
  · intro h
    obtain ⟨rest, hrest⟩ := Option.isSome_iff_exists.mp h
    obtain ⟨r, hr, hdigits⟩ := Option.bind_eq_some_iff.mp hrest
    exact ⟨r, eq_of_literal hr, isSome_hexDigits_iff.mp (Option.isSome_of_eq_some hdigits)⟩
  · rintro ⟨r, rfl, hrun⟩
    rw [literal, if_pos (by simp), Option.bind_some]
    exact isSome_hexDigits_iff.mpr hrun

example : (hexColor "#face)".toList).isSome = true := by decide

/-! ## Values -/

/-- The calls that the catalogue lists, up to their parenthesis. -/
def colorCalls : List Text := ["rgb(", "rgba(", "hsl(", "hsla("].map String.toList

/-- Without a call and a name of the catalogue, hashes decide. -/
theorem holdsColor_eq_occursIn {v : Text} (hcalls : ∀ f ∈ colorCalls, ¬ f <:+: v)
    (hname : v ∉ namedColors) : holdsColor v = hexColor.occursIn v := by
  have hcall : ∀ name arguments, name.toList ++ ['('] ∈ colorCalls →
      (call name arguments).occursIn v = false := by
    intro name arguments hmem
    rw [Bool.eq_false_iff]
    intro hoccurs
    obtain ⟨r, hr, hcall⟩ := occursIn_iff.mp hoccurs
    exact hcalls _ hmem ((prefix_of_call hcall).isInfix.trans hr.isInfix)
  have hcontains : namedColors.contains v = false := by
    rw [Bool.eq_false_iff, Ne, List.contains_iff_mem]
    exact hname
  rw [holdsColor, hcontains, Bool.or_false, colorPatterns]
  simp only [List.any_cons, List.any_nil, Bool.or_false]
  rw [hcall "rgb", hcall "rgba", hcall "hsl", hcall "hsla"]
  · simp only [Bool.or_false]
  all_goals decide

/-- Without a call and a name of the catalogue, three digits behind a hash decide. -/
theorem holdsColor_iff_hasHash {v : Text} (hcalls : ∀ f ∈ colorCalls, ¬ f <:+: v)
    (hname : v ∉ namedColors) : holdsColor v = true ↔ HasHash (3 ≤ hexRun ·) v := by
  rw [holdsColor_eq_occursIn hcalls hname, Pattern.occursIn_iff]
  constructor
  · rintro ⟨_, hr, h⟩
    obtain ⟨r, rfl, hrun⟩ := isSome_hexColor_iff.mp h
    exact ⟨r, hr, hrun⟩
  · rintro ⟨r, hr, hrun⟩
    exact ⟨_, hr, isSome_hexColor_iff.mpr ⟨r, rfl, hrun⟩⟩

/-- Three digits behind a hash tell a run of a listed length exactly if there is one, or if no hash
has three digits behind it. -/
theorem hasHash_iff_isListedHex {v : Text} :
    (HasHash (3 ≤ hexRun ·) v ↔ HasHash IsListedHex v) ↔
      HasHash IsListedHex v ∨ ∀ r, '#' :: r <:+ v → hexRun r < 3 := by
  have hlisted : HasHash IsListedHex v → HasHash (3 ≤ hexRun ·) v := by
    rintro ⟨r, hr, hmem, -⟩
    refine ⟨r, hr, ?_⟩
    simp only [List.mem_cons, List.not_mem_nil, or_false] at hmem
    omega
  constructor
  · intro hiff
    by_cases hthree : HasHash (3 ≤ hexRun ·) v
    · exact .inl (hiff.mp hthree)
    · exact .inr fun r hr => Nat.lt_of_not_le fun hrun => hthree ⟨r, hr, hrun⟩
  · rintro (h | h)
    · exact iff_of_true (hlisted h) h
    · have hthree : ¬ HasHash (3 ≤ hexRun ·) v := fun ⟨r, hr, hrun⟩ =>
        absurd (h r hr) (Nat.not_lt_of_le hrun)
      exact iff_of_false hthree fun h => hthree (hlisted h)

end Css

namespace Extract

open Css

/-- **A value without names and calls of colours holds a colour exactly if three hexadecimal digits
stand behind some hash in it.**  That is a run of a listed length exactly if there is such a run, or
if no hash has three digits behind it; and a declaration of any other property than those of colours
is listed among the colours of a stylesheet exactly by that test of its value. -/
theorem holdsColor_iff_hexRun {v : Text} (hcalls : ∀ f ∈ colorCalls, ¬ f <:+: v)
    (hname : v ∉ namedColors) :
    (holdsColor v = true ↔ HasHash (3 ≤ hexRun ·) v) ∧
    ((holdsColor v = true ↔ HasHash IsListedHex v) ↔
      HasHash IsListedHex v ∨ ∀ r, '#' :: r <:+ v → hexRun r < 3) ∧
    ∀ t rules, loadSheet t = .ok rules → ∃ table, colors (Utf8.encode t) = .ok table ∧
      ∀ p ∈ walk t, p.2.value = v → (∀ name ∈ colorProperties, p.2.isNamed name = false) →
        table.getD p.1 [] =
          ((walk t).filter fun q => q.bearsColor && q.1 == p.1).map Located.line ∧
        (p.bearsColor = true ↔ HasHash (3 ≤ hexRun ·) v) := by
  have hholds := holdsColor_iff_hasHash hcalls hname
  refine ⟨hholds, by rw [hholds, hasHash_iff_isListedHex], fun t rules hload => ?_⟩
  obtain ⟨-, -, rfl⟩ := loadSheet_eq_ok_iff.mp hload
  have hread : readSheet (Utf8.encode t) = .ok (parseStylesheet t) :=
    (readSheet_encode t).trans hload
  refine ⟨collectColors ∅ (parseStylesheet t), by rw [colors, hread]; rfl,
    fun p hp hvalue hproperty => ⟨?_, ?_⟩⟩
  · rw [Std.TreeMap.getD_eq_getD_getElem?, getElem?_collectColors, walk]
    cases (walkRules (parseStylesheet t)).filter fun q => q.bearsColor && q.1 == p.1 <;> rfl
  · have hnone : colorProperties.any p.2.name.sameName = false :=
      List.any_eq_false.mpr fun name hname => Bool.eq_false_iff.mp (hproperty name hname)
    rw [Located.bearsColor, bearsColor, hnone, Bool.false_or, hvalue, hholds]

/-- The address of an icon in the same document. -/
def iconAddress : Text := "url(#face)".toList

theorem plain_iconAddress :
    (∀ f ∈ colorCalls, ¬ f <:+: iconAddress) ∧ iconAddress ∉ namedColors := by
  decide +kernel

/-- Behind the one hash stands a run of four digits. -/
theorem not_hasHash_iconAddress : ¬ HasHash IsListedHex iconAddress := by
  have hone : ∀ s ∈ iconAddress.tails, s.head? = some '#' → hexRun s.tail = 4 := by
    decide +kernel
  rintro ⟨r, hr, hlisted, -⟩
  have hrun : hexRun r = 4 := hone ('#' :: r) ((List.mem_tails _ _).mpr hr) rfl
  rw [hrun] at hlisted
  exact absurd hlisted (by decide)

/-- A stylesheet that fills a shape from another one, and the value that it gives. -/
def filledShape : Text := ".a { fill: url(#face) }".toList

/-- The declaration is listed, though neither its property nor its value is a colour. -/
theorem holdsColor_iff_hexRun_iconAddress :
    HasHash (3 ≤ hexRun ·) iconAddress ∧ ¬ HasHash IsListedHex iconAddress ∧
      ∃ table, colors (Utf8.encode filledShape) = .ok table ∧
        table.getD ".a".toList [] = ["fill: url(#face)".toList] := by
  obtain ⟨hholds, -, hlisted⟩ :=
    holdsColor_iff_hexRun plain_iconAddress.1 plain_iconAddress.2
  have hload : loadSheet filledShape = .ok (parseStylesheet filledShape) :=
    loadSheet_eq_ok_iff.mpr ⟨by decide +kernel, by decide +kernel, rfl⟩
  have hwalk : walk filledShape = [(".a".toList, ⟨"fill".toList, iconAddress, false⟩)] := by
    decide +kernel
  obtain ⟨table, htable, hentry⟩ := hlisted _ _ hload
  obtain ⟨hlines, hbears⟩ := hentry _ (by rw [hwalk]; exact List.mem_singleton_self _) rfl
    (by decide +kernel)
  refine ⟨hholds.mp (by decide +kernel), not_hasHash_iconAddress, table, htable, hlines.trans ?_⟩
  rw [hwalk]
  decide +kernel

/-- **A value may hold a colour though no hash in it begins one of the catalogue.** -/
theorem exists_holdsColor_unlisted :
    ¬ ∀ v, (∀ f ∈ colorCalls, ¬ f <:+: v) → v ∉ namedColors →
      (holdsColor v = true ↔ HasHash IsListedHex v) := by
  intro hall
  have hholds : holdsColor iconAddress = true := by decide +kernel
  exact not_hasHash_iconAddress
    ((hall iconAddress plain_iconAddress.1 plain_iconAddress.2).mp hholds)

end Extract
end StyleAudit
