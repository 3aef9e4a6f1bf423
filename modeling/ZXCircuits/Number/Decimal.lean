/-
  Decimal texts of numbers.

  `shortest` finds the fewest significant digits that read back as the same double, written as a `DoubleStyle` says; `fixed` writes a
  given number of places, a tie to the even neighbour; `approximate` gives the nearest ratio with a bounded denominator.
-/
import ZXCircuits.Number.Binary64

namespace ZXCircuits

/-- The last two convergents of a continued fraction whose denominators do not exceed a bound. -/
structure Convergents where
  p₀ : Int
  q₀ : Int
  p₁ : Int
  q₁ : Int

def Convergents.expand (bound : Int) (c : Convergents) (n : Int) (d : Nat) : Convergents :=
  if _h : d = 0 then c
  else
    let a := n / d
    let q₂ := c.q₀ + a * c.q₁
    if bound < q₂ then c
    else expand bound ⟨c.p₁, c.q₁, c.p₀ + a * c.p₁, q₂⟩ d (n % d).toNat
termination_by d
decreasing_by
  have hd : (0 : Int) < d := by omega
  have h1 := Int.emod_lt_of_pos n hd
  have h2 := Int.emod_nonneg n (Int.ne_of_gt hd)
  omega

/-- The ratio next to `q` among those with a denominator of at most `bound`; of two equally near ones
    the last convergent. -/
def approximate (bound : Nat) (q : Rat) : Rat :=
  if q.den ≤ bound then q
  else
    let c := Convergents.expand bound ⟨0, 1, 1, 0⟩ q.num q.den
    let k := (bound - c.q₀) / c.q₁
    let near : Rat := ((c.p₀ + k * c.p₁ : Int) : Rat) / ((c.q₀ + k * c.q₁ : Int) : Rat)
    let last : Rat := (c.p₁ : Rat) / (c.q₁ : Rat)
    if (last - q).abs ≤ (near - q).abs then last else near

namespace Decimal

def tenPow (e : Int) : Rat :=
  if e < 0 then 1 / (Nat.pow 10 (-e).toNat : Rat) else (Nat.pow 10 e.toNat : Rat)

def leadingDigit (q : Rat) : Int :=
  -- a first guess from the numbers of digits is at most one too high
  let guess : Int :=
    ((toString q.num.natAbs).length : Int) - ((toString q.den).length : Int)
  if q < tenPow guess then guess - 1 else guess

/-- The reals that are nearest to the positive double `x`: how far they reach below and above it,
    and whether the two ends belong to them. -/
def roundingInterval (x : Rat) : Rat × Rat × Bool :=
  let u := lastBit x.num.natAbs x.den
  let m := significand x.num.natAbs x.den u
  let half := twoPow u / 2
  let below := if m = Nat.pow 2 52 ∧ -1074 < u then half / 2 else half
  (below, half, m % 2 == 0)

/-- The nearest decimal with `k` significant digits that reads back as `x`, if any: its digits and the exponent of the last one. -/
def withDigits (x : Rat) (lead : Int) (k : Nat) : Option (Nat × Int) :=
  let last := lead - (k : Int) + 1
  let unit := tenPow last
  let (below, above, closed) := roundingInterval x
  let lo := (x / unit).floor.toNat
  let hi := lo + 1
  let down := x - (lo : Rat) * unit
  let up := (hi : Rat) * unit - x
  let loOk := if closed then down ≤ below else down < below
  let hiOk := if closed then up ≤ above else up < above
  match decide loOk, decide hiOk with
  | true, true =>
    if down < up ∨ (down = up ∧ lo % 2 = 0) then some (lo, last) else some (hi, last)
  | true, false => some (lo, last)
  | false, true => some (hi, last)
  | false, false => none

def stripZeros : Nat → Nat → Int → Nat × Int
  | 0, n, e => (n, e)
  | fuel + 1, n, e => if n ≠ 0 ∧ n % 10 = 0 then stripZeros fuel (n / 10) (e + 1) else (n, e)

/-- The fewest digits that read back as the positive double `x`: an integer and the exponent of its
    last digit. -/
def shortest (x : Rat) : Nat × Int :=
  let lead := leadingDigit x
  match (List.range 17).findSome? fun k => withDigits x lead (k + 1) with
  | some (n, e) => stripZeros 20 n e
  | none => (0, 0)

structure DoubleStyle where
  /-- Smallest exponent of the leading digit that is written positionally. -/
  positionalFrom : Int
  /-- First exponent of the leading digit that is no longer written positionally. -/
  positionalTo : Int
  exponentWidth : Nat

/-- Doubles in texts: positional from a ten-thousandth up to sixteen digits, else with an exponent of at least two digits. -/
def DoubleStyle.standard : DoubleStyle := { positionalFrom := -4, positionalTo := 16, exponentWidth := 2 }

def padLeft (width : Nat) (s : String) : String := String.ofList (List.replicate (width - s.length) '0') ++ s

def DoubleStyle.positive (style : DoubleStyle) (x : Rat) : String :=
  let (n, e) := shortest x
  let digits := toString n
  let lead : Int := e + (digits.length : Int) - 1
  if style.positionalFrom ≤ lead ∧ lead < style.positionalTo then
    if 0 ≤ e then
      digits ++ String.ofList (List.replicate e.toNat '0') ++ ".0"
    else if 0 ≤ lead then
      let cut := (lead + 1).toNat
      String.ofList (digits.toList.take cut) ++ "." ++ String.ofList (digits.toList.drop cut)
    else
      "0." ++ String.ofList (List.replicate (-lead - 1).toNat '0') ++ digits
  else
    let rest := digits.toList.drop 1
    let mantissa := String.ofList (digits.toList.take 1)
      ++ (if rest.isEmpty then "" else "." ++ String.ofList rest)
    mantissa ++ "e" ++ (if lead < 0 then "-" else "+")
      ++ padLeft style.exponentWidth (toString lead.natAbs)

def DoubleStyle.text (style : DoubleStyle) (x : Binary64) : String :=
  if x.value = 0 then (if x.negZero then "-0.0" else "0.0")
  else if x.value < 0 then "-" ++ style.positive (-x.value)
  else style.positive x.value

def fixed (places : Nat) (q : Rat) (negative : Bool) : String :=
  let n := roundDiv (q.num.natAbs * Nat.pow 10 places) q.den
  let digits := padLeft (places + 1) (toString n)
  let cut := digits.length - places
  (if negative then "-" else "") ++ String.ofList (digits.toList.take cut)
    ++ (if places = 0 then "" else "." ++ String.ofList (digits.toList.drop cut))

end Decimal

def Binary64.text (x : Binary64) : String := Decimal.DoubleStyle.standard.text x

def Extended.text : Extended → String
  | .finite x => x.text
  | .infinite negative => if negative then "-inf" else "inf"
  | .nan => "nan"

end ZXCircuits
