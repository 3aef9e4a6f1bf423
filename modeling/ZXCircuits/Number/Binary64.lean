/-
  Finite doubles as exact numbers.

  A double is the rational number it stands for with the sign of a zero.  Each operation is the exact one followed by `roundToDouble`,
  to the nearest with 53 significant bits, a tie to the even one.
-/

namespace ZXCircuits

def roundDiv (n d : Nat) : Nat :=
  let q := n / d
  let r := n % d
  if 2 * r < d then q
  else if d < 2 * r then q + 1
  else if q % 2 = 0 then q else q + 1

def twoPow (e : Int) : Rat :=
  if e < 0 then 1 / (Nat.pow 2 (-e).toNat : Rat) else (Nat.pow 2 e.toNat : Rat)

def leadingBit (n d : Nat) : Int :=
  let e : Int := (n.log2 : Int) - (d.log2 : Int)
  let big := if e < 0 then n * Nat.pow 2 (-e).toNat < d else n < d * Nat.pow 2 e.toNat
  if big then e - 1 else e

def lastBit (n d : Nat) : Int := max (leadingBit n d - 52) (-1074)

/-- The significand of the double next to the positive number `n / d`, counted in units of
    two to the power `u`. -/
def significand (n d : Nat) (u : Int) : Nat :=
  if u < 0 then roundDiv (n * Nat.pow 2 (-u).toNat) d else roundDiv n (d * Nat.pow 2 u.toNat)

def roundToDouble (q : Rat) : Option Rat :=
  if q = 0 then some 0
  else
    let n := q.num.natAbs
    let u := lastBit n q.den
    let r := ((significand n q.den u : Nat) : Rat) * twoPow u
    if r < twoPow 1024 then some (if q < 0 then -r else r) else none

/-- A finite double: the number it stands for, and the sign of a zero. -/
structure Binary64 where
  value : Rat
  negZero : Bool := false
  deriving DecidableEq, Repr, Inhabited

namespace Binary64

def ofRat? (q : Rat) : Option Binary64 := (roundToDouble q).map fun r => { value := r, negZero := decide (r = 0 ∧ q < 0) }

def ofRat (q : Rat) : Binary64 := (ofRat? q).getD { value := 0 }

def neg (x : Binary64) : Binary64 := { value := -x.value, negZero := x.value == 0 && !x.negZero }

def isNegative (x : Binary64) : Bool := x.value < 0 || x.negZero

def add (x y : Binary64) : Binary64 :=
  let s := ofRat (x.value + y.value)
  if x.value + y.value = 0 then { value := 0, negZero := x.negZero && y.negZero } else s

def sub (x y : Binary64) : Binary64 := add x y.neg

def mul (x y : Binary64) : Binary64 :=
  let p := ofRat (x.value * y.value)
  if p.value = 0 then { value := 0, negZero := x.isNegative != y.isNegative } else p

def div (x y : Binary64) : Binary64 :=
  let p := ofRat (x.value / y.value)
  if p.value = 0 then { value := 0, negZero := x.isNegative != y.isNegative } else p

def pi : Binary64 := { value := mkRat 884279719003555 281474976710656 }

end Binary64

/-- A number as a text can spell it: a finite double, an infinity, or not a number. -/
inductive Extended where
  | finite (x : Binary64)
  | infinite (negative : Bool)
  | nan
  deriving DecidableEq, Repr, Inhabited

def Binary64.toFloat (x : Binary64) : Float :=
  let f := (Float.ofInt x.value.num).scaleB (-(x.value.den.log2 : Int))
  if x.isNegative && x.value.num = 0 then -f else f

def Rat.nearestFloat (q : Rat) : Float := (Binary64.ofRat q).toFloat

def Float.circleRatio : Float := Binary64.pi.toFloat

def Float.floorInt (x : Float) : Int := x.floor.toInt64.toInt

end ZXCircuits
