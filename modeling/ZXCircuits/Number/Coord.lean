/-
  Exact numbers, and coordinates of vertices.

  Phases and coefficients stay integers until a ratio takes part; the two are equal as numbers (`Exact.toRat`) and differ only in how a
  diagram file writes them.  Rows and wire positions stay integers until a double takes part.
-/
import ZXCircuits.Number.Decimal

namespace ZXCircuits

def Rat.modTwo (q : Rat) : Rat := q - 2 * ((q / 2).floor : Rat)

def Rat.text (q : Rat) : String :=
  if q.den = 1 then toString q.num else toString q.num ++ "/" ++ toString q.den

/-- An exact number, kept as an integer or as a ratio. -/
inductive Exact where
  | int (n : Int)
  | ratio (q : Rat)
  deriving DecidableEq, Repr, Inhabited

namespace Exact

def toRat : Exact → Rat
  | int n => n
  | ratio q => q

def isZero (a : Exact) : Bool := a.toRat == 0

def add : Exact → Exact → Exact
  | int m, int n => int (m + n)
  | a, b => ratio (a.toRat + b.toRat)

def neg : Exact → Exact
  | int n => int (-n)
  | ratio q => ratio (-q)

def mul : Exact → Exact → Exact
  | int m, int n => int (m * n)
  | a, b => ratio (a.toRat * b.toRat)

def modTwo : Exact → Exact
  | int n => int (n % 2)
  | ratio q => ratio (Rat.modTwo q)

def den (a : Exact) : Nat := a.toRat.den

def num (a : Exact) : Int := a.toRat.num

def text (a : Exact) : String := Rat.text a.toRat

def same (a b : Exact) : Bool := a.toRat == b.toRat

theorem toRat_add (a b : Exact) : (a.add b).toRat = a.toRat + b.toRat := by
  cases a <;> cases b <;> simp [add, toRat]

theorem toRat_neg (a : Exact) : a.neg.toRat = -a.toRat := by
  cases a <;> simp [neg, toRat]

end Exact

/-- A row or wire position. -/
inductive Coord where
  | int (n : Int)
  | real (x : Binary64)
  deriving DecidableEq, Repr

namespace Coord

instance : Inhabited Coord := ⟨.int 0⟩

def toRat : Coord → Rat
  | int n => n
  | real x => x.value

def toDouble : Coord → Binary64
  | int n => Binary64.ofRat n
  | real x => x

def same : Coord → Coord → Bool
  | int m, int n => m == n
  | a, b => a.toRat == b.toRat

def less : Coord → Coord → Bool
  | int m, int n => m < n
  | a, b => a.toRat < b.toRat

def atMost (a b : Coord) : Bool := !less b a

def add : Coord → Coord → Coord
  | int m, int n => int (m + n)
  | a, b => real (a.toDouble.add b.toDouble)

def sub : Coord → Coord → Coord
  | int m, int n => int (m - n)
  | a, b => real (a.toDouble.sub b.toDouble)

def neg : Coord → Coord
  | int m => int (-m)
  | real x => real x.neg

def mul : Coord → Coord → Coord
  | int m, int n => int (m * n)
  | a, b => real (a.toDouble.mul b.toDouble)

def div : Coord → Coord → Coord
  | int m, int n => real (Binary64.ofRat ((m : Rat) / (n : Rat)))
  | a, b => real (a.toDouble.div b.toDouble)

def divNat : Coord → Nat → Coord
  | int m, n => real (Binary64.ofRat ((m : Rat) / (n : Rat)))
  | real x, n => real (x.div (Binary64.ofRat (n : Rat)))

def half : Coord := real { value := 1 / 2 }

def text : Coord → String
  | int n => toString n
  | real x => x.text

def fixedText : Coord → String
  | int n => Decimal.fixed 2 n (n < 0)
  | real x => Decimal.fixed 2 x.value x.isNegative

def toInt? (c : Coord) : Option Int :=
  let q := c.toRat
  if q.den = 1 then some q.num else none

def maximum : List Coord → Option Coord
  | [] => none
  | c :: rest => some (rest.foldl (fun best d => if less best d then d else best) c)

variable (cs : List Coord)

def sort : List Coord := cs.mergeSort atMost

def distinct : List Coord :=
  let rec go : List Coord → List Coord
    | [] => []
    | [c] => [c]
    | c :: d :: rest => if same c d then go (c :: rest) else c :: go (d :: rest)
  termination_by cs => cs.length
  go (sort cs)

def isIn (c : Coord) (cs : List Coord) : Bool := cs.any (same c)

def ranks : List (Coord × Nat) :=
  let ds := distinct cs
  ds.zip (List.range ds.length)

def rankIn (ranks : List (Coord × Nat)) (c : Coord) : Option Nat := (ranks.find? fun r => same r.1 c).map (·.2)

end Coord

end ZXCircuits
