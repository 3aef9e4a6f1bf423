/-
  Tensors whose axes all have two positions, and the tensor of a diagram.

  A tensor of rank `n` is a table of `2 ^ n` amplitudes, which are a parameter; axis 0 is the most significant bit of a position.

  The diagram is swept row by row.  Each open axis of the tensor so far belongs to the vertex whose leg it is; a vertex is joined to the
  axes of the neighbours behind it and leaves one for each neighbour ahead.
-/
import ZXCircuits.Diagram.Layout

namespace ZXCircuits

/-- The operations that the entries of a tensor offer. -/
class Amplitudes (K : Type) where
  zero : K
  one : K
  add : K → K → K
  sub : K → K → K
  mul : K → K → K
  conj : K → K
  halfRoot : K
  /-- `turn p` is the number of modulus one at the angle `p π`. -/
  turn : Rat → K
  /-- Whether a number is so small that precision is at risk. -/
  isTiny : K → Bool
  /-- The factor by which tensors of tiny entries are scaled. -/
  boost : K

/-- A tensor: `2 ^ rank` entries, the first axis the most significant. -/
structure Tensor (K : Type) where
  rank : Nat
  entries : Array K
  size_entries : entries.size = Nat.pow 2 rank

namespace Tensor

variable {K : Type}

def ofFn (rank : Nat) (f : Nat → K) : Tensor K where
  rank := rank
  entries := Array.ofFn fun i : Fin (Nat.pow 2 rank) => f i
  size_entries := Array.size_ofFn

def map (f : K → K) (t : Tensor K) : Tensor K where
  rank := t.rank
  entries := t.entries.map f
  size_entries := by simp [t.size_entries]

/-- The position at which the axes, last axis first, have the bits of a number, lowest bit first, and every other axis has 0. -/
def spread (rank : Nat) : List Nat → Nat → Nat
  | [], _ => 0
  | axis :: rest, m => m % 2 * Nat.pow 2 (rank - 1 - axis) + spread rank rest (m / 2)

def positions (rank : Nat) (axes : List Nat) : Array Nat := Array.ofFn fun m : Fin (Nat.pow 2 axes.length) => spread rank axes.reverse m

def otherAxes (rank : Nat) (axes : List Nat) : List Nat := (List.range rank).filter fun a => !axes.contains a

open Amplitudes (zero one add sub mul halfRoot isTiny boost)

variable [Amplitudes K] (t : Tensor K)

def entry (i : Nat) : K := t.entries.getD i zero

def sum (n : Nat) (f : Nat → K) : K := n.fold (fun i _ acc => add acc (f i)) zero

/-- Sums over pairs of axes of two tensors; what is left are the other axes of the first and then those of the second. -/
def contract (s t : Tensor K) (axes₁ axes₂ : List Nat) : Tensor K :=
  let free₁ := otherAxes s.rank axes₁
  let free₂ := otherAxes t.rank axes₂
  let outer₁ := positions s.rank free₁
  let outer₂ := positions t.rank free₂
  let inner₁ := positions s.rank axes₁
  let inner₂ := positions t.rank axes₂
  let width := Nat.pow 2 free₂.length
  ofFn (free₁.length + free₂.length) fun i =>
    let p := outer₁.getD (i / width) 0
    let q := outer₂.getD (i % width) 0
    sum inner₁.size fun c =>
      mul (s.entry (p + inner₁.getD c 0)) (t.entry (q + inner₂.getD c 0))

def permute (axes : List Nat) : Tensor K :=
  let back := axes.reverse
  ofFn axes.length fun i => t.entry (spread t.rank back i)

def identity : Tensor K := ofFn 2 fun i => if i = 0 ∨ i = 3 then one else zero

def identities : Nat → Tensor K
  | 0 => identity
  | n + 1 => contract (identities n) identity [] []

def hadamard : Tensor K :=
  ofFn 2 fun i =>
    if i = 3 then sub zero halfRoot else halfRoot

def zSpider (arity : Nat) (phase : Rat) : Tensor K :=
  ofFn arity fun i =>
    if i = Nat.pow 2 arity - 1 then Amplitudes.turn phase
    else if i = 0 then one
    else zero

def evenBits (width n : Nat) : Bool := (List.range width).foldl (fun even b => even != n.testBit b) true

def halfRootPow : Nat → K
  | 0 => one
  | n + 1 => mul (halfRootPow n) halfRoot

/-- The X spider: one plus the phase where an even number of axes is 1, else one minus the phase, scaled for each axis. -/
def xSpider (arity : Nat) (phase : Rat) : Tensor K :=
  ofFn arity fun i =>
    mul (halfRootPow arity)
      (if evenBits arity i then add one (Amplitudes.turn phase)
        else sub one (Amplitudes.turn phase))

def turnFirst : Tensor K := contract t hadamard [0] [0]

def rescale : Tensor K :=
  if t.entries.all isTiny then t.map (mul boost) else t

end Tensor

variable {K : Type} [Amplitudes K]

/-- A diagram swept in part: the tensor so far, and the axes that are open at each vertex. -/
structure Sweep (K : Type) where
  tensor : Tensor K
  openAxes : Table Vertex (List Nat)

namespace Sweep

def takeAxis (axes : Table Vertex (List Nat)) (v : Vertex) : Attempt (Nat × Table Vertex (List Nat)) :=
  match Table.find? axes v with
  | none => .error .absent
  | some as =>
    match as.getLast? with
    | none => .error .outOfRange
    | some a => .ok (a, Table.insert axes v as.dropLast)

def takeAxes (axes : Table Vertex (List Nat)) : List Vertex → Attempt (List Nat × Table Vertex (List Nat))
  | [] => .ok ([], axes)
  | v :: vs => do
    let (a, axes) ← takeAxis axes v
    let (as, axes) ← takeAxes axes vs
    return (a :: as, axes)

def shifted (taken : List Nat) (a : Nat) : Nat := a - (taken.filter (· < a)).length

variable (g : Diagram) (s : Sweep K) (v : Vertex)

def start : Sweep K where
  tensor := Tensor.identities (g.inputs.length - 1)
  openAxes := (g.byQubit g.inputs).zipIdx.foldl
    (fun t (v, i) => Table.insert t v [2 * i + 1]) []

/-- The tensor of a vertex by itself: a straight wire for an output, else a spider with a leg for each
neighbour. -/
def vertexTensor : Attempt (Tensor K) := do
  let d ← g.degree v
  if g.outputs.contains v then
    if d = 1 then return Tensor.identity else throw .weirdOutput
  else
    let phase := (← g.phaseAt v).toRat
    return if (← g.kind v) == .z then Tensor.zSpider d phase else Tensor.xSpider d phase

def behind (r : Coord) : Attempt (List Vertex) := do
  let passed := (← g.neighbours v).filter fun n =>
    let rn := g.row n
    rn.less r || (rn.same r && n < v)
  return passed.mergeSort fun m n =>
    (g.edgeKind (Diagram.edge v m)).code ≤ (g.edgeKind (Diagram.edge v n)).code

def join (r : Coord) (s : Sweep K) (v : Vertex) : Attempt (Sweep K) := do
  let alone : Tensor K ← vertexTensor g v
  let ns ← behind g v r
  let turned := (ns.filter fun n => g.edgeKind (Diagram.edge v n) == .hadamard).foldl
    (fun t _ => t.turnFirst) alone
  let (taken, axes) ← takeAxes s.openAxes ns
  let k := taken.length
  let tensor := s.tensor.contract turned taken
    ((List.range k).map (alone.rank - k + ·))
  let left := (List.range (alone.rank - k)).map (tensor.rank - (alone.rank - k) + ·)
  return { tensor := tensor
           openAxes := Table.insert (axes.map fun (w, as) => (w, as.map (shifted taken))) v left }

def joinRow (row : Coord × Nat) : Attempt (Sweep K) := do
  if row.1.same (.int 0) then return s
  ((g.vertices.filter fun v => (g.row v).same row.1).foldlM fun s v => do
    let s ← join g row.1 s v
    return if row.2 % 10 = 0 then { s with tensor := s.tensor.rescale } else s) s

def finalAxes : Attempt (List Nat) := do
  let pairs ← (g.byQubit g.outputs).zipIdx.mapM fun (v, i) =>
    match Table.find? s.openAxes v with
    | none => .error Failure.absent
    | some [a] => .ok [i, a]
    | some _ => .error Failure.weirdOutput
  return pairs.flatten

def isArrangement (rank : Nat) (axes : List Nat) : Bool := axes.length == rank && (List.range rank).all axes.contains

end Sweep

open Sweep in
def Diagram.tensor (g : Diagram) : Attempt (Tensor K) := do
  let rows ← g.vertices.mapM g.rowAt
  let s ← (Coord.ranks rows).foldlM (joinRow g) (start g)
  let axes ← finalAxes g s
  if isArrangement s.tensor.rank axes then return s.tensor.permute axes else throw .badValue

end ZXCircuits
