/-
  Permutations of wires as sequences of swaps.

  `swapsOf` takes a permutation as a table from positions to positions and gives swaps which, made in
  order, move the content of every wire to its place.
-/
import ZXCircuits.Table

namespace ZXCircuits.Permutation

/-- The positions still to be set right, and the inverse. -/
structure Pending where
  forward : Array Int
  backward : Array Int
  swaps : List (Nat × Int)

def settle (s : Pending) (i : Nat) : Attempt Pending := do
  let t₁ ← orOutOfRange s.forward[i]?
  if t₁ = i then return s
  let t₂ ← orOutOfRange s.backward[i]?
  if t₂ < 0 ∨ s.forward.size ≤ t₂.toNat then throw .outOfRange
  if t₁ < 0 ∨ s.backward.size ≤ t₁.toNat then throw .outOfRange
  return { forward := s.forward.setIfInBounds t₂.toNat t₁
           backward := s.backward.setIfInBounds t₁.toNat t₂
           swaps := (i, t₂) :: s.swaps }

def swapsOf (perm : Table Int Int) : Attempt (List (Nat × Int)) := do
  let forward ← (List.range perm.length).mapM fun (i : Nat) => orAbsent (perm.find? i)
  let inverse : Table Int Int := perm.foldl (fun t kv => Table.insert t kv.2 kv.1) []
  let backward ← (List.range inverse.length).mapM fun (i : Nat) => orAbsent (inverse.find? i)
  let s ← (List.range perm.length).foldlM settle ⟨forward.toArray, backward.toArray, []⟩
  return s.swaps.reverse

def identity (n : Nat) : Table Int Int := (List.range n).map fun (i : Nat) => ((i : Int), (i : Int))

end ZXCircuits.Permutation
