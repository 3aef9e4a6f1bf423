/-
  Optimising a circuit block by block.

  Gates are collected into blocks without Hadamards; before a block is reduced, the gates of the one before are moved into it as far
  as they go.
-/
import ZXCircuits.Optimise.Passes
import ZXCircuits.Todd.Gates

namespace ZXCircuits

namespace Blocks

def place (l : Lanes) (g : Gate) : Attempt Lanes := do
  let l ← if g.isLinked then l.push g.control g else pure l
  l.push (← g.onTarget) g

def check (g : Gate) : Attempt Unit :=
  if g.isAncilla then .error .unsupported
  else if g.isLinked || g.isHad then .ok ()
  else if !g.isZRotation then .error (.unknownBlockGate g.text)
  else if g.phase.den = 1 ∨ g.phase.den = 2 ∨ g.phase.den = 4 then .ok ()
  else .error (.nonCliffordT g.text)

variable (qubits : Int) (gates : List Gate)

def lanesOf : Attempt Lanes :=
  (gates.zip (List.range gates.length)).foldlM (fun l (g, i) => do
    check g
    place l { g with index := i }) (Lanes.empty qubits)

def copiesInLanes : Attempt Lanes :=
  (gates.zip (List.range gates.length)).foldlM (fun l (g, i) => do
    place l { (← g.copy) with index := i }) (Lanes.empty qubits)

def backLanes (block hadamards : List Gate) : Attempt Lanes :=
  let gates := hadamards ++ block.reverse
  (gates.zip (List.range gates.length)).foldlM (fun l (g, i) => do
    let g := { g with index := i }
    let l ← l.push (← g.onTarget) g
    if g.isLinked then l.push g.control g else return l) (Lanes.empty qubits)

def remaining (l : Lanes) : List Gate :=
  let all := l.toList.flatten.foldl (fun (acc : List Gate) g =>
    if acc.any (·.index == g.index) then acc else acc ++ [g]) []
  all.mergeSort fun a b => b.index ≤ a.index

def reduceLanes {σ : Type} [Random.Source σ] (qubits : Int) (verbose : Bool) :
    Nat → Lanes → List Gate → List Gate → List Gate → RandomRun σ (List Gate)
  | 0, _, _, _, _ => throw .stepLimit
  | fuel + 1, l, done, block, hadamards => do
    if l.isEmpty then return done ++ block ++ hadamards
    RandomRun.sayIf verbose "new block\n"
    let back ← RandomRun.ofExcept (backLanes qubits block hadamards)
    let (rest, movedBack, hadamards') ← StateT.lift (consume back)
    if hadamards.length ≠ hadamards'.length then throw .hadamardsLost
    let done := done ++ remaining rest ++ hadamards'
    let (l, new, hadamards) ← StateT.lift (consume l)
    let block ← Todd.reduceBlock (movedBack.reverse ++ new) qubits.toNat verbose
    reduceLanes qubits verbose fuel l done block hadamards

def splitLeftOver (rest : List Gate) : Attempt (List Gate × Table Int Int) := do
  let step (s : List Gate × Table Int Int) (g : Gate) : Attempt (List Gate × Table Int Int) :=
    match g.op with
    | .pair .swap c t => do
      let a ← orAbsent (Table.find? s.2 c)
      let b ← orAbsent (Table.find? s.2 t)
      return (s.1, Table.insert (Table.insert s.2 c b) t a)
    | .rotation .not _ _ => return (s.1 ++ [g], s.2)
    | _ => throw (.illegalCorrection g.text)
  let (nots, perm) ← rest.foldlM step ([], Permutation.identity qubits.toNat)
  return (nots, perm.foldl (fun t kv => Table.insert t kv.2 kv.1) [])

end Blocks

namespace Circuit

def reduceBlocks {σ : Type} [Random.Source σ] (c : Circuit) (passes verbose : Bool) : RandomRun σ Circuit := do
  let (c', rest) ← if passes then StateT.lift (c.simplifyApart passLimit verbose)
    else do
      let copied ← RandomRun.ofExcept c.copy
      pure (copied, [])
  let (nots, perm) ← RandomRun.ofExcept (Blocks.splitLeftOver c.qubits rest)
  let l ← RandomRun.ofExcept (Blocks.lanesOf c.qubits c'.gates)
  let gates ← Blocks.reduceLanes c.qubits verbose (l.load + 1) l [] [] []
  let swaps ← RandomRun.ofExcept (Permutation.swapsOf perm)
  let all := gates ++ nots ++ swaps.map fun (a, b) => Gate.swap a b
  return { qubits := c.qubits, gates := all.map fun g => { g with index := 0 } }

def optimise {σ : Type} [Random.Source σ] (c : Circuit) (verbose : Bool) : RandomRun σ Circuit := do
  let c ← RandomRun.ofExcept c.expand
  let c ← StateT.lift (c.simplify false)
  let c ← c.reduceBlocks true verbose
  let c ← RandomRun.ofExcept c.expand
  StateT.lift (c.simplify false)

end Circuit

end ZXCircuits
