/-
  Random draws.

  A `Random.Source` gives numbers of 24 bits; `Random.Congruential` is the one that programs use.  Statements quantify over the source,
  so over all sequences of draws.
-/
import ZXCircuits.Failure

namespace ZXCircuits

namespace Random

/-- A state from which numbers below two to the power of 24 can be drawn. -/
class Source (σ : Type) where
  next : σ → Nat × σ

/-- A linear congruential generator modulo two to the power of 31. -/
structure Congruential where
  state : Nat
  deriving DecidableEq, Repr, Inhabited

namespace Congruential

def ofSeed (seed : Int) : Congruential := ⟨(seed % 2147483648).toNat⟩

def step (g : Congruential) : Nat × Congruential :=
  let s := (g.state * 1103515245 + 12345) % 2147483648
  (s / 128, ⟨s⟩)

end Congruential

instance : Source Congruential := ⟨Congruential.step⟩

variable {σ : Type} [Source σ]

def below (n : Int) (s : σ) : Attempt (Nat × σ) :=
  if n ≤ 0 then .error .badValue
  else
    let (k, s) := Source.next s
    .ok (k % n.toNat, s)

def unit (s : σ) : Rat × σ :=
  let (k, s) := Source.next s
  ((k : Rat) / 16777216, s)

def shuffleFrom {α : Type} : Nat → Array α → σ → Array α × σ
  | 0, xs, s => (xs, s)
  | i + 1, xs, s =>
    let (k, s) := Source.next s
    shuffleFrom i (xs.swapIfInBounds (i + 1) (k % (i + 2))) s

def shuffle {α : Type} (xs : List α) (s : σ) : List α × σ :=
  let (ys, s) := shuffleFrom (xs.length - 1) xs.toArray s
  (ys.toList, s)

end Random

abbrev RandomRun (σ : Type) := StateT σ Run

namespace RandomRun

variable {σ : Type}

def draw {α : Type} (f : σ → Attempt (α × σ)) : RandomRun σ α := fun s =>
  match f s with
  | .ok r => pure r
  | .error e => throw e

def drawPure {α : Type} (f : σ → α × σ) : RandomRun σ α := fun s =>
  pure (f s)

def sayIf (verbose : Bool) (text : String) : RandomRun σ Unit := StateT.lift (Run.sayIf verbose text)

def ofExcept {α : Type} (e : Attempt α) : RandomRun σ α := fun s =>
  match e with
  | .ok a => pure (a, s)
  | .error e => throw e

end RandomRun

end ZXCircuits
