/-
  Values as plain listings.
-/
import ZXCircuits.Format.Json
import ZXCircuits.Number.Coord
import ZXCircuits.BitMatrix.Basic
import Std.Data.TreeMap

namespace ZXCircuits

class Listed (α : Type) where
  listing : α → Json

class Readable (α : Type) where
  read : Json → Attempt α

namespace Listing

export Listed (listing)
export Readable (read)

variable {α β : Type}

/-! ## Writing -/

instance : Listed Json := ⟨id⟩

instance : Listed Unit := ⟨fun _ => .null⟩

instance : Listed Nat := ⟨fun n => .int n⟩

instance : Listed Int := ⟨.int⟩

instance : Listed Bool := ⟨.bool⟩

instance : Listed String := ⟨.str⟩

instance : Listed Rat := ⟨fun q => .str (Rat.text q)⟩

instance : Listed Exact := ⟨fun
  | .int n => .int n
  | .ratio q => .str (Rat.text q)⟩

instance : Listed Coord := ⟨fun c =>
  match c.toInt? with
  | some n => .int n
  | none => .str (Decimal.fixed 4 c.toRat (c.toRat < 0))⟩

instance [Listed α] : Listed (List α) := ⟨fun xs => .arr (xs.map listing)⟩

instance [Listed α] : Listed (Option α) := ⟨fun
  | some a => listing a
  | none => .null⟩

instance [Listed α] [Listed β] : Listed (α × β) := ⟨fun p => .arr [listing p.1, listing p.2]⟩

instance [Listed α] : Listed (Std.TreeMap Nat α) := ⟨fun t => listing t.toList⟩

instance : Listed BitMatrix := ⟨fun m => listing m.toRows⟩

/-! ## Reading -/

def truth : Json → Bool
  | .null => false
  | .bool b => b
  | .int n => n != 0
  | .real (.finite x) => x.value != 0
  | .real _ => true
  | .str s => !s.isEmpty
  | .arr xs => !xs.isEmpty
  | .obj xs => !xs.isEmpty

def items : Json → Attempt (List Json)
  | .arr xs => .ok xs
  | _ => .error .misapplied

def item (j : Json) (i : Nat) : Attempt Json := do
  orOutOfRange (← items j)[i]?

def field (j : Json) (key : String) : Attempt Json := orAbsent (j.get? key)

instance : Readable Json := ⟨.ok⟩

instance : Readable Int := ⟨fun
  | .int n => .ok n
  | .bool b => .ok (if b then 1 else 0)
  | _ => .error .misapplied⟩

instance : Readable Nat := ⟨fun j => do return (← (read j : Attempt Int)).toNat⟩

instance : Readable Bool := ⟨fun j => .ok (truth j)⟩

instance : Readable String := ⟨fun
  | .str s => .ok s
  | _ => .error .misapplied⟩

def ratioOf (s : String) : Attempt Rat :=
  match Text.readRatio s.toList with
  | .value q => .ok q
  | .unreadable => .error .badValue
  | .zeroDenominator => .error .divisionByZero

instance : Readable Exact := ⟨fun
  | .int n => .ok (.int n)
  | .str s => do return .ratio (← ratioOf s)
  | _ => .error .misapplied⟩

instance : Readable Rat := ⟨fun j => do return (← (read j : Attempt Exact)).toRat⟩

instance : Readable Coord := ⟨fun
  | .int n => .ok (.int n)
  | .bool b => .ok (.int (if b then 1 else 0))
  | .real (.finite x) => .ok (.real x)
  | _ => .error .misapplied⟩

instance : Readable Binary64 := ⟨fun j => do return (← (read j : Attempt Coord)).toDouble⟩

instance [Readable α] : Readable (List α) := ⟨fun j => do (← items j).mapM read⟩

instance [Readable α] [Readable β] : Readable (α × β) := ⟨fun j => do
  match ← items j with
  | [a, b] => return (← read a, ← read b)
  | _ => throw .badValue⟩

instance [Readable α] : Readable (Option α) := ⟨fun
  | .null => .ok none
  | j => do return some (← read j)⟩

instance : Readable BitMatrix := ⟨fun j => do return .ofRows (← read j)⟩

end Listing

end ZXCircuits
