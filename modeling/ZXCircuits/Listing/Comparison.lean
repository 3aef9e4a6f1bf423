/-
  Comparisons of circuits as listings.
-/
import ZXCircuits.Listing.Basic
import ZXCircuits.Comparison

namespace ZXCircuits.Listing

open Comparison

/-- The list of a directory, a file before optimisation, and up to two files after it; empty names stand for
files that are not there. -/
instance : Readable Subject := ⟨fun j => do
  let names : List String ← read j
  let given (i : Nat) : Option String := (names[i]?).filter (!·.isEmpty)
  let s := Subject.ofFiles (names.getD 0 "") (names.getD 1 "") (given 2)
  return { s with other := given 3 }⟩

def comparison (s : Subject) (folder : Folder) : Run Json := do
  let r ← s.run folder
  let count (n : Option Nat) : Json := (n.map listing).getD (.str "-")
  return listing [listing (s.text false), listing ("[" ++ s.text false ++ "]"), .bool true, .bool true,
    listing r.qubits, listing r.gates, listing r.tBefore, count r.tAfterOthers, count r.tOther,
    listing r.tReduced, .bool r.extracts, listing (s.text true), listing (← row s r {})]

end ZXCircuits.Listing
