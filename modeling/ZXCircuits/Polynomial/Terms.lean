/-
  Sums of products of variables with exact coefficients.

  Terms keep the order in which they came in.  A term goes when its coefficient is cancelled by an equal one or, modulo two, becomes
  zero.
-/
import ZXCircuits.Number.Coord
import ZXCircuits.Table

namespace ZXCircuits

/-- How coefficients are added. -/
inductive Coefficients where
  | plain
  | modTwo
  deriving DecidableEq, Repr

abbrev TermSum := Table (List String) Exact

namespace TermSum

def textLe (a b : String) : Bool := !decide (b < a)

def sortVars (vars : List String) : List String := vars.mergeSort textLe

variable (kind : Coefficients) (p : TermSum) (vars : List String)

def addTerm (value : Exact) : TermSum :=
  let key := sortVars vars
  match kind with
  | .plain =>
    match Table.find? p key with
    | some old =>
      if old.same value.neg then Table.erase p key else Table.insert p key (old.add value)
    | none => Table.insert p key value
  | .modTwo =>
    let value := value.modTwo
    if value.isZero then p
    else
      match Table.find? p key with
      | some old =>
        let sum := (old.add value).modTwo
        if sum.isZero then Table.erase p key else Table.insert p key sum
      | none => Table.insert p key value

def addSum (p q : TermSum) : TermSum := q.foldl (fun p t => addTerm kind p t.1 t.2) p

def mulTerm (value : Exact) : TermSum :=
  if value.isZero then []
  else p.foldl (fun q t =>
    addTerm kind q (sortVars (t.1 ++ vars)).eraseDups (t.2.mul value)) []

def mulSum (p q : TermSum) : TermSum := q.foldl (fun r t => addSum kind r (mulTerm kind p t.1 t.2)) []

def scale (v : Exact) (p : TermSum) : TermSum := p.map fun t => (t.1, t.2.mul v)

def sorted : TermSum := p.mergeSort fun a b => lexLe textLe a.1 b.1

def text (p : TermSum) : String :=
  " + ".intercalate ((sorted p).map fun t =>
    (if t.2.toRat = 1 then "" else t.2.text) ++ "".intercalate (sortVars t.1))

end TermSum

end ZXCircuits
