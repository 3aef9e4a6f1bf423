/-
  Parity networks: controlled-not gates that bring every wanted parity onto some wire.

  Parities are split by the wire on which they agree most; a group with a target gets a gate from each wire that all its parities
  contain.  With every gate the parities on the stack are changed in place: the vectors of the store, if a group is made of these, or
  the copies that a split has made.
-/
import ZXCircuits.Failure

namespace ZXCircuits

namespace ParityNetwork

/-- Vectors that are changed in place, by their addresses. -/
abbrev Store := Array (Array Int)

/-- A group of parities, the wires it may still be split by, and its target wire. -/
structure Group where
  parities : List (Array Int)
  wires : List Nat
  target : Option Nat

/-- A group on the stack: its parities are vectors of the store, or copies that belong to it alone. -/
inductive Entry
  | stored (cells wires : List Nat) (target : Option Nat)
  | copied (g : Group)

/-- The group as it stands. -/
def Entry.read (s : Store) : Entry → Group
  | .stored cells wires target => ⟨cells.map fun a => s.getD a #[], wires, target⟩
  | .copied g => g

/-- What a gate from `j` to `i` makes of a parity. -/
def update (i j : Nat) (y : Array Int) : Array Int := y.setIfInBounds j ((y.getD i 0 + y.getD j 0) % 2)

def Group.update (i j : Nat) (g : Group) : Group := { g with parities := g.parities.map (ParityNetwork.update i j) }

/-- Changes the parities of a group in place. -/
def Entry.update (i j : Nat) (s : Store) : Entry → Store × Entry
  | .stored cells wires target =>
    (cells.foldl (fun s a => s.modify a (ParityNetwork.update i j)) s, .stored cells wires target)
  | .copied g => (s, .copied (g.update i j))

/-- Changes the parities of all groups of a stack. -/
def updateAll (i j : Nat) : List Entry → Store → Store × List Entry
  | [], s => (s, [])
  | e :: rest, s =>
    let (s, e) := e.update i j s
    let (s, rest) := updateAll i j rest s
    (s, e :: rest)

/-- The first wire other than `i` that all parities of a group hold. -/
def Group.common (n i : Nat) (g : Group) : Option Nat :=
  (List.range n).find? fun j => j != i && g.parities.all fun y => y.getD j 0 != 0

/-- Gates onto target `i` for the group on top, as long as some wire is contained in all its parities.  Each gate takes its control
    out of the parities, so two gates for every wire suffice. -/
def gather (n i : Nat) : Nat → Entry → List Entry → Store → List (Nat × Nat) →
    Attempt (Entry × List Entry × Store × List (Nat × Nat))
  | 0, _, _, _, _ => .error .stepLimit
  | fuel + 1, e, waiting, s, gates =>
    match (e.read s).common n i with
    | none => .ok (e, waiting, s, gates)
    | some j =>
      let (s, waiting) := updateAll i j waiting s
      let (s, e) := e.update i j s
      gather n i fuel e waiting s ((j, i) :: gates)

variable (g : Group) (j : Nat)

def agreement : Nat := max (g.parities.countP fun y => y.getD j 0 == 0) (g.parities.countP fun y => y.getD j 0 == 1)

def splitWire : List Nat → Option Nat
  | [] => none
  | j :: rest =>
    some (rest.foldl (fun best k => if agreement g best < agreement g k then k else best) j)

/-- The parities of a group that do not hold a wire. -/
def zeros : Group := ⟨g.parities.filter fun y => y.getD j 0 == 0, g.wires.filter (· != j), g.target⟩

/-- The parities of a group that hold a wire; they are gathered on the target of the group, or else on the wire. -/
def ones : Group :=
  ⟨g.parities.filter fun y => y.getD j 0 == 1, g.wires.filter (· != g.target.getD j), some (g.target.getD j)⟩

/-- How many groups come out of one with so many parities and wires: a split leaves fewer parities or
    fewer wires on either side. -/
def groupBound (parities wires : Nat) : Nat := 2 * parities * (parities + wires) + 2

def work (n : Nat) : Nat → List Entry → Store → List (Nat × Nat) → Attempt (Store × List (Nat × Nat))
  | 0, _, _, _ => .error .stepLimit
  | _, [], s, gates => .ok (s, gates.reverse)
  | fuel + 1, e :: waiting, s, gates => do
    if (e.read s).parities.isEmpty || (e.read s).wires.isEmpty then work n fuel waiting s gates
    else
      let (e, waiting, s, gates) ← match (e.read s).target with
        | some i => gather n i (2 * n + 1) e waiting s gates
        | none => pure (e, waiting, s, gates)
      match splitWire (e.read s) (e.read s).wires with
      | none => work n fuel waiting s gates
      | some j => work n fuel (.copied (zeros (e.read s) j) :: .copied (ones (e.read s) j) :: waiting) s gates

end ParityNetwork

/-- Controlled-not gates on `n` wires, as control and target, such that every parity at some addresses is on some wire at some
    time; and the store with what has been written to it. -/
def parityNetworkIn (n : Nat) (s : ParityNetwork.Store) (cells : List Nat) :
    Attempt (ParityNetwork.Store × List (Nat × Nat)) :=
  ParityNetwork.work n (ParityNetwork.groupBound cells.length n) [.stored cells (List.range n) none] s []

/-- The network for a list of parities. -/
def parityNetwork (n : Nat) (parities : List (List Int)) : Attempt (List (Nat × Nat)) :=
  (·.2) <$> parityNetworkIn n (parities.map List.toArray).toArray (List.range parities.length)

end ZXCircuits
