/-
  The ways a request can fail.

  `Failure.message` gives the wording of the causes that are reported to a user; the plain causes have none.
-/

namespace ZXCircuits

inductive Failure where
  /-- Nothing is stored under the requested key. -/
  | absent
  /-- A position lies outside the list. -/
  | outOfRange
  /-- The value does not offer the requested operation. -/
  | unsupported
  /-- An operation was given arguments of the wrong number or sort. -/
  | misapplied
  /-- An argument of the right sort has no meaning here. -/
  | badValue
  | divisionByZero
  /-- A search that has to succeed came to its end. -/
  | exhausted
  /-- A number is too large for the form it is wanted in. -/
  | overflow
  | malformedJson
  | missingFile
  /-- A backend needs a library that is not installed. -/
  | missingLibrary
  /-- A stepwise producer was cut short by a failed search. -/
  | interrupted
  /-- The allotted number of steps was used up. -/
  | stepLimit
  -- circuits
  | qubitAmounts
  | maskSize
  | ancillaInUse (label : String)
  | labelNotInUse (label : String)
  | noQasmForm (gate : String)
  | noQcForm (gate : String)
  | noQuipperForm (gate : String)
  -- reading circuits off diagrams
  | multipleParents
  | crossQubit
  | sameTypeVertical
  | differentTypeVertical
  -- readers
  | unknownExpression (line : String)
  | unreadableLine (line file : String)
  | unknownSingle (line : String)
  | unknownControlled (line : String)
  | unknownMultiple (line : String)
  | tooManyControls
  | diagramFile
  | undeterminedFormat
  | undeterminedType
  | subroutines
  | badStart (line : String)
  | unsupportedWire (type : String)
  | unsupportedLine (line : String)
  | unsupportedGate (name : String)
  | manyControls (line : String)
  | doubleControl (line : String)
  | unsupportedControl (control : String)
  | unsupportedControlled (name : String)
  | invalidFormat
  | missingHeader
  | missingLibraryInclude
  | customArguments (text : String)
  | customNoArguments (text : String)
  | duplicateVariable (text : String)
  | unsupportedCommand (command : String)
  | invalidRegister (name : String)
  | registerSizes (command : String)
  | argumentAmount (command : String)
  | invalidRotation (name : String)
  | unknownGateName (command : String)
  -- diagrams
  | unavailableBackend (name : String)
  | notImplemented (spaced : Bool)
  | drawingBackend (name : String)
  | glueInputs
  | glueOutputs
  | inputIndices
  | outputIndices
  | composeAmounts
  | unknownNormalForm (name : String)
  -- diagram files
  | invalidPhase (text : String)
  | unsupportedVertex (type : String)
  | irregularHadamard
  | unknownVertexType (code : Int)
  | untypedEdge
  -- rewriting
  | cliffordPhases
  -- extraction
  | notCircuitLike
  | gadgetPhase
  | anonymous
  | unreachable
  | notReducible
  | noGadget
  | lowRank
  | nonUnitaryGadget
  | noReducibleRow
  | noAncillas
  | manyNeighbours
  | mismatchedVertices
  | sideAmounts
  | rankMismatch
  -- phase polynomials and optimisation
  | unsupportedBlockGate (gate : String)
  | notClifford
  | unknownGateType (gate : String)
  | phasesLeft
  | unknownCorrection
  | impossibleMatching
  | notACircuit
  | unknownGate (gate : String)
  | doublyBlocked
  | illegalCorrection (gate : String)
  | unknownBlockGate (gate : String)
  | nonCliffordT (gate : String)
  | hadamardsLost
  -- tensors
  | weirdOutput
  | nearZero
  | tensorAmounts (first second : Nat)
  -- random circuits
  | probabilities
  deriving DecidableEq, Repr, Inhabited

namespace Failure

def message : Failure → Option String
  | absent | outOfRange | unsupported | misapplied | badValue | divisionByZero | exhausted
  | overflow | malformedJson | missingFile | missingLibrary | interrupted | stepLimit => none
  | qubitAmounts => some "Amount of qubits do not match"
  | maskSize => some "Mask size does not match qubits"
  | ancillaInUse l => some s!"Ancilla label {l} already in use"
  | labelNotInUse l => some s!"PostSelect label {l} is not in use"
  | noQasmForm g => some s!"Gate {g} doesn't have a QASM description"
  | noQcForm g => some s!"Gate {g} doesn't have a .qc description"
  | noQuipperForm g => some s!"Gate {g} doesn't have a Quipper description"
  | multipleParents => some "Graph doesn't seem circuit like: multiple parents"
  | crossQubit => some "Graph doesn't seem circuit like: cross qubit connections"
  | sameTypeVertical => some "Invalid vertical connection between vertices of the same type"
  | differentTypeVertical =>
    some "Invalid vertical connection between vertices of different type"
  | unknownExpression l => some s!"Unknown Expression: {l}"
  | unreadableLine l f => some s!"Couldn't parse line {l} in file {f}"
  | unknownSingle l => some s!"Unknown gate with single target: {l}"
  | unknownControlled l => some s!"Unknown gate with control: {l}"
  | unknownMultiple l => some s!"Unknown gate with multiple controls: {l}"
  | tooManyControls => some "No more than 5 ctrls supported"
  | diagramFile =>
    some ".qgraph files are not Circuits. Please load them as graphs using json_to_graph"
  | undeterminedFormat => some "Couldn't determine circuit format."
  | undeterminedType => some "Couldn't determine filetype"
  | subroutines => some "Subroutines are not supported"
  | badStart l => some s!"File does not start correctly: {l}"
  | unsupportedWire t => some s!"Unsupported type {t}"
  | unsupportedLine l => some s!"Unsupported expression: {l}"
  | unsupportedGate n => some s!"Unsupported gate: {n}"
  | manyControls l => some s!"Maximum two controls on gate allowed: {l}"
  | doubleControl l => some s!"Two controls only allowed on 'not' and 'Z': {l}"
  | unsupportedControl c => some s!"Unsupported control: {c}"
  | unsupportedControlled n => some s!"Unsupported controlled gate: {n}"
  | invalidFormat => some "Not a valid format"
  | missingHeader => some "File does not start with OPENQASM descriptor"
  | missingLibraryInclude => some "File is not importing standard library"
  | customArguments t =>
    some s!"Arguments for custom gates are currently not supported: {t}"
  | customNoArguments t =>
    some s!"Custom gate specification doesn't have any arguments: {t}"
  | duplicateVariable t => some s!"Duplicate variable name: {t}"
  | unsupportedCommand c => some s!"Unsupported operation {c}"
  | invalidRegister n => some s!"Invalid register {n}"
  | registerSizes c => some s!"Error in parsing {c}: Register sizes do not match"
  | argumentAmount c => some s!"Argument amount does not match gate spec: {c}"
  | invalidRotation n => some s!"Invalid specification {n}"
  | unknownGateName c => some s!"Unknown gate name: {c}"
  | unavailableBackend n => some s!"Unavailable backend '{n}'"
  | notImplemented spaced =>
    some (if spaced then "Not implemented on backend None" else "Not implemented on backendNone")
  | drawingBackend n => some s!"Drawing not implemented on backend {n}"
  | glueInputs => some "Inputs do not match glueing vertices"
  | glueOutputs => some "Outputs do not match glueing vertices"
  | inputIndices => some "Input qubit indices do not match"
  | outputIndices => some "Output qubit indices do not match"
  | composeAmounts => some "Circuits work on different qubit amounts"
  | unknownNormalForm n => some s!"Unknown normal form: {n}"
  | invalidPhase t => some s!"Invalid phase '{t}'"
  | unsupportedVertex t => some s!"unsupported type '{t}'"
  | irregularHadamard => some "Can't parse graphs with irregular Hadamard nodes"
  | unknownVertexType c => some s!"Unkown type {c}"
  | untypedEdge => some "Edge of type 0"
  | cliffordPhases => some "Clifford phases here??"
  | notCircuitLike => some "Not circuit like"
  | gadgetPhase => some "Can't parse ParityPhase with non-Pauli Phase"
  | anonymous => some ""
  | unreachable => some "We should never get here"
  | notReducible => some "Algorithm failed: Not fully reducable"
  | noGadget => some "No phase gadget connected to this row"
  | lowRank => some "Rank in phase gadget reduction too low."
  | nonUnitaryGadget => some "Gadget seems non-unitary"
  | noReducibleRow => some "Did not find any completely reducable row"
  | noAncillas => some "No valid ancilla vertices found"
  | manyNeighbours => some "Too many neighbours"
  | mismatchedVertices => some "vertices mismatching"
  | sideAmounts => some "Amount of qubits should match on left and right side"
  | rankMismatch => some "Adjency matrix rank does not match amount of qubits"
  | unsupportedBlockGate g =>
    some s!"Unsupported gate {g}. Make sure you are in GH+CNOT form."
  | notClifford => some "PhasePoly is not Clifford"
  | unknownGateType g => some s!"Unknown gate type {g}"
  | phasesLeft => some "Still phases left on the stack"
  | unknownCorrection => some "Unknown clifford correction:"
  | impossibleMatching => some "This shouldn't happen ever"
  | notACircuit => some "Input must be a Circuit"
  | unknownGate g => some s!"Unknown gate {g}"
  | doublyBlocked => some "CZ behind two Hadamard gates. This is not supposed to happen"
  | illegalCorrection g => some s!"Illegal correction {g}"
  | unknownBlockGate g =>
    some s!"Unknown gate {g}. Maybe simplify the gates with circuit.to_basic_gates()?"
  | nonCliffordT g =>
    some s!"This method only works on Clifford+T circuits. This circuit contains a {g}"
  | hadamardsLost => some "Hadamards did not extract correctly"
  | weirdOutput => some "Weird output"
  | nearZero => some "Tensor is too close to zero"
  | tensorAmounts a b =>
    some s!"Tensors represent circuits of different amount of qubits, {a} vs {b}"
  | probabilities => some "Probabilities are >1."

end Failure

/-- What a request gives: a value, or the way it failed. -/
abbrev Attempt := Except Failure

def orAbsent {α : Type} : Option α → Attempt α
  | some a => .ok a
  | none => .error .absent

def orOutOfRange {α : Type} : Option α → Attempt α
  | some a => .ok a
  | none => .error .outOfRange

abbrev Run := ExceptT Failure (StateM String)

namespace Run

def say (text : String) : Run Unit := modify (· ++ text)

def sayIf (verbose : Bool) (text : String) : Run Unit :=
  if verbose then say text else pure ()

def outcome {α : Type} (r : Run α) : Attempt α × String := (ExceptT.run r).run ""

def result {α : Type} (r : Run α) : Attempt α := (outcome r).1

end Run

end ZXCircuits
