/-
  The text form of circuits with a line of inputs, a line for each gate and a line of outputs.

  Gates have up to two controls.  `Quipper.parseCenter` reads the central part of a file in several parts.
-/
import ZXCircuits.Circuit.Basic
import ZXCircuits.Text.Numeral

namespace ZXCircuits

/-! ## Writing -/

def halfAngleText (phase : Rat) : Attempt String :=
  match Binary64.ofRat? phase with
  | none => .error .overflow
  | some x =>
    match Binary64.ofRat? (Binary64.pi.value * x.value) with
    | none => .ok (if phase < 0 then "-inf" else "inf")
    | some y =>
      let half := (Binary64.mk y.value (x.isNegative && y.value == 0)).div (Binary64.ofRat 2)
      .ok half.text

def Gate.toQuipper (g : Gate) : Attempt String := do
  let named (name : String) (adjoint : Bool) (t : Int) : String :=
    "QGate[\"" ++ name ++ "\"]" ++ (if adjoint then "*" else "") ++ s!"({t})"
  let controlled (name : String) (c t : Int) : String :=
    named name false t ++ s!" with controls=[+{c}] with nocontrol"
  match g.op with
  | .had t => return named "H" false t ++ " with nocontrol"
  | .rotation k t p =>
    match k with
    | .zPhase => return "QRot[\"exp(-i%Z)\"," ++ (← halfAngleText p) ++ s!"]({t})"
    | .xPhase => return "QRot[\"exp(-i%X)\"," ++ (← halfAngleText p) ++ s!"]({t})"
    | .not => return named "not" false t ++ " with nocontrol"
    | _ => return named k.name k.adjoint t ++ " with nocontrol"
  | .pair .cnot c t => return controlled "not" c t
  | .pair .cz c t => return controlled "Z" c t
  | .pair .cx c t => return controlled "X" c t
  | .triple k a b t =>
    let name := match k with
      | .tof => "not"
      | .ccz => "Z"
    return named name false t ++ s!" with controls=[+{a},+{b}] with nocontrol"
  | .pair .swap _ _ | .parity _ _ => throw (.noQuipperForm g.text)
  | .initAncilla _ | .postSelect _ => throw .unsupported

def Circuit.toQuipper (c : Circuit) : Attempt String := do
  let wires := ", ".intercalate (c.wires.map fun i => s!"{i}Qbit")
  let lines ← c.gates.mapM Gate.toQuipper
  return "Inputs: " ++ wires ++ "\n" ++ String.join (lines.map (· ++ "\n")) ++ "Outputs: " ++ wires

/-! ## Reading -/

namespace Quipper

open Text

variable (text : List Char) (line : List Char)

def intOf : Attempt Int :=
  match readInt text with
  | some n => .ok n
  | none => .error .badValue

def between (a b : Char) (text : List Char) : List Char := slice text (position [a] text + 1) (position [b] text)

def betweenLast (a b : Char) (text : List Char) : List Char := slice text (lastPosition a text + 1) (lastPosition b text)

def rotation : Attempt Gate := do
  let bad : Failure := .unsupportedLine (String.ofList line)
  let i := position "exp(".toList line
  let axis := String.ofList (slice line (i + 4) (i + 8))
  if axis ≠ "-i%Z" ∧ axis ≠ "-i%X" then throw bad
  match readDouble (between ',' ']' line) with
  | none => throw bad
  | some .nan => throw .badValue
  | some (.infinite _) => throw .overflow
  | some (.finite x) =>
    let phase := 2 * (x.div Binary64.pi).value
    match readInt (betweenLast '(' ')' line) with
    | none => throw bad
    | some t => return if axis = "-i%Z" then Gate.zPhase t phase else Gate.xPhase t phase

def plainGate (name : String) (adjoint : Bool) (t : Int) : Attempt Gate :=
  match name with
  | "H" => .ok (Gate.had t)
  | "not" => .ok (Gate.not t)
  | "Z" => .ok (Gate.z t)
  | "S" => .ok (Gate.s t adjoint)
  | "T" => .ok (Gate.t t adjoint)
  | _ => .error (.unsupportedGate name)

def controlledGate (line controls : List Char) (name : String) (t : Int) : Attempt (List Gate) := do
  let shown := String.ofList line
  match splitFirst ',' controls with
  | some (a, b) =>
    if b.contains ',' then throw (.manyControls shown)
    if name ≠ "not" ∧ name ≠ "Z" then throw (.doubleControl shown)
    let first ← intOf ((strip a).drop 1)
    let second ← intOf ((strip b).drop 1)
    let nots := (if a.contains '+' then [] else [Gate.not first])
      ++ (if b.contains '+' then [] else [Gate.not second])
    let g := if name = "not" then Gate.tof first second t else Gate.ccz first second t
    return nots ++ [g] ++ nots
  | none =>
    if !controls.contains '+' then throw (.unsupportedControl (String.ofList controls))
    let c ← intOf (controls.drop 1)
    match name with
    | "not" => return [Gate.cnot c t]
    | "Z" => return [Gate.cz c t]
    | "X" => return [Gate.cx c t]
    | _ => throw (.unsupportedControlled name)

def namedGate : Attempt (List Gate) := do
  let pieces := splitText "with".toList line
  let g := pieces.headD []
  let name := String.ofList (slice g (position ['['] g + 2) (position [']'] g - 1))
  let t ← intOf (between '(' ')' g)
  match pieces.drop 1 with
  | [] => throw .outOfRange
  | second :: others =>
    if others.isEmpty && Text.contains "nocontrol".toList second then
      return [← plainGate name (g.contains '*') t]
    if 2 ≤ others.length then throw (.unsupportedLine (String.ofList line))
    controlledGate line (between '[' ']' second) name t

def readLine (c : Circuit) (line : List Char) : Attempt Circuit := do
  let startsWith (s : String) : Bool := s.toList.isPrefixOf line
  if startsWith "Comment" then return c
  if startsWith "QInit0" then
    let t ← intOf (between '(' ')' line)
    return if c.qubits ≤ t then { c with qubits := t + 1 } else c
  if startsWith "QTerm0" then return c
  if startsWith "QRot" then return c.push (← rotation line)
  if !startsWith "QGate" then throw (.unsupportedLine (String.ofList line))
  return { c with gates := c.gates ++ (← namedGate line) }

def checkInput : Attempt Unit :=
  match splitChar ':' text with
  | [_, t] =>
    if String.ofList (strip t) = "Qbit" then .ok () else .error (.unsupportedWire (String.ofList t))
  | _ => .error .badValue

def parseLines (lines : List (List Char)) : Attempt Circuit := do
  let start ← orOutOfRange lines.head?
  if !"Inputs: ".toList.isPrefixOf start then throw (.badStart (String.ofList start))
  let start := if start.getLast? = some ',' then start.dropLast else start
  let inputs := splitChar ',' (start.drop 8)
  for i in inputs do
    checkInput i
  (lines.drop 1).dropLast.foldlM readLine { qubits := inputs.length }

def parse : Attempt Circuit :=
  if Text.contains "Subroutine".toList text then .error .subroutines
  else parseLines (Text.lines (strip text))

/-- Reads the central part of a file: the subroutine `C` up to the subroutine `R`, or else all from the
    subroutine `S1` on. -/
def parseCenter : Attempt Circuit := do
  let i := position "Subroutine: \"C\"".toList text
  let part ← if i = -1 then do
      let k := position "Subroutine: \"S1\"".toList text
      if k = -1 then throw .invalidFormat
      pure (text.drop k.toNat)
    else
      match find? "Subroutine: \"R\"".toList (text.drop i.toNat) i.toNat with
      | none => throw .invalidFormat
      | some j => pure (slice text i j)
  parseLines ((Text.lines (strip part)).drop 3)

end Quipper

end ZXCircuits
