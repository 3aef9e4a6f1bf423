/-
  The commands, optimising a circuit and making a picture of one, and how their arguments are read.
-/
import ZXCircuits.Folder
import ZXCircuits.Drawing.Tikz
import ZXCircuits.Strategy.Reduce
import ZXCircuits.Extract.Frontier
import ZXCircuits.Optimise.Blocks

namespace ZXCircuits.CommandLine

/-- An option: its spellings, and whether it takes a value. -/
structure OptionRule where
  key : String
  flags : List String
  takesValue : Bool := false

/-- Why the reading of arguments stopped. -/
inductive Stop where
  | help
  | refused (complaint : String)
  deriving DecidableEq, Repr

/-- What one word of the arguments is. -/
inductive Word where
  | plain (s : String)
  | divider
  /-- An option; what is attached to it, and whether an equals sign stands between. -/
  | option (rule : OptionRule) (flag : String) (attached : Option (Bool × List Char))
  | unknown (s : String)

variable (rules : List OptionRule) (s : String) (here : Surroundings)

def ruleOf? (flag : String) : Option OptionRule := rules.find? (·.flags.contains flag)

def isNegativeNumber : Bool :=
  match s.toList with
  | '-' :: rest =>
    let whole := rest.takeWhile Char.isDigit
    match rest.dropWhile Char.isDigit with
    | [] => !whole.isEmpty
    | '.' :: places => !places.isEmpty && places.all Char.isDigit
    | _ => false
  | _ => false

def cutAtEquals : String × Option (Bool × List Char) :=
  let front := s.toList.takeWhile (· != '=')
  match s.toList.dropWhile (· != '=') with
  | [] => (s, none)
  | _ :: rest => (String.ofList front, some (true, rest))

def candidates : List Word :=
  let flags := rules.flatMap fun r => r.flags.map fun f => (r, f)
  if s.startsWith "--" then
    let (front, attached) := cutAtEquals s
    (flags.filter fun (_, f) => f.startsWith front).map fun (r, f) => .option r f attached
  else
    let letter := String.ofList (s.toList.take 2)
    flags.filterMap fun (r, f) =>
      if f = letter then some (.option r f (some (false, s.toList.drop 2)))
      else if f.startsWith s then some (.option r f none)
      else none

def classify : Except Stop Word :=
  if !s.startsWith "-" then .ok (.plain s)
  else
    match ruleOf? rules s with
    | some r => .ok (.option r s none)
    | none =>
      if s = "-" then .ok (.plain s)
      else
        let (front, attached) := cutAtEquals s
        match attached, ruleOf? rules front with
        | some _, some r => .ok (.option r front attached)
        | _, _ =>
          match candidates rules s with
          | [w] => .ok w
          | [] => .ok (if isNegativeNumber s || s.contains ' ' then .plain s else .unknown s)
          | _ => .error (.refused s!"ambiguous option: {s}")

def classifyAll (rules : List OptionRule) : List String → Except Stop (List Word)
  | [] => .ok []
  | "--" :: rest => .ok (.divider :: rest.map .plain)
  | s :: rest => do return (← classify rules s) :: (← classifyAll rules rest)

/-- The settings of one word of options: those that are complete, an option that waits for its value, and what could
not be read. -/
structure Bundle where
  settings : List (String × String) := []
  waiting : Option OptionRule := none
  extra : Option String := none

def bundle (rules : List OptionRule) (rule : OptionRule) (flag : String) : Option (Bool × List Char) → Except Stop Bundle
  | none => .ok (if rule.takesValue then { waiting := some rule } else { settings := [(rule.key, "")] })
  | some (withEquals, text) =>
    if rule.takesValue then .ok { settings := [(rule.key, String.ofList text)] }
    else
      let refuse := Stop.refused s!"ignored explicit argument {String.ofList text}"
      match text with
      | [] => .error refuse
      | c :: rest =>
        if flag.startsWith "--" || withEquals || c = '-' then .error refuse
        else
          let here := (rule.key, "")
          let next := String.ofList ['-', c]
          match ruleOf? rules next with
          | none => .ok { settings := [here], extra := some (String.ofList ('-' :: text)) }
          | some r => do
            let b ← match rest with
              | [] => bundle rules r next none
              | '=' :: value => bundle rules r next (some (true, value))
              | d :: more => bundle rules r next (some (false, d :: more))
            return { b with settings := here :: b.settings }
  termination_by attached => (attached.map fun a => a.2.length + 1).getD 0

/-- Arguments read in part. -/
structure Arguments where
  settings : List (String × String) := []
  main : Option String := none
  extras : List String := []

namespace Arguments

variable (a : Arguments) (key : String)

def value? : Option String := a.settings.reverse.lookup key

def isSet : Bool := (a.value? key).isSome

def apply (settings : List (String × String)) : Except Stop Arguments :=
  if settings.any (·.1 == "help") then .error .help
  else .ok { a with settings := a.settings ++ settings }

def takePlain (s : String) : Arguments :=
  match a.main with
  | none => { a with main := some s }
  | some _ => { a with extras := a.extras ++ [s] }

def readWords (rules : List OptionRule) (a : Arguments) : List Word → Except Stop Arguments
  | [] => .ok a
  | .plain s :: .divider :: rest =>
    if a.main.isNone then readWords rules (a.takePlain s) rest
    else readWords rules { a.takePlain s with extras := a.extras ++ [s, "--"] } rest
  | .plain s :: rest => readWords rules (a.takePlain s) rest
  | .divider :: rest =>
    if a.main.isNone then readWords rules a rest
    else readWords rules { a with extras := a.extras ++ ["--"] } rest
  | .unknown s :: rest => readWords rules { a with extras := a.extras ++ [s] } rest
  | .option rule flag attached :: rest => do
    let b ← bundle rules rule flag attached
    let a := { a with extras := a.extras ++ b.extra.toList }
    match b.waiting with
    | none => readWords rules (← a.apply b.settings) rest
    | some waiting =>
      match rest with
      | .plain value :: rest =>
        readWords rules (← a.apply (b.settings ++ [(waiting.key, value)])) rest
      | _ => .error (.refused s!"argument {flag}: expected one argument")

end Arguments

def readArguments (wanted : String) (args : List String) : Except Stop (String × Arguments) := do
  let a ← Arguments.readWords rules {} (← classifyAll rules args)
  match a.main with
  | none => throw (.refused s!"the following arguments are required: {wanted}")
  | some m =>
    if a.extras.isEmpty then return (m, a)
    else throw (.refused ("unrecognized arguments: " ++ " ".intercalate a.extras))

/-- How a command ends: its exit code if it has one, the files it makes, and what it complains of. -/
structure Finish where
  exit : Option Nat := none
  made : Folder := []
  complaint : String := ""

/-- Where a command runs: the files, and the place of their folder. -/
structure Surroundings where
  folder : Folder
  place : String

def helpRule : OptionRule := { key := "help", flags := ["-h", "--help"] }

variable {σ : Type}

def sayLine (line : String) : RandomRun σ Unit := RandomRun.sayIf true (line ++ "\n")

def plainRun {α : Type} (r : Run α) : RandomRun σ α := StateT.lift r

/-! ## Optimising -/

def optimiseUsage : String := "usage: pyzx opt [-h] [-d DEST] [-t OUTFORMAT] [-v] [-g SIMP] [-p] source"

def optimiseHelp : String :=
  optimiseUsage ++ "\n\nEnd-to-end circuit optimizer\n\n"
    ++ "For simple optimisation of a circuit run as\n    python -m pyzx opt circuit.extension\n\n"
    ++ "This puts an optimised version of the circuit in the same directory and of the same file type.\n\n"
    ++ "If we want to specify the output location and type we can run\n"
    ++ "    python -m pyzx opt -d outputfile.qc -t qc inputfile.qasm\n\n"
    ++ "positional arguments:\n  source        source circuit\n\noptions:\n"
    ++ "  -h, --help    show this help message and exit\n"
    ++ "  -d DEST       destination for output file\n"
    ++ "  -t OUTFORMAT  Specify the output format (qasm, qc, quipper). By default matches the input\n"
    ++ "  -v            Output verbose information\n"
    ++ "  -g SIMP       ZX-simplifier to use. Options are full (default), cliff, or tele\n"
    ++ "  -p            Whether to also run the phase-polynomial optimizer (default is false)\n"

def optimiseRules : List OptionRule :=
  [helpRule, { key := "dest", flags := ["-d"], takesValue := true },
    { key := "format", flags := ["-t"], takesValue := true }, { key := "verbose", flags := ["-v"] },
    { key := "simplifier", flags := ["-g"], takesValue := true },
    { key := "blocks", flags := ["-p"] }]

def outputFormat? : String → Option FileFormat
  | "qasm" => some .qasm
  | "qc" => some .qc
  | "quipper" => some .quipper
  | _ => none

def write (c : Circuit) : FileFormat → Attempt String
  | .qc => c.toQc
  | .qasm => c.toQasm
  | .quipper => c.toQuipper
  | .qgraph => .error .diagramFile

def simplifyAsDiagram (simplifier : String) (verbose : Bool) (c : Circuit) : Run Circuit := do
  let g ← c.toDiagram true
  Run.sayIf verbose "Running simplification algorithm...\n"
  if simplifier = "tele" then
    return (← Circuit.ofDiagram (← Strategy.teleport verbose g) true).splitPhases
  let g ← match simplifier with
    | "full" => Strategy.fullReduce verbose g
    | "cliff" => throw .unsupported
    | _ => pure g
  Run.sayIf verbose "Extracting circuit...\n"
  return (← g.extract {}).1

def optimise [Random.Source σ] (here : Surroundings) (source : String) (a : Arguments) : RandomRun σ Finish := do
  let verbose := a.isSet "verbose"
  if (here.folder.text? source).isNone then
    sayLine s!"File {source} does not exist"
    return {}
  let found ← RandomRun.ofExcept (FileFormat.detect source (here.folder.file source))
  let wanted := (a.value? "format").getD "match"
  let chosen := if wanted = "match" then some found else outputFormat? wanted
  match chosen with
  | none =>
    sayLine s!"Unsupported circuit type {wanted}. Please use qasm, qc or quipper"
    return {}
  | some format =>
    let dest := (a.value? "dest").getD ""
    if dest = "" then throw .misapplied
    let c ← RandomRun.ofExcept (here.folder.loadCircuit source)
    if verbose then
      sayLine "Starting circuit:"
      sayLine (← RandomRun.ofExcept (do (← c.expand).stats))
    let c ← plainRun (simplifyAsDiagram ((a.value? "simplifier").getD "full") verbose c)
    RandomRun.sayIf verbose "Optimizing...\n"
    let c ← RandomRun.ofExcept c.expand
    let c ← if a.isSet "blocks" then c.optimise false else plainRun (c.simplify false)
    let c := (← RandomRun.ofExcept c.expand).splitPhases
    if verbose then sayLine (← RandomRun.ofExcept c.stats)
    sayLine s!"Writing output to {Folder.absolute here.place dest}"
    return { made := [(dest, ← RandomRun.ofExcept (write c format))] }

/-! ## Pictures -/

def pictureHelp : String :=
  "usage: pyzx tikz source [dest]\n\nScript for converting circuits into tikz files.\n\n"
    ++ "positional arguments:\n   source       File containing circuit\n"
    ++ "   dest         Desired output location for TikZ file\n\n"
    ++ "The default value for dest is to put a .tikz file of the same name in the folder of source.\n"

def drawTo (source dest : String) : Run Finish := do
  let c ← here.folder.loadCircuit source
  Run.say s!"Converting circuit with {c.gates.length} gates to TikZ\n"
  let (g, _) ← (Rule.identity Rule.anything).exhaust false (← c.toDiagram true)
  let text ← g.toTikz {}
  Run.say s!"Output file:  {Folder.absolute here.place dest}\n"
  return { made := [(dest, text)] }

def picture : List String → Run Finish
  | [] => do
    Run.say (pictureHelp ++ "\n")
    return {}
  | [source] => do
    if (here.folder.text? source).isNone then
      Run.say s!"File '{source}' does not exist\n"
      return {}
    drawTo here source (Folder.stem source ++ ".tikz")
  | source :: dest :: _ => drawTo here source dest

/-! ## Choosing a command -/

def mainHelp : String :=
  "usage: python -m pyzx command [args]\nRun one of the scripts supplied with PyZX.\n\n"
    ++ "The options for command are:\n    opt   -- Optimise a circuit using PyZX\n"
    ++ "    tikz  -- Convert a circuit into a Tikz file\n\n"
    ++ "For help on the arguments for these commands run for instance 'python -m pyzx opt --help'\n\n"
    ++ "PyZX commandline interface\n\npositional arguments:\n  command     Command to run\n\n"
    ++ "options:\n  -h, --help  show this help message and exit\n"

def stopped (help usage name : String) : Stop → RandomRun σ Finish
  | .help => do
    RandomRun.sayIf true help
    return { exit := some 0 }
  | .refused complaint =>
    return { exit := some 2, complaint := usage ++ "\n" ++ name ++ ": error: " ++ complaint ++ "\n" }

def showHelp : RandomRun σ Finish := do
  RandomRun.sayIf true mainHelp
  return { exit := some 1 }

def run [Random.Source σ] (here : Surroundings) : List String → RandomRun σ Finish
  | [] => showHelp
  | first :: rest =>
    match readArguments [helpRule] "command" [first] with
    | .error stop => stopped mainHelp "usage: python -m pyzx command [args]" "PyZX" stop
    | .ok ("opt", _) =>
      match readArguments optimiseRules "source" rest with
      | .error stop => stopped optimiseHelp optimiseUsage "pyzx opt" stop
      | .ok (source, a) => optimise here source a
    | .ok ("tikz", _) => plainRun (picture here rest)
    | .ok (other, _) => do
      sayLine s!"Unrecognized command '{other}'"
      showHelp

end ZXCircuits.CommandLine
