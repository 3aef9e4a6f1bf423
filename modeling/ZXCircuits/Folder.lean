/-
  Files of a folder, by path, and telling circuit formats apart by file name and content.
-/
import ZXCircuits.Format.Qasm
import ZXCircuits.Format.Qc
import ZXCircuits.Format.Quipper

namespace ZXCircuits

/-- A file with the name it was asked for by. -/
structure SourceFile where
  name : String
  text : String

namespace SourceFile

def baseName (path : String) : String := String.ofList ((path.toList.reverse.takeWhile (· != '/')).reverse)

/-- The extension of a path, from the last point of its last component on; points at its beginning do not count. -/
def extension (path : String) : String :=
  let base := (baseName path).toList.dropWhile (· == '.')
  if base.contains '.' then
    String.ofList ('.' :: (base.reverse.takeWhile (· != '.')).reverse)
  else ""

def content (f : SourceFile) : List Char := Text.unifyNewlines f.text.toList

end SourceFile

inductive FileFormat where
  | qc
  | qasm
  | qgraph
  | quipper
  deriving DecidableEq, Repr

namespace FileFormat

def name : FileFormat → String
  | qc => "qc"
  | qasm => "qasm"
  | qgraph => "qgraph"
  | quipper => "quipper"

def ofExtension (ext : String) : Option FileFormat :=
  let e := ext.toList
  if ext = ".qc" ∨ ext = ".tfc" then some qc
  else if Text.contains "qasm".toList e then some qasm
  else if ext = ".qgraph" then some qgraph
  else if Text.contains "quip".toList e then some quipper
  else none

def ofContent (text : List Char) : Option FileFormat :=
  let data := text.take 128
  let holds (s : String) : Bool := Text.contains s.toList data
  if "Inputs:".toList.isPrefixOf data then some quipper
  else if holds ".v" || holds ".i" || holds ".o" then some qc
  else if holds "QASM" then some qasm
  else none

def detect (path : String) (file : Attempt SourceFile) : Attempt FileFormat :=
  match ofExtension (SourceFile.extension path) with
  | some f => .ok f
  | none => do
    let f ← file
    match ofContent f.content with
    | some f => .ok f
    | none => .error .undeterminedFormat

end FileFormat

namespace Circuit

variable (f : SourceFile)

def ofQasmFile : Attempt Circuit := do
  return { (← Qasm.parse f.content) with name := SourceFile.baseName f.name }

def ofQcFile : Attempt Circuit := Qc.parse f.name f.content

def ofQuipperFile : Attempt Circuit := do
  return { (← Quipper.parse f.content) with name := SourceFile.baseName f.name }

def ofQuipperCenter : Attempt Circuit := Quipper.parseCenter f.content

def load (path : String) (file : Attempt SourceFile) : Attempt Circuit := do
  match ← FileFormat.detect path file with
  | .qc => ofQcFile (← file)
  | .qasm => ofQasmFile (← file)
  | .qgraph => throw .diagramFile
  | .quipper =>
    let f ← file
    match ofQuipperFile f with
    | .ok c => return c
    | .error _ => ofQuipperCenter f

end Circuit

abbrev Folder := List (String × String)

namespace Folder

def stepTo (done : List String) (part : String) : List String :=
  if part = "" ∨ part = "." then done
  else if part = ".." then done.dropLast
  else done ++ [part]

def components (path : String) : List String := ((Text.splitChar '/' path.toList).map String.ofList).foldl stepTo []

def absolute (place path : String) : String :=
  let joined := "/".intercalate (components path)
  if path.startsWith "/" then "/" ++ joined
  else if joined = "" then place
  else place ++ "/" ++ joined

def stem (path : String) : String := String.ofList (path.toList.take (path.length - (SourceFile.extension path).length))

def join (directory path : String) : String :=
  if path.startsWith "/" ∨ directory = "" then path
  else if directory.endsWith "/" then directory ++ path
  else directory ++ "/" ++ path

variable (f : Folder) (path : String)

def text? : Option String := (f.find? fun file => components file.1 == components path).map (·.2)

def file : Attempt SourceFile :=
  match f.text? path with
  | some text => .ok { name := path, text := text }
  | none => .error .missingFile

def entryOf (directory : List String) (path : String) : Option (String × Bool) :=
  let parts := components path
  if directory.isPrefixOf parts then
    match parts.drop directory.length with
    | [name] => some (name, true)
    | name :: _ => some (name, false)
    | [] => none
  else none

def filesIn (directory : String) : Attempt (List String) :=
  match f.filterMap fun file => entryOf (components directory) file.1 with
  | [] => .error .missingFile
  | entries => .ok (((entries.filter (·.2)).map (·.1)).mergeSort fun a b => a ≤ b)

def loadCircuit : Attempt Circuit := Circuit.load path (f.file path)

end Folder

end ZXCircuits
