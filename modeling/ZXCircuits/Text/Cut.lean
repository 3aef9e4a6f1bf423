/-
  Cutting texts: finding, slicing, splitting and stripping.

  Negative positions count from the end, and `position` answers `-1` where the pattern does not occur.
-/

namespace ZXCircuits.Text

def isBlank (c : Char) : Bool :=
  let n := c.toNat
  (9 ≤ n && n ≤ 13) || (28 ≤ n && n ≤ 32) || n == 0x85 || n == 0xA0 || n == 0x1680
    || (0x2000 ≤ n && n ≤ 0x200A) || n == 0x2028 || n == 0x2029 || n == 0x202F || n == 0x205F
    || n == 0x3000

def endsLine (c : Char) : Bool :=
  let n := c.toNat
  (10 ≤ n && n ≤ 13) || (28 ≤ n && n ≤ 30) || n == 0x85 || n == 0x2028 || n == 0x2029

def find? (pattern : List Char) : List Char → Nat → Option Nat
  | [], i => if pattern.isEmpty then some i else none
  | c :: rest, i =>
    if pattern.isPrefixOf (c :: rest) then some i else find? pattern rest (i + 1)

def position (pattern text : List Char) : Int :=
  match find? pattern text 0 with
  | some i => i
  | none => -1

def lastPosition (c : Char) (text : List Char) : Int :=
  match find? [c] text.reverse 0 with
  | some i => (text.length : Int) - 1 - i
  | none => -1

def contains (pattern text : List Char) : Bool := (find? pattern text 0).isSome

def clampPosition (length : Nat) (i : Int) : Nat :=
  if i < 0 then (i + length).toNat else min i.toNat length

variable (text : List Char) (width : Nat) (sep : Char)

/-- The part of a text from one position up to but not including another; negative positions count
    from the end. -/
def slice (i j : Int) : List Char :=
  let a := clampPosition text.length i
  let b := clampPosition text.length j
  (text.take b).drop a

def stripLeft : List Char := text.dropWhile isBlank

def strip : List Char := ((stripLeft text).reverse.dropWhile isBlank).reverse

/-- The pieces of a text between the occurrences of one character, the current piece being built in
    reverse. -/
def splitCharFrom (sep : Char) : List Char → List Char → List (List Char)
  | piece, [] => [piece.reverse]
  | piece, c :: rest =>
    if c = sep then piece.reverse :: splitCharFrom sep [] rest
    else splitCharFrom sep (c :: piece) rest

def splitChar (text : List Char) : List (List Char) := splitCharFrom sep [] text

/-- The pieces of a text between the occurrences of a non-empty pattern; `skip` characters of the
    last occurrence are still to be passed over. -/
def splitTextFrom (sep : List Char) : Nat → List Char → List Char → List (List Char)
  | _, piece, [] => [piece.reverse]
  | skip + 1, piece, _ :: rest => splitTextFrom sep skip piece rest
  | 0, piece, c :: rest =>
    if sep.isPrefixOf (c :: rest) then
      piece.reverse :: splitTextFrom sep (sep.length - 1) [] rest
    else splitTextFrom sep 0 (c :: piece) rest

def splitText (sep text : List Char) : List (List Char) := splitTextFrom sep 0 [] text

def splitFirst (text : List Char) : Option (List Char × List Char) :=
  if text.contains sep then
    some (text.takeWhile (· ≠ sep), (text.dropWhile (· ≠ sep)).drop 1)
  else none

def wordsFrom : List Char → List Char → List (List Char)
  | word, [] => if word.isEmpty then [] else [word.reverse]
  | word, c :: rest =>
    if isBlank c then
      if word.isEmpty then wordsFrom [] rest else word.reverse :: wordsFrom [] rest
    else wordsFrom (c :: word) rest

def words : List (List Char) := wordsFrom [] text

/-- The lines of a text, the current line being built in reverse; `started` tells whether the text
    has a current line. -/
def linesFrom : List Char → Bool → List Char → List (List Char)
  | line, started, [] => if started then [line.reverse] else []
  | line, _, '\r' :: '\n' :: rest => line.reverse :: linesFrom [] false rest
  | line, _, c :: rest =>
    if endsLine c then line.reverse :: linesFrom [] false rest
    else linesFrom (c :: line) true rest

def lines : List (List Char) := linesFrom [] false text

def replaceChar (a b : Char) (text : List Char) : List Char := text.map fun c => if c = a then b else c

/-- Removes every occurrence of a non-empty pattern; `skip` characters of the last one are still to be passed over. -/
def removeFrom (pattern : List Char) : Nat → List Char → List Char
  | _, [] => []
  | skip + 1, _ :: rest => removeFrom pattern skip rest
  | 0, c :: rest =>
    if pattern.isPrefixOf (c :: rest) then removeFrom pattern (pattern.length - 1) rest
    else c :: removeFrom pattern 0 rest

def remove (pattern text : List Char) : List Char := removeFrom pattern 0 text

def unifyNewlines : List Char → List Char
  | [] => []
  | '\r' :: '\n' :: rest => '\n' :: unifyNewlines rest
  | '\r' :: rest => '\n' :: unifyNewlines rest
  | c :: rest => c :: unifyNewlines rest

def ljust (s : String) : String := s ++ String.ofList (List.replicate (width - s.length) ' ')

def rjust (s : String) : String := String.ofList (List.replicate (width - s.length) ' ') ++ s

end ZXCircuits.Text
