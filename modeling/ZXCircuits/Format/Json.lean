/-
  JSON values, their reader and their printer.

  A repeated key keeps its first place and takes its last value.  The printer escapes every character outside printable ASCII.
-/
import ZXCircuits.Text.Numeral

namespace ZXCircuits

inductive Json where
  | null
  | bool (b : Bool)
  | int (n : Int)
  | real (x : Extended)
  | str (s : String)
  | arr (items : List Json)
  | obj (members : List (String × Json))
  deriving Repr, Inhabited

namespace Json

def get? (key : String) : Json → Option Json
  | obj members => members.lookup key
  | _ => none

def setMember (members : List (String × Json)) (key : String) (value : Json) : List (String × Json) :=
  if members.any (·.1 == key) then members.map fun m => if m.1 == key then (key, value) else m
  else members ++ [(key, value)]

/-! ## Printing -/

def hex4 (n : Nat) : String := Decimal.padLeft 4 (String.ofList (Nat.toDigits 16 n))

def escapeChar (c : Char) : String :=
  let n := c.toNat
  if c = '"' then "\\\""
  else if c = '\\' then "\\\\"
  else if c = '\n' then "\\n"
  else if c = '\r' then "\\r"
  else if c = '\t' then "\\t"
  else if n = 8 then "\\b"
  else if n = 12 then "\\f"
  else if 0x20 ≤ n ∧ n ≤ 0x7E then String.singleton c
  else if n < 0x10000 then "\\u" ++ hex4 n
  else
    let m := n - 0x10000
    "\\u" ++ hex4 (0xD800 + m / 0x400) ++ "\\u" ++ hex4 (0xDC00 + m % 0x400)

def quote (s : String) : String := "\"" ++ s.foldl (fun acc c => acc ++ escapeChar c) "" ++ "\""

def realText : Extended → String
  | .finite x => x.text
  | .infinite negative => if negative then "-Infinity" else "Infinity"
  | .nan => "NaN"

mutual
def write (acc : String) : Json → String
  | null => acc ++ "null"
  | bool b => acc ++ (if b then "true" else "false")
  | int n => acc ++ toString n
  | real x => acc ++ realText x
  | str s => acc ++ quote s
  | arr items => writeItems (acc ++ "[") items true ++ "]"
  | obj members => writeMembers (acc ++ "\x7b") members true ++ "\x7d"

def writeItems (acc : String) : List Json → Bool → String
  | [], _ => acc
  | j :: rest, first => writeItems (write (if first then acc else acc ++ ", ") j) rest false

def writeMembers (acc : String) : List (String × Json) → Bool → String
  | [], _ => acc
  | (k, j) :: rest, first =>
    let acc := (if first then acc else acc ++ ", ") ++ quote k ++ ": "
    writeMembers (write acc j) rest false
end

def text (j : Json) : String := write "" j

/-! ## Reading -/

def skipBlanks (cs : List Char) : List Char := cs.dropWhile fun c => c = ' ' || c = '\n' || c = '\t' || c = '\r'

def hexDigit? (c : Char) : Option Nat :=
  let n := c.toNat
  if 0x30 ≤ n ∧ n ≤ 0x39 then some (n - 0x30)
  else if 0x41 ≤ n ∧ n ≤ 0x46 then some (n - 0x37)
  else if 0x61 ≤ n ∧ n ≤ 0x66 then some (n - 0x57)
  else none

def hex4? : List Char → Option (Nat × List Char)
  | a :: b :: c :: d :: rest => do
    let a ← hexDigit? a
    let b ← hexDigit? b
    let c ← hexDigit? c
    let d ← hexDigit? d
    some (((a * 16 + b) * 16 + c) * 16 + d, rest)
  | _ => none

def plainEscape? : Char → Option Char
  | '"' => some '"'
  | '\\' => some '\\'
  | '/' => some '/'
  | 'b' => some (Char.ofNat 8)
  | 'f' => some (Char.ofNat 12)
  | 'n' => some '\n'
  | 'r' => some '\r'
  | 't' => some '\t'
  | _ => none

def readText : Nat → List Char → List Char → Option (String × List Char)
  | 0, _, _ => none
  | _, _, [] => none
  | _, acc, '"' :: rest => some (String.ofList acc.reverse, rest)
  | fuel + 1, acc, '\\' :: 'u' :: rest =>
    match hex4? rest with
    | none => none
    | some (n, after) =>
      if 0xD800 ≤ n ∧ n < 0xDC00 then
        match after with
        | '\\' :: 'u' :: low =>
          match hex4? low with
          | some (m, after') =>
            if 0xDC00 ≤ m ∧ m < 0xE000 then
              readText fuel (Char.ofNat (0x10000 + (n - 0xD800) * 0x400 + (m - 0xDC00)) :: acc)
                after'
            else readText fuel (Char.ofNat 0xFFFD :: acc) after
          | none => readText fuel (Char.ofNat 0xFFFD :: acc) after
        | _ => readText fuel (Char.ofNat 0xFFFD :: acc) after
      else if 0xDC00 ≤ n ∧ n < 0xE000 then readText fuel (Char.ofNat 0xFFFD :: acc) after
      else readText fuel (Char.ofNat n :: acc) after
  | fuel + 1, acc, '\\' :: c :: rest =>
    match plainEscape? c with
    | some c => readText fuel (c :: acc) rest
    | none => none
  | fuel + 1, acc, c :: rest =>
    if c.toNat < 0x20 then none else readText fuel (c :: acc) rest

def asciiDigits : Nat → Nat → List Char → Nat × Nat × List Char
  | value, count, c :: rest =>
    if c.isDigit then asciiDigits (10 * value + (c.toNat - 0x30)) (count + 1) rest
    else (value, count, c :: rest)
  | value, count, [] => (value, count, [])

def readNumber (negative : Bool) (cs : List Char) : Option (Json × List Char) :=
  let (whole, wholeCount, rest) :=
    match cs with
    | '0' :: rest => (0, 1, rest)
    | _ => asciiDigits 0 0 cs
  if wholeCount = 0 then none
  else
    let (value, fracCount, rest) :=
      match rest with
      | '.' :: after =>
        let (v, n, r) := asciiDigits whole 0 after
        if n = 0 then (whole, 0, rest) else (v, n, r)
      | _ => (whole, 0, rest)
    let (e, marked, rest) :=
      match rest with
      | c :: after =>
        if c = 'e' ∨ c = 'E' then
          let (eNegative, body) := Text.sign after
          let (v, n, r) := asciiDigits 0 0 body
          if n = 0 then ((0 : Int), false, rest)
          else ((if eNegative then -(v : Int) else v), true, r)
        else (0, false, rest)
      | [] => (0, false, rest)
    if fracCount = 0 ∧ ¬ marked then
      some (int (if negative then -(whole : Int) else whole), rest)
    else some (real (Text.scaledDouble negative value (e - (fracCount : Int))), rest)

def readWord (cs : List Char) : Option (Json × List Char) :=
  let word? (word : String) (j : Json) : Option (Json × List Char) :=
    if word.toList.isPrefixOf cs then some (j, cs.drop word.length) else none
  word? "null" null <|> word? "true" (bool true) <|> word? "false" (bool false)
    <|> word? "NaN" (real .nan) <|> word? "Infinity" (real (.infinite false))
    <|> word? "-Infinity" (real (.infinite true))

mutual
def readValue : Nat → List Char → Option (Json × List Char)
  | 0, _ => none
  | _, [] => none
  | fuel + 1, '"' :: rest => (readText fuel [] rest).map fun (s, r) => (str s, r)
  | fuel + 1, '[' :: rest =>
    match skipBlanks rest with
    | ']' :: after => some (arr [], after)
    | cs => readItems fuel [] cs
  | fuel + 1, '\x7b' :: rest =>
    match skipBlanks rest with
    | '\x7d' :: after => some (obj [], after)
    | cs => readMembers fuel [] cs
  | _ + 1, '-' :: rest => readNumber true rest <|> readWord ('-' :: rest)
  | _ + 1, cs => readNumber false cs <|> readWord cs

def readItems : Nat → List Json → List Char → Option (Json × List Char)
  | 0, _, _ => none
  | fuel + 1, acc, cs =>
    match readValue fuel cs with
    | none => none
    | some (j, rest) =>
      match skipBlanks rest with
      | ',' :: after => readItems fuel (j :: acc) (skipBlanks after)
      | ']' :: after => some (arr (j :: acc).reverse, after)
      | _ => none

def readMembers : Nat → List (String × Json) → List Char → Option (Json × List Char)
  | 0, _, _ => none
  | fuel + 1, acc, '"' :: cs =>
    match readText fuel [] cs with
    | none => none
    | some (key, rest) =>
      match skipBlanks rest with
      | ':' :: rest =>
        match readValue fuel (skipBlanks rest) with
        | none => none
        | some (j, rest) =>
          match skipBlanks rest with
          | ',' :: after => readMembers fuel ((key, j) :: acc) (skipBlanks after)
          | '\x7d' :: after =>
            some (obj (((key, j) :: acc).reverse.foldl (fun m kv => setMember m kv.1 kv.2) []), after)
          | _ => none
      | _ => none
  | _, _, _ => none
end

def parse? (s : String) : Option Json :=
  let cs := s.toList
  match readValue (cs.length + 1) (skipBlanks cs) with
  | some (j, rest) => if (skipBlanks rest).isEmpty then some j else none
  | none => none

end Json

end ZXCircuits
