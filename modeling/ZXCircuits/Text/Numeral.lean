/-
  Reading numbers from texts.

  Numbers may stand between blanks, carry a sign and have single underscores between their digits, which may be of any script.
  Decimals may spell an infinity or an undefined value.
-/
import ZXCircuits.Number.Decimal
import ZXCircuits.Text.Cut

namespace ZXCircuits.Text

def hexPadded (width n : Nat) : String :=
  let ds := String.ofList (Nat.toDigits 16 n)
  "".pushn '0' (width - ds.length) ++ ds

def prints (c : Char) : Bool :=
  let n := c.toNat
  (0x20 ≤ n && n < 0x7f) ||
  (0xa1 ≤ n && n != 0xad && !(0x2000 ≤ n && n ≤ 0x200f) && !(0x2028 ≤ n && n ≤ 0x202f) &&
    !(0x205f ≤ n && n ≤ 0x206f) && n != 0x3000 && n != 0xfeff && !(0xe000 ≤ n && n ≤ 0xf8ff) &&
    n != 0x1680 && n < 0xe0000)

def quotedChar (quote c : Char) : String :=
  if c = quote ∨ c = '\\' then String.ofList ['\\', c]
  else if c = '\n' then "\\n"
  else if c = '\r' then "\\r"
  else if c = '\t' then "\\t"
  else if prints c then c.toString
  else if c.toNat < 0x100 then "\\x" ++ hexPadded 2 c.toNat
  else if c.toNat < 0x10000 then "\\u" ++ hexPadded 4 c.toNat
  else "\\U" ++ hexPadded 8 c.toNat

def quoted (s : List Char) : String :=
  let q := if s.contains '\'' && !s.contains '"' then '"' else '\''
  q.toString ++ String.join (s.map (quotedChar q)) ++ q.toString

def quotedList (items : List (List Char)) : String := "[" ++ ", ".intercalate (items.map quoted) ++ "]"

def zeroDigits : List Nat :=
  [0x30, 0x660, 0x6F0, 0x7C0, 0x966, 0x9E6, 0xA66, 0xAE6, 0xB66, 0xBE6, 0xC66, 0xCE6, 0xD66, 0xDE6,
   0xE50, 0xED0, 0xF20, 0x1040, 0x1090, 0x17E0, 0x1810, 0x1946, 0x19D0, 0x1A80, 0x1A90, 0x1B50,
   0x1BB0, 0x1C40, 0x1C50, 0xA620, 0xA8D0, 0xA900, 0xA9D0, 0xA9F0, 0xAA50, 0xABF0, 0xFF10, 0x104A0,
   0x10D30, 0x11066, 0x110F0, 0x11136, 0x111D0, 0x112F0, 0x11450, 0x114D0, 0x11650, 0x116C0,
   0x11730, 0x118E0, 0x11950, 0x11C50, 0x11D50, 0x11DA0, 0x16A60, 0x16AC0, 0x16B50, 0x1D7CE,
   0x1D7D8, 0x1D7E2, 0x1D7EC, 0x1D7F6, 0x1E140, 0x1E2F0, 0x1E950, 0x1FBF0]

def digit? (c : Char) : Option Nat :=
  let n := c.toNat
  if n < 0x80 then (if 0x30 ≤ n ∧ n ≤ 0x39 then some (n - 0x30) else none)
  else (zeroDigits.find? fun z => z ≤ n && n ≤ z + 9).map (n - ·)

/-- Reads digits with single underscores between them: their value, their number and the rest. -/
def digitsFrom : Nat → Nat → Bool → List Char → Nat × Nat × List Char
  | value, count, _, [] => (value, count, [])
  | value, count, afterDigit, c :: rest =>
    match digit? c with
    | some d => digitsFrom (10 * value + d) (count + 1) true rest
    | none =>
      if c = '_' ∧ afterDigit then
        match rest with
        | [] => (value, count, c :: rest)
        | d :: _ =>
          if (digit? d).isSome then digitsFrom value count false rest else (value, count, c :: rest)
      else (value, count, c :: rest)

variable (text : List Char)

def digits : Nat × Nat × List Char := digitsFrom 0 0 false text

def sign : List Char → Bool × List Char
  | '-' :: rest => (true, rest)
  | '+' :: rest => (false, rest)
  | rest => (false, rest)

def readInt : Option Int :=
  let (negative, rest) := sign (strip text)
  let (value, count, rest) := digits rest
  if count = 0 ∨ ¬ rest.isEmpty then none
  else some (if negative then -(value : Int) else value)

def exponentPart (marks : List Char) (text : List Char) : Int × List Char :=
  match text with
  | c :: rest =>
    if marks.contains c then
      let (negative, body) := sign rest
      let (value, count, after) := digits body
      if count = 0 then (0, text) else ((if negative then -(value : Int) else value), after)
    else (0, text)
  | [] => (0, text)

/-- The double nearest to `m` times ten to the power `e`; exponents far outside the range of doubles
    are cut off first. -/
def scaledDouble (negative : Bool) (m : Nat) (e : Int) : Extended :=
  let size : Int := (toString m).length
  if m = 0 ∨ e + size < -400 then .finite { value := 0, negZero := negative }
  else if 400 < e + size then .infinite negative
  else
    let q := (m : Rat) * Decimal.tenPow e
    match Binary64.ofRat? (if negative then -q else q) with
    | some x => .finite x
    | none => .infinite negative

def readDouble : Option Extended :=
  let (negative, rest) := sign (strip text)
  let word := String.ofList (rest.map Char.toLower)
  if word = "inf" ∨ word = "infinity" then some (.infinite negative)
  else if word = "nan" then some .nan
  else
    let (whole, wholeCount, rest) := digits rest
    let (value, fracCount, rest) :=
      match rest with
      | '.' :: after =>
        let (v, n, r) := digitsFrom whole 0 false after
        (v, n, r)
      | _ => (whole, 0, rest)
    if wholeCount + fracCount = 0 then none
    else
      let (e, rest) := exponentPart ['e', 'E'] rest
      if rest.isEmpty then some (scaledDouble negative value (e - (fracCount : Int))) else none

/-- What a ratio text gives: a number, nothing readable, or a zero denominator. -/
inductive RatioReading where
  | value (q : Rat)
  | unreadable
  | zeroDenominator
  deriving DecidableEq, Repr

def readRatio : RatioReading :=
  let (negative, rest) := sign (strip text)
  let signed (q : Rat) : Rat := if negative then -q else q
  let (whole, wholeCount, rest) := digits rest
  match rest with
  | '/' :: after =>
    if wholeCount = 0 then .unreadable
    else
      let (den, denCount, rest) := digits after
      if denCount = 0 ∨ ¬ rest.isEmpty then .unreadable
      else if den = 0 then .zeroDenominator
      else .value (signed (mkRat whole den))
  | _ =>
    let (value, fracCount, rest) :=
      match rest with
      | '.' :: after => digitsFrom whole 0 false after
      | _ => (whole, 0, rest)
    if wholeCount + fracCount = 0 then .unreadable
    else
      let (e, rest) := exponentPart ['e', 'E'] rest
      if rest.isEmpty then .value (signed ((value : Rat) * Decimal.tenPow (e - (fracCount : Int))))
      else .unreadable

end ZXCircuits.Text
