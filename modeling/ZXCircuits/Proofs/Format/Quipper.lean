/-
  Gates written as lines and read again.

  The line of a gate is read back as the same gate (`Quipper.readLine_toQuipper`), and so are the lines of a circuit under a line
  that declares its wires as `0:Qbit` (`Quipper.parseLines_written`).  The writer leaves the colon out: what it writes for a circuit
  with a wire is refused (`Quipper.parseLines_toQuipper`).
-/
import ZXCircuits.Format.Quipper
import Mathlib.Data.List.Basic
import Mathlib.Tactic.FinCases
import Mathlib.Tactic.IntervalCases

namespace ZXCircuits

open List

variable {n : ℕ} {c : Char}

namespace Text

variable {a b : Char} {xs ys zs text pattern : List Char} {d : ℕ}

/-! ## Cutting -/

lemma find?_single (ha : a ∉ xs) : ∀ i, find? [a] (xs ++ a :: ys) i = some (i + xs.length) := by
  induction xs with
  | nil => exact fun i => by simp [find?]
  | cons x xs ih =>
    intro i
    rw [mem_cons, not_or] at ha
    have hx : [a].isPrefixOf (x :: (xs ++ a :: ys)) = false := by simpa [isPrefixOf] using ha.1
    rw [cons_append, find?, hx, if_neg Bool.false_ne_true, ih ha.2, length_cons]
    congr 1
    omega

lemma position_single (xs ys : List Char) (ha : a ∉ xs) : position [a] (xs ++ a :: ys) = xs.length := by
  rw [position, find?_single ha, Nat.zero_add]

lemma slice_append (xs ys zs : List Char) : slice (xs ++ ys ++ zs) xs.length (xs.length + ys.length) = ys := by
  have h1 : clampPosition (xs ++ ys ++ zs).length xs.length = xs.length := by
    rw [clampPosition, if_neg (by omega), length_append, length_append]
    omega
  have h2 : clampPosition (xs ++ ys ++ zs).length (xs.length + ys.length) = (xs ++ ys).length := by
    rw [clampPosition, if_neg (by omega), length_append, length_append]
    omega
  rw [slice, h1, h2, take_left, drop_left]

lemma splitTextFrom_append (s : List Char) {xs : List Char} (ys : List Char) (hx : a ∉ xs) : ∀ piece,
    splitTextFrom (a :: s) 0 piece (xs ++ (a :: s) ++ ys) = (piece.reverse ++ xs) :: splitTextFrom (a :: s) 0 [] ys := by
  have skip : ∀ (s t : List Char) (sep : List Char), splitTextFrom sep s.length [] (s ++ t) = splitTextFrom sep 0 [] t := by
    intro s
    induction s with
    | nil => exact fun _ _ => rfl
    | cons c s ih => exact fun t sep => by rw [cons_append, length_cons, splitTextFrom, ih]
  induction xs with
  | nil =>
    intro piece
    have pre : (a :: s).isPrefixOf (a :: (s ++ ys)) := by simp
    rw [nil_append, cons_append, splitTextFrom, pre, if_pos rfl, length_cons, Nat.add_sub_cancel, skip, append_nil]
  | cons x xs ih =>
    intro piece
    rw [mem_cons, not_or] at hx
    have pre : (a :: s).isPrefixOf (x :: (xs ++ (a :: s) ++ ys)) = false := by simp [isPrefixOf, hx.1]
    rw [cons_append, cons_append, splitTextFrom, pre, if_neg Bool.false_ne_true, ih hx.2, reverse_cons, append_assoc]
    rfl

lemma splitTextFrom_self (s xs : List Char) (hx : a ∉ xs) : ∀ piece, splitTextFrom (a :: s) 0 piece xs = [piece.reverse ++ xs] := by
  induction xs with
  | nil => exact fun piece => by rw [splitTextFrom, append_nil]
  | cons x xs ih =>
    intro piece
    rw [mem_cons, not_or] at hx
    have pre : (a :: s).isPrefixOf (x :: xs) = false := by simp [isPrefixOf, hx.1]
    rw [splitTextFrom, pre, ih hx.2, reverse_cons, append_assoc]
    rfl

lemma splitCharFrom_eq (a : Char) (xs : List Char) : ∀ piece, splitCharFrom a piece xs = splitTextFrom [a] 0 piece xs := by
  induction xs with
  | nil => exact fun _ => rfl
  | cons x xs ih =>
    intro piece
    by_cases h : x = a
    · simp [splitCharFrom, splitTextFrom, h, ih]
    · simp [splitCharFrom, splitTextFrom, h, Ne.symm h, ih]

section

variable (hx : a ∉ xs)
include hx

variable (piece : List Char)

lemma splitCharFrom_append : splitCharFrom a piece (xs ++ a :: ys) = (piece.reverse ++ xs) :: splitCharFrom a [] ys := by
  simpa [splitCharFrom_eq] using splitTextFrom_append [] ys hx piece

lemma splitCharFrom_self : splitCharFrom a piece xs = [piece.reverse ++ xs] := by
  rw [splitCharFrom_eq, splitTextFrom_self [] xs hx]

lemma splitFirst_append : splitFirst a (xs ++ a :: ys) = some (xs, ys) := by
  have all : ∀ x ∈ xs, (decide (x ≠ a)) := fun x h => decide_eq_true fun c => hx (c ▸ h)
  rw [splitFirst, takeWhile_append_of_pos all, dropWhile_append_of_pos all]
  simp

lemma splitFirst_self : splitFirst a xs = none := by
  rw [splitFirst]
  simpa using hx

end

/-! ## Numerals -/

abbrev numeral (n : ℕ) : List Char := Nat.toDigits 10 n

lemma digitChar_toNat (hd : d < 10) : digit? d.digitChar = some d := by interval_cases d <;> decide

lemma digit?_of_mem_numeral (hc : c ∈ numeral n) : 48 ≤ c.toNat ∧ c.toNat ≤ 57 := by
  have h := Nat.isDigit_of_mem_toDigits (by decide) (by decide) hc
  rw [Char.isDigit, Bool.and_eq_true, decide_eq_true_eq, decide_eq_true_eq] at h
  exact ⟨UInt32.le_iff_toNat_le.1 h.1, UInt32.le_iff_toNat_le.1 h.2⟩

lemma not_mem_numeral (hc : c.toNat < 48 ∨ 57 < c.toNat) : c ∉ numeral n := fun h => by
  have := digit?_of_mem_numeral h
  omega

lemma digitsFrom_digit (hc : digit? c = some d) (value count : ℕ) (afterDigit : Bool) (rest : List Char) :
    digitsFrom value count afterDigit (c :: rest) = digitsFrom (10 * value + d) (count + 1) true rest := by
  rw [digitsFrom.eq_def]
  simp [hc]

lemma digitsFrom_numeral (n : ℕ) : ∀ rest : List Char, ∃ count, 0 < count ∧
    digitsFrom 0 0 false (numeral n ++ rest) = digitsFrom n count true rest := by
  induction n using Nat.strongRecOn with
  | ind n ih =>
    intro rest
    by_cases hn : n < 10
    · refine ⟨1, Nat.one_pos, ?_⟩
      rw [numeral, Nat.toDigits_of_lt_base hn, singleton_append, digitsFrom_digit (digitChar_toNat hn), Nat.zero_add]
    obtain ⟨count, hc, e⟩ := ih (n / 10) (by omega) ((n % 10).digitChar :: rest)
    refine ⟨count + 1, Nat.succ_pos _, ?_⟩
    rw [numeral, Nat.toDigits_of_base_le (by decide) (by omega), append_assoc, singleton_append, e,
      digitsFrom_digit (digitChar_toNat (Nat.mod_lt n (by decide))), Nat.div_add_mod]

lemma strip_of_not_blank (hx : ∀ c ∈ xs, isBlank c = false) : strip xs = xs := by
  have keep : ∀ {ys : List Char}, (∀ c ∈ ys, isBlank c = false) → ys.dropWhile isBlank = ys := by
    intro ys h
    cases ys with
    | nil => rfl
    | cons y ys => rw [dropWhile_cons_of_neg (by rw [h y (by simp)]; exact Bool.false_ne_true)]
  rw [strip, stripLeft, keep hx, keep (fun c hc => hx c (by simpa using hc)), reverse_reverse]

lemma isBlank_of_digit (h : 48 ≤ c.toNat ∧ c.toNat ≤ 57) : isBlank c = false := by
  simp only [isBlank]
  simp
  omega

lemma readInt_numeral (n : ℕ) : readInt (numeral n) = some (n : ℤ) := by
  have blank : strip (numeral n) = numeral n := strip_of_not_blank fun c hc => isBlank_of_digit (digit?_of_mem_numeral hc)
  have plain : sign (numeral n) = (false, numeral n) := by
    unfold sign
    split
    · rename_i rest e
      have := digit?_of_mem_numeral (c := '-') (by rw [e]; simp)
      exact absurd this (by decide)
    · rename_i rest e
      have := digit?_of_mem_numeral (c := '+') (by rw [e]; simp)
      exact absurd this (by decide)
    · rfl
  obtain ⟨count, hc, e⟩ := digitsFrom_numeral n []
  rw [append_nil, digitsFrom] at e
  rw [readInt, blank, plain]
  simp only [digits, e]
  rw [if_neg (by simp; omega)]
  simp

end Text

namespace Quipper

open Text

variable {a b : Char} {xs ys zs name : List Char}

lemma between_append (xs ys zs : List Char) (ha : a ∉ xs) (hb : b ∉ xs ++ a :: ys) : between a b (xs ++ a :: ys ++ b :: zs) = ys := by
  have first : position [a] (xs ++ a :: ys ++ b :: zs) = xs.length := by
    rw [append_assoc]
    exact position_single _ _ ha
  have h := slice_append (xs ++ [a]) ys (b :: zs)
  rw [between, first, position_single _ _ hb]
  simpa [add_assoc, add_comm, add_left_comm] using h

lemma intOf_numeral (n : ℕ) : intOf (numeral n) = .ok (n : ℤ) := by rw [intOf, readInt_numeral]

/-! ## The lines of gates -/

def marks : List Char := ['[', ']', '(', ')', 'w', '*']

/-- A gate with its name, a mark and its target, up to the blank behind it. -/
def frame (name mark : List Char) (n : ℕ) : List Char := ['Q', 'G', 'a', 't', 'e', '[', '"'] ++ name ++ ['"', ']'] ++ mark ++ '(' :: numeral n ++ [')', ' ']

variable {mark : List Char} {n : ℕ} {controls : List Char} {tail : String} {g : Gate} {gs : List Gate} {l : List (List Char)}

lemma not_mem_numeral_of_mark (hc : c ∈ marks) : c ∉ numeral n := by
  refine not_mem_numeral ?_
  fin_cases hc <;> decide

section

variable (hn : ∀ c ∈ marks, c ∉ name)
include hn

lemma frame_name : slice (frame name mark n) (position ['['] (frame name mark n) + 2)
    (position [']'] (frame name mark n) - 1) = name := by
  have first : position ['['] (frame name mark n) = 5 := position_single ['Q', 'G', 'a', 't', 'e'] _ (by decide)
  have last : position [']'] (frame name mark n) = 7 + name.length + 1 := by
    have h := position_single (a := ']') (['Q', 'G', 'a', 't', 'e', '[', '"'] ++ name ++ ['"']) (mark ++ '(' :: numeral n ++ [')', ' '])
      (by simp [hn ']' (by decide)])
    simpa [frame, add_comm, add_left_comm] using h
  have h := slice_append ['Q', 'G', 'a', 't', 'e', '[', '"'] name (['"', ']'] ++ mark ++ '(' :: numeral n ++ [')', ' '])
  rw [first, last]
  simpa [frame] using h

lemma frame_target (hm : '(' ∉ mark ∧ ')' ∉ mark) : intOf (between '(' ')' (frame name mark n)) = .ok (n : ℤ) := by
  have h := between_append (a := '(') (b := ')') (['Q', 'G', 'a', 't', 'e', '[', '"'] ++ name ++ ['"', ']'] ++ mark) (numeral n) [' ']
    (by simp [hn '(' (by decide), hm.1]) (by simp [hn ')' (by decide), hm.2, not_mem_numeral_of_mark (c := ')') (by decide)])
  rw [← intOf_numeral, ← h]
  simp [frame]

lemma frame_clean (hm : 'w' ∉ mark) : 'w' ∉ frame name mark n := by
  simp [frame, hn 'w' (by decide), hm, not_mem_numeral_of_mark (c := 'w') (by decide)]

lemma frame_starred : (frame name mark n).contains '*' = mark.contains '*' := by
  simp [frame, hn '*' (by decide), not_mem_numeral_of_mark (c := '*') (by decide)]

end

def star (adjoint : Bool) : List Char := if adjoint then ['*'] else []

lemma star_clean (adjoint : Bool) : '(' ∉ star adjoint ∧ ')' ∉ star adjoint ∧ 'w' ∉ star adjoint := by cases adjoint <;> decide

lemma namedGate_plain (hn : ∀ c ∈ marks, c ∉ name) (adjoint : Bool) :
    namedGate (frame name (star adjoint) n ++ "with nocontrol".toList) = (do return [← plainGate (String.ofList name) adjoint n]) := by
  obtain ⟨h1, h2, h3⟩ := star_clean adjoint
  have pieces : splitText "with".toList (frame name (star adjoint) n ++ "with nocontrol".toList) = [frame name (star adjoint) n, " nocontrol".toList] := by
    have h := splitTextFrom_append ['i', 't', 'h'] " nocontrol".toList (frame_clean (n := n) hn h3) []
    rw [append_assoc] at h
    exact h
  have starred : (frame name (star adjoint) n).contains '*' = adjoint := by
    rw [frame_starred hn]
    cases adjoint <;> rfl
  unfold namedGate
  simp only [pieces, headD_cons, frame_name hn, frame_target hn ⟨h1, h2⟩, starred]
  rfl

lemma namedGate_controlled (hn : ∀ c ∈ marks, c ∉ name) (hc : ∀ x ∈ marks, x ∉ controls)
    {line : List Char} (hl : line = frame name [] n ++ "with".toList ++ (" controls=[".toList ++ controls ++ "] ".toList) ++ "with nocontrol".toList) :
    namedGate line = controlledGate line controls (String.ofList name) n := by
  set second := " controls=[".toList ++ controls ++ "] ".toList with hs
  have clean : 'w' ∉ second := by simp [hs, hc 'w' (by decide)]
  have whole : 'w' ∉ frame name [] n := frame_clean hn (by simp)
  have target : intOf (between '(' ')' (frame name [] n)) = .ok (n : ℤ) := frame_target hn (by simp)
  have pieces : splitText "with".toList line = [frame name [] n, second, " nocontrol".toList] := by
    have h := splitTextFrom_append ['i', 't', 'h'] (second ++ "with nocontrol".toList) whole []
    have h' := splitTextFrom_append ['i', 't', 'h'] " nocontrol".toList clean []
    rw [append_assoc] at h'
    rw [hl, append_assoc]
    exact h.trans (congrArg _ h')
  have inside : between '[' ']' second = controls := by
    have h := between_append (a := '[') (b := ']') " controls=".toList controls [' '] (by decide) (by simp [hc ']' (by decide)])
    exact h
  unfold namedGate
  simp only [pieces, headD_cons, frame_name hn, target]
  show controlledGate line (between '[' ']' second) _ _ = _
  rw [inside]

lemma readLine_frame (c : Circuit) (name mark rest : List Char) (n : ℕ) : readLine c (frame name mark n ++ rest) =
    (do return { c with gates := c.gates ++ (← namedGate (frame name mark n ++ rest)) }) := rfl

/-- The gates that have a line of their own and a line only. -/
inductive Writable : Gate → Prop
  | had (n : ℕ) : Writable (Gate.had n)
  | not (n : ℕ) : Writable (Gate.not n)
  | z (n : ℕ) : Writable (Gate.z n)
  | s (n : ℕ) (adjoint : Bool) : Writable (Gate.s n adjoint)
  | t (n : ℕ) (adjoint : Bool) : Writable (Gate.t n adjoint)
  | cnot (c n : ℕ) : Writable (Gate.cnot c n)
  | cz (c n : ℕ) : Writable (Gate.cz c n)
  | cx (c n : ℕ) : Writable (Gate.cx c n)
  | tof (a b n : ℕ) : Writable (Gate.tof a b n)
  | ccz (a b n : ℕ) : Writable (Gate.ccz a b n)

lemma toList_paren (n : ℕ) : (s!"({(n : ℤ)})").toList = '(' :: numeral n ++ [')'] := by
  rw [String.toList_append, String.toList_append]
  show "(".toList ++ (Nat.repr n).toList ++ ")".toList = _
  rw [Nat.toList_repr]
  rfl

lemma toList_frame (name : String) (adjoint : Bool) (n : ℕ) {rest : List Char} (ht : tail.toList = ' ' :: rest) :
    ("QGate[\"" ++ name ++ "\"]" ++ (if adjoint then "*" else "") ++ s!"({(n : ℤ)})" ++ tail).toList = frame name.toList (star adjoint) n ++ rest := by
  have mark : (if adjoint then "*" else "").toList = star adjoint := by cases adjoint <;> rfl
  rw [String.toList_append, String.toList_append, toList_paren, String.toList_append, mark, ht]
  simp [frame]

lemma toList_control (c : ℕ) : (s!" with controls=[+{(c : ℤ)}] with nocontrol").toList =
    " with".toList ++ (" controls=[".toList ++ ('+' :: numeral c) ++ "] ".toList) ++ "with nocontrol".toList := by
  rw [String.toList_append, String.toList_append]
  show " with controls=[+".toList ++ (Nat.repr c).toList ++ "] with nocontrol".toList = _
  simp

lemma toList_controls (a b : ℕ) : (s!" with controls=[+{(a : ℤ)},+{(b : ℤ)}] with nocontrol").toList =
    " with".toList ++ (" controls=[".toList ++ ('+' :: numeral a ++ ',' :: '+' :: numeral b) ++ "] ".toList) ++ "with nocontrol".toList := by
  rw [String.toList_append, String.toList_append, String.toList_append, String.toList_append]
  show " with controls=[+".toList ++ (Nat.repr a).toList ++ ",+".toList ++ (Nat.repr b).toList ++ "] with nocontrol".toList = _
  simp

section

variable (c : Circuit) (name : String) (hn : ∀ c ∈ marks, c ∉ name.toList)
include hn

lemma readLine_plain (adjoint : Bool) (hg : plainGate name adjoint n = .ok g) :
    readLine c ("QGate[\"" ++ name ++ "\"]" ++ (if adjoint then "*" else "") ++ s!"({(n : ℤ)})" ++ " with nocontrol").toList = .ok (c.push g) := by
  have tail : (" with nocontrol" : String).toList = ' ' :: "with nocontrol".toList := rfl
  rw [toList_frame name adjoint n tail, readLine_frame, namedGate_plain hn, String.ofList_toList, hg]
  rfl

lemma readLine_controlled (hc : ∀ x ∈ marks, x ∉ controls)
    (ht : tail.toList = " with".toList ++ (" controls=[".toList ++ controls ++ "] ".toList) ++ "with nocontrol".toList)
    (hg : ∀ line, controlledGate line controls name n = .ok gs) :
    readLine c ("QGate[\"" ++ name ++ "\"]" ++ "" ++ s!"({(n : ℤ)})" ++ tail).toList = .ok { c with gates := c.gates ++ gs } := by
  have ht : tail.toList = ' ' :: ("with".toList ++ (" controls=[".toList ++ controls ++ "] ".toList) ++ "with nocontrol".toList) := ht
  have line := toList_frame name false n ht
  have same := namedGate_controlled (n := n) hn hc rfl
  rw [String.ofList_toList, hg] at same
  simp only [append_assoc] at same line
  refine (congrArg (readLine c) line).trans ?_
  rw [readLine_frame, show star false = [] from rfl, same]
  rfl

end

lemma not_mem_control (c : ℕ) : ∀ x ∈ marks, x ∉ '+' :: numeral c := fun x hx hm => by
  rcases mem_cons.1 hm with rfl | h
  · exact absurd hx (by decide)
  · exact not_mem_numeral_of_mark hx h

lemma not_mem_controls (a b : ℕ) : ∀ x ∈ marks, x ∉ '+' :: numeral a ++ ',' :: '+' :: numeral b := fun x hx hm => by
  rcases mem_append.1 hm with h | h
  · exact not_mem_control a x hx h
  rcases mem_cons.1 h with rfl | h
  · exact absurd hx (by decide)
  · exact not_mem_control b x hx h

lemma comma_not_mem (c : ℕ) : ',' ∉ '+' :: numeral c := by
  have := not_mem_numeral (n := c) (c := ',') (by decide)
  simpa using this

lemma strip_control (c : ℕ) : strip ('+' :: numeral c) = '+' :: numeral c := by
  refine strip_of_not_blank fun x hx => ?_
  rcases mem_cons.1 hx with rfl | h
  · decide
  · exact isBlank_of_digit (digit?_of_mem_numeral h)

variable (line : List Char)

lemma controlledGate_one (name : String) (c n : ℕ) : controlledGate line ('+' :: numeral c) name n = match name with
    | "not" => .ok [Gate.cnot c n]
    | "Z" => .ok [Gate.cz c n]
    | "X" => .ok [Gate.cx c n]
    | _ => .error (.unsupportedControlled name) := by
  unfold controlledGate
  rw [splitFirst_self (comma_not_mem c)]
  have plus : ('+' :: numeral c).contains '+' := by simp
  simp only [plus, Bool.not_true, Bool.false_eq_true, drop_one, tail_cons, intOf_numeral]
  rfl

lemma controlledGate_two (a b n : ℕ) :
    controlledGate line ('+' :: numeral a ++ ',' :: '+' :: numeral b) "not" n = .ok [Gate.tof a b n] ∧
    controlledGate line ('+' :: numeral a ++ ',' :: '+' :: numeral b) "Z" n = .ok [Gate.ccz a b n] := by
  have comma : ('+' :: numeral b).contains ',' = false := by
    rw [Bool.eq_false_iff, Ne, contains_iff_mem]
    exact comma_not_mem b
  have plus : ∀ c : ℕ, ('+' :: numeral c).contains '+' := fun c => by simp
  unfold controlledGate
  rw [splitFirst_append (comma_not_mem a)]
  simp only [comma, strip_control, drop_one, tail_cons, intOf_numeral]
  exact ⟨rfl, rfl⟩

lemma clean_name {name : String} (h : (marks.all fun c => !name.toList.contains c)) : ∀ c ∈ marks, c ∉ name.toList := by
  intro c hc hm
  have := all_eq_true.1 h c hc
  simp [hm] at this

/-- **A line that is written** is read back as the same gate. -/
theorem readLine_toQuipper (hg : Writable g) (c : Circuit) : ∃ line, g.toQuipper = .ok line ∧ readLine c line.toList = .ok (c.push g) := by
  cases hg with
  | had n => exact ⟨_, rfl, readLine_plain c "H" (clean_name rfl) false rfl⟩
  | not n => exact ⟨_, rfl, readLine_plain c "not" (clean_name rfl) false rfl⟩
  | z n => exact ⟨_, rfl, readLine_plain c "Z" (clean_name rfl) false rfl⟩
  | s n adjoint => exact ⟨_, rfl, readLine_plain c "S" (clean_name rfl) adjoint rfl⟩
  | t n adjoint => exact ⟨_, rfl, readLine_plain c "T" (clean_name rfl) adjoint rfl⟩
  | cnot k n => exact ⟨_, rfl, readLine_controlled c "not" (clean_name rfl) (not_mem_control k) (toList_control k) fun line => controlledGate_one line _ k n⟩
  | cz k n => exact ⟨_, rfl, readLine_controlled c "Z" (clean_name rfl) (not_mem_control k) (toList_control k) fun line => controlledGate_one line _ k n⟩
  | cx k n => exact ⟨_, rfl, readLine_controlled c "X" (clean_name rfl) (not_mem_control k) (toList_control k) fun line => controlledGate_one line _ k n⟩
  | tof a b n => exact ⟨_, rfl, readLine_controlled c "not" (clean_name rfl) (not_mem_controls a b) (toList_controls a b) fun line => (controlledGate_two line a b n).1⟩
  | ccz a b n => exact ⟨_, rfl, readLine_controlled c "Z" (clean_name rfl) (not_mem_controls a b) (toList_controls a b) fun line => (controlledGate_two line a b n).2⟩

/-! ## Files -/

def wire (mark : List Char) (k : ℕ) : List Char := numeral k ++ (mark ++ "Qbit".toList)

/-- Wires in the order of their numbers. -/
def declared (mark : List Char) (n : ℕ) : List Char := [',', ' '].intercalate ((range n).map (wire mark))

/-- The first line of a file. -/
def opening (mark : List Char) (n : ℕ) : List Char := "Inputs: ".toList ++ declared mark n

lemma splitCharFrom_intercalate : ∀ (xs : List (List Char)) {x : List Char}, (∀ y ∈ x :: xs, ',' ∉ y) → ∀ piece,
    splitCharFrom ',' piece ([',', ' '].intercalate (x :: xs)) = (piece.reverse ++ x) :: xs.map (' ' :: ·)
  | [], x, hx, piece => by
    rw [intercalate_singleton]
    exact splitCharFrom_self (hx x (by simp)) piece
  | y :: ys, x, hx, piece => by
    have step := splitCharFrom_intercalate ys (x := y) (fun z hz => hx z (mem_cons_of_mem _ hz)) [' ']
    rw [intercalate_cons_cons, append_assoc, cons_append, splitCharFrom_append (hx x (by simp))]
    exact congrArg _ step

lemma forall_mem_intercalate {P : Char → Prop} (comma : P ',') (blank : P ' ') : ∀ l : List (List Char), (∀ y ∈ l, ∀ c ∈ y, P c) →
    ∀ c ∈ [',', ' '].intercalate l, P c
  | [], _ => by simp [intercalate]
  | [y], hl => by simpa using hl y (by simp)
  | y :: z :: l, hl => by
    have rest := forall_mem_intercalate comma blank (z :: l) fun u hu => hl u (mem_cons_of_mem _ hu)
    rw [intercalate_cons_cons]
    intro c hc
    rcases mem_append.1 hc with hc | hc
    · rcases mem_append.1 hc with hc | hc
      · exact hl y (by simp) c hc
      rcases mem_pair.1 hc with rfl | rfl
      · exact comma
      · exact blank
    · exact rest c hc

lemma intercalate_ends : ∀ (xs : List (List Char)) {x : List Char}, (∀ y ∈ x :: xs, ∃ z, y = z ++ "Qbit".toList) →
    ∃ z, [',', ' '].intercalate (x :: xs) = z ++ "Qbit".toList
  | [], x, hx => by
    rw [intercalate_singleton]
    exact hx x (by simp)
  | y :: ys, x, hx => by
    obtain ⟨z, hz⟩ := intercalate_ends ys (x := y) fun u hu => hx u (mem_cons_of_mem _ hu)
    rw [intercalate_cons_cons, hz, ← append_assoc]
    exact ⟨_, rfl⟩

section

variable {mark : List Char} {n : ℕ}

lemma map_wire_succ (mark : List Char) (n : ℕ) :
    (range (n + 1)).map (wire mark) = wire mark 0 :: (range n).map fun k => wire mark (k + 1) := by
  rw [range_succ_eq_map, map_cons, map_map]
  rfl

lemma mem_wires {y : List Char} (hy : y ∈ wire mark 0 :: (range n).map fun k => wire mark (k + 1)) : ∃ k, y = wire mark k := by
  rw [← map_wire_succ, mem_map] at hy
  obtain ⟨k, -, rfl⟩ := hy
  exact ⟨k, rfl⟩

variable (mark : List Char)

lemma getLast?_opening (hn : 0 < n) : (opening mark n).getLast? ≠ some ',' := by
  obtain ⟨n, rfl⟩ := Nat.exists_eq_succ_of_ne_zero hn.ne'
  obtain ⟨z, hz⟩ : ∃ z, declared mark (n + 1) = z ++ "Qbit".toList := by
    rw [declared, map_wire_succ]
    refine intercalate_ends _ fun y hy => ?_
    obtain ⟨k, rfl⟩ := mem_wires hy
    exact ⟨numeral k ++ mark, (append_assoc ..).symm⟩
  have last : ∀ xs : List Char, (xs ++ (z ++ "Qbit".toList)).getLast? ≠ some ',' := fun xs => by simp
  unfold opening
  rw [hz]
  exact last _

lemma splitChar_declared (hm : ',' ∉ mark) (hn : 0 < n) : (splitChar ',' (declared mark n)).length = n ∧
    ∀ i ∈ splitChar ',' (declared mark n), ∃ xs, ':' ∉ xs ∧ i = xs ++ (mark ++ "Qbit".toList) := by
  obtain ⟨n, rfl⟩ := Nat.exists_eq_succ_of_ne_zero hn.ne'
  have clean : ∀ k, ',' ∉ wire mark k := fun k => by simp [wire, hm, not_mem_numeral (c := ',') (by decide)]
  have colon : ∀ k, ':' ∉ numeral k := fun k => not_mem_numeral (by decide)
  have cut : splitChar ',' (declared mark (n + 1)) = wire mark 0 :: ((range n).map fun k => wire mark (k + 1)).map (' ' :: ·) := by
    rw [declared, map_wire_succ]
    refine splitCharFrom_intercalate _ (fun y hy => ?_) []
    obtain ⟨k, rfl⟩ := mem_wires hy
    exact clean k
  rw [cut]
  refine ⟨by simp, fun i hi => ?_⟩
  rcases mem_cons.1 hi with rfl | hi
  · exact ⟨numeral 0, colon 0, rfl⟩
  obtain ⟨y, hy, rfl⟩ := mem_map.1 hi
  obtain ⟨k, -, rfl⟩ := mem_map.1 hy
  exact ⟨' ' :: numeral (k + 1), by simp [colon (k + 1)], rfl⟩

end

lemma checkInput_colon (hx : ':' ∉ xs) : checkInput (xs ++ ([':'] ++ "Qbit".toList)) = .ok () := by
  have cut : splitChar ':' (xs ++ ([':'] ++ "Qbit".toList)) = [xs, "Qbit".toList] := by
    rw [splitChar, singleton_append, splitCharFrom_append hx]
    rfl
  rw [checkInput, cut]
  rfl

lemma checkInput_bare (hx : ':' ∉ xs) : checkInput xs = .error .badValue := by
  rw [checkInput, splitChar, splitCharFrom_self hx]

def checkInputs (l : List (List Char)) : Attempt PUnit :=
  forIn l PUnit.unit fun i _ => do checkInput i; pure (ForInStep.yield PUnit.unit)

lemma checkInputs_ok (h : ∀ i ∈ l, checkInput i = .ok ()) : checkInputs l = .ok ⟨⟩ := by
  unfold checkInputs
  induction l with
  | nil => rfl
  | cons i l ih =>
    rw [forIn_cons, h i (by simp)]
    exact ih (forall_mem_cons.1 h).2

lemma checkInputs_error {e : Failure} (hl : 0 < l.length) (h : ∀ i ∈ l, checkInput i = .error e) : checkInputs l = .error e := by
  obtain ⟨i, l, rfl⟩ := exists_cons_of_length_pos hl
  rw [checkInputs, forIn_cons, h i (by simp)]
  rfl

lemma parseLines_opening {start wires : List Char} (hs : start = "Inputs: ".toList ++ wires) (hl : start.getLast? ≠ some ',')
    (lines : List (List Char)) : parseLines (start :: lines) = (do
      let _ ← checkInputs (splitChar ',' wires)
      lines.dropLast.foldlM readLine { qubits := (splitChar ',' wires).length }) := by
  have pre : "Inputs: ".toList.isPrefixOf start := by simp [hs]
  have rest : start.drop 8 = wires := by rw [hs]; rfl
  refine Eq.trans (if_neg (c := (!"Inputs: ".toList.isPrefixOf start)) (by rw [pre]; exact Bool.false_ne_true)) ?_
  rw [if_neg hl, rest]
  rfl

lemma foldlM_readLine (hg : ∀ g ∈ gs, Writable g) : ∃ lines, gs.mapM Gate.toQuipper = .ok lines ∧
    ∀ c : Circuit, (lines.map String.toList).foldlM readLine c = .ok { c with gates := c.gates ++ gs } := by
  induction gs with
  | nil => exact ⟨[], rfl, fun c => by simp [pure, Except.pure]⟩
  | cons g gs ih =>
    obtain ⟨lines, hl, read⟩ := ih fun g' h => hg g' (by simp [h])
    obtain ⟨line, written, -⟩ := readLine_toQuipper (hg g (by simp)) { qubits := 0 }
    refine ⟨line :: lines, by rw [mapM_cons, written, hl]; rfl, fun c => ?_⟩
    obtain ⟨line', written', back⟩ := readLine_toQuipper (hg g (by simp)) c
    obtain rfl : line' = line := Except.ok.inj (written'.symm.trans written)
    rw [map_cons, foldlM_cons, back]
    refine (read (c.push g)).trans ?_
    simp [Circuit.push]

/-- **The lines of a circuit** under an opening that declares its wires as in `0:Qbit` are read back as the circuit. -/
theorem parseLines_written (hg : ∀ g ∈ gs, Writable g) (hn : 0 < n) (closing : List Char) :
    ∃ lines, gs.mapM Gate.toQuipper = .ok lines ∧
      parseLines (opening [':'] n :: (lines.map String.toList ++ [closing])) = .ok { qubits := n, gates := gs } := by
  obtain ⟨lines, hl, read⟩ := foldlM_readLine hg
  obtain ⟨count, wires⟩ := splitChar_declared [':'] (by decide) hn
  refine ⟨lines, hl, ?_⟩
  have checked : checkInputs (splitChar ',' (declared [':'] n)) = .ok ⟨⟩ := checkInputs_ok fun i hi => by
    obtain ⟨xs, hx, rfl⟩ := wires i hi
    exact checkInput_colon hx
  have start : opening [':'] n = "Inputs: ".toList ++ declared [':'] n := rfl
  rw [parseLines_opening start (getLast?_opening _ hn), checked, count, dropLast_concat]
  exact read _

lemma endsLine_of_digit (h : 48 ≤ c.toNat ∧ c.toNat ≤ 57) : endsLine c = false := by
  simp only [endsLine]
  simp
  omega

lemma linesFrom_append (ys : List Char) : ∀ {xs : List Char}, (∀ c ∈ xs, endsLine c = false) → ∀ line started,
    linesFrom line started (xs ++ '\n' :: ys) = (line.reverse ++ xs) :: linesFrom [] false ys
  | [], _, line, started => by
    rw [nil_append, linesFrom, if_pos (by decide), append_nil]
    exact fun _ h _ => absurd h (by decide)
  | x :: xs, hx, line, started => by
    have hr : x ≠ '\r' := fun h => absurd (hx x (by simp)) (by rw [h]; decide)
    rw [cons_append, linesFrom, hx x (by simp), if_neg Bool.false_ne_true, linesFrom_append ys fun c hc => hx c (mem_cons_of_mem _ hc)]
    · simp
    · exact fun _ h _ => absurd h hr

lemma endsLine_opening (n : ℕ) : ∀ c ∈ opening [] n, endsLine c = false := by
  have plain : ∀ {xs : List Char}, (xs.all fun c => !endsLine c) → ∀ c ∈ xs, endsLine c = false := fun h c hc => by
    simpa using all_eq_true.1 h c hc
  intro c hc
  rcases mem_append.1 hc with hc | hc
  · exact plain rfl c hc
  refine forall_mem_intercalate (P := fun c => endsLine c = false) (by decide) (by decide) _ (fun y hy => ?_) c hc
  obtain ⟨k, -, rfl⟩ := mem_map.1 hy
  intro d hd
  rcases mem_append.1 hd with hd | hd
  · exact endsLine_of_digit (digit?_of_mem_numeral hd)
  · exact plain rfl d hd

lemma toList_wire (k : ℕ) : (s!"{(k : ℤ)}Qbit").toList = wire [] k := by
  rw [String.toList_append]
  show (Nat.repr k).toList ++ "Qbit".toList = _
  rw [Nat.toList_repr]
  rfl

/-- **What is written for a circuit with a wire** is refused, since its wires are declared as in `0Qbit`. -/
theorem parseLines_toQuipper {c : Circuit} (hc : 0 < c.qubits) {text : String} (ht : c.toQuipper = .ok text) :
    parseLines (lines text.toList) = .error .badValue := by
  have hn : 0 < c.qubits.toNat := by omega
  obtain ⟨rest, split⟩ : ∃ rest, text.toList = opening [] c.qubits.toNat ++ '\n' :: rest := by
    have wires : (", ".intercalate (c.wires.map fun i => s!"{i}Qbit")).toList = declared [] c.qubits.toNat := by
      rw [String.toList_intercalate, Circuit.wires, map_map, map_map, declared]
      exact congrArg _ (map_congr_left fun k _ => toList_wire k)
    unfold Circuit.toQuipper at ht
    cases hm : c.gates.mapM Gate.toQuipper with
    | error e =>
      rw [hm] at ht
      cases ht
    | ok ls =>
      rw [hm] at ht
      simp only [bind, Except.bind, pure, Except.pure, Except.ok.injEq] at ht
      have cut : ∀ xs ys zs us : List Char, ∃ rest, xs ++ ys ++ "\n".toList ++ zs ++ us ++ ys = xs ++ ys ++ '\n' :: rest :=
        fun xs ys zs us => ⟨zs ++ us ++ ys, by simp⟩
      rw [← ht, String.toList_append, String.toList_append, String.toList_append, String.toList_append, String.toList_append, wires]
      exact cut _ _ _ _
  obtain ⟨count, pieces⟩ := splitChar_declared [] (by simp) hn
  have start : opening [] c.qubits.toNat = "Inputs: ".toList ++ declared [] c.qubits.toNat := rfl
  have refused : checkInputs (splitChar ',' (declared [] c.qubits.toNat)) = .error .badValue :=
    checkInputs_error (by rw [count]; exact hn) fun i hi => by
      obtain ⟨xs, hx, rfl⟩ := pieces i hi
      exact checkInput_bare (by simp [hx])
  rw [split, lines, linesFrom_append rest (endsLine_opening _), reverse_nil, nil_append,
    parseLines_opening start (getLast?_opening _ hn), refused]
  rfl

end Quipper

end ZXCircuits
