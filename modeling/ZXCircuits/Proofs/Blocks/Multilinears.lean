/-
  Phase polynomials as courses, and their multilinear form.

  A phase polynomial turns each register by a number of eighths of a full turn, which counts modulo eight (`Course.eighths`).  The gates of
  a block are a phase polynomial followed by a rearrangement of the registers (`PhaseForm.Shows`).  A parity is a polynomial in its bits,
  where modulo eight only products of at most three bits count (`count_listParity`).  So the multilinear form of parities turns registers
  as the parities do (`Multilinear.at_addMatrix`), and so do its Clifford gates (`Multilinear.toClifford_gives`).
-/
import ZXCircuits.Todd.Gates
import ZXCircuits.Proofs.Motion.Expand
import Mathlib.Data.Int.ModEq

namespace ZXCircuits

open List Function Units

def count (b : Bool) : ℤ := if b then 1 else 0

@[simp] lemma count_false : count false = 0 := rfl

@[simp] lemma count_true : count true = 1 := rfl

lemma count_xor (a b : Bool) : count (xor a b) = count a + count b - 2 * (count a * count b) := by
  cases a <;> cases b <;> rfl

namespace Course

/-- The factor of a number of eighths of a full turn. -/
noncomputable def eighth (k : ℤ) : ℂˣ := mk0 (turn (k / 4)) (turn_ne_zero _)

lemma eighth_add (k l : ℤ) : eighth (k + l) = eighth k * eighth l := by
  refine ext ?_
  simp only [eighth, val_mk0, val_mul, ← turn_add]
  push_cast
  ring_nf

lemma eighth_congr {k l : ℤ} (h : k ≡ l [ZMOD 8]) : eighth k = eighth l := by
  obtain ⟨d, hd⟩ := h.dvd
  have e : l = k + 8 * d := by omega
  refine ext ?_
  have : ((l : ℚ) / 4) = (k : ℚ) / 4 + 2 * (d : ℤ) := by
    rw [e]
    push_cast
    ring
  simp [eighth, val_mk0, this, turn_add, turn_two_mul_int, mul_one]

lemma eighth_mul_count (k : ℤ) (b : Bool) : eighth (k * count b) = factor (k / 4) b := by
  refine ext ?_
  cases b <;> simp [eighth]

/-- A turn of each register by its own number of eighths. -/
noncomputable def eighths (f : Register → ℤ) : Course := phases fun y => eighth (f y)

lemma eighths_mul_eighths (f g : Register → ℤ) : eighths f * eighths g = eighths fun y => f y + g y := by
  simp [eighths, phases_mul_phases, eighth_add]

lemma eighths_congr {f g : Register → ℤ} (h : ∀ y, f y ≡ g y [ZMOD 8]) : eighths f = eighths g := by
  rw [eighths, eighths]
  congr 1
  funext y
  exact eighth_congr (h y)

lemma eighths_zero : eighths (fun _ => 0) = 1 := by
  refine of_eq_of_apply fun ψ y => ?_
  simp [eighth]

lemma z_eq_eighths (t : Int) (k : ℤ) : z t (k / 4) = eighths fun y => k * count (y t) := by
  simp only [eighths, eighth_mul_count]
  rfl

lemma cz_eq_eighths (a b : Int) : cz a b = eighths fun y => 4 * (count (y a) * count (y b)) := by
  have : ∀ y : Register, count (y a) * count (y b) = count (y a && y b) := fun y => by cases y a <;> cases y b <;> rfl
  simp only [eighths, this, eighth_mul_count]
  norm_num
  rfl

noncomputable def wiring (e : Equiv.Perm Register) : Course := of (relabel e)

lemma wiring_mul_wiring (e d : Equiv.Perm Register) : wiring e * wiring d = wiring (e * d) := rfl

lemma wiring_one : wiring 1 = 1 := rfl

lemma wiring_mul_eighths (e : Equiv.Perm Register) (f : Register → ℤ) :
    wiring e * eighths f = eighths (fun y => f (e.symm y)) * wiring e := by
  refine of_eq_of_apply fun ψ y => ?_
  simp [LinearEquiv.mul_apply]

end Course

/-! ## Parities -/

/-- The parity of the bits of the wires below `q` that are picked. -/
def parity (q : Nat) (p : Nat → Bool) (y : Register) : Bool := (range q).foldr (fun (i : Nat) b => xor (p i && y i) b) false

section Parity

variable {q : Nat} {p p' : Nat → Bool} {y : Register}

lemma parity_congr (h : ∀ i < q, p i = p' i) (y : Register) : parity q p y = parity q p' y := by
  refine foldr_ext _ _ _ fun i hi b => ?_
  rw [h i (mem_range.1 hi)]

lemma parity_xor (q : Nat) (p p' : Nat → Bool) (y : Register) :
    parity q (fun i => xor (p i) (p' i)) y = xor (parity q p y) (parity q p' y) := by
  unfold parity
  generalize range q = l
  induction l with
  | nil => rfl
  | cons i l ih =>
    simp only [foldr_cons, ih]
    cases p i <;> cases p' i <;> cases y i <;> simp

lemma foldr_of_not_mem {l : List Nat} (h : ∀ i ∈ l, p i = false) (y : Register) :
    l.foldr (fun (i : Nat) b => xor (p i && y i) b) false = false := by
  induction l with
  | nil => rfl
  | cons i l ih => simp [ih (forall_mem_cons.1 h).2, h i (by simp)]

lemma parity_single {i : Nat} (hi : i < q) (hp : ∀ j < q, p j = decide (j = i)) (y : Register) : parity q p y = y i := by
  have hn : (range q).Nodup := nodup_range
  have hm : i ∈ range q := mem_range.2 hi
  have hp' : ∀ j ∈ range q, p j = decide (j = i) := fun j hj => hp j (mem_range.1 hj)
  unfold parity
  generalize range q = l at hn hm hp'
  induction l with
  | nil => cases hm
  | cons j l ih =>
    obtain ⟨hj, hn⟩ := nodup_cons.1 hn
    rw [foldr_cons, hp' j (by simp)]
    by_cases hji : j = i
    · subst hji
      have hz : ∀ k ∈ l, p k = false := fun k hk => by
        rw [hp' k (by simp [hk])]
        exact decide_eq_false fun e => hj (e ▸ hk)
      rw [foldr_of_not_mem hz]
      simp
    · have : i ∈ l := (mem_cons.1 hm).resolve_left fun e => hji e.symm
      rw [ih hn this fun k hk => hp' k (by simp [hk])]
      simp [hji]

end Parity

lemma contains_symmDiff (as bs : List Nat) (i : Nat) : (symmDiff as bs).contains i = xor (as.contains i) (bs.contains i) := by
  rw [Bool.eq_iff_iff, contains_iff_mem, symmDiff, mem_ascending]
  by_cases ha : i ∈ as <;> by_cases hb : i ∈ bs <;> simp [ha, hb]

/-! ## Sums over tables -/

namespace Table

variable {κ : Type} [DecidableEq κ] {t : Table κ Int} {k : κ} {e : κ × Int}

def weigh (h : κ → ℤ) (t : Table κ Int) : ℤ := (t.map fun e => e.2 * h e.1).sum

lemma weigh_insert (h : κ → ℤ) (t : Table κ Int) (k : κ) (v : Int) :
    weigh h (t.insert k v) = weigh h t + (v - (t.find? k).getD 0) * h k := by
  induction t with
  | nil => simp [weigh, insert, find?]
  | cons e t ih =>
    obtain ⟨k', v'⟩ := e
    by_cases hk : k' = k
    · subst hk
      simp [weigh, insert, find?]
      ring
    · simp only [weigh, insert, find?, if_neg hk, map_cons, sum_cons] at ih ⊢
      rw [ih]
      ring

lemma weigh_erase (h : κ → ℤ) (t : Table κ Int) (k : κ) : weigh h (t.erase k) = weigh h t - (t.find? k).getD 0 * h k := by
  induction t with
  | nil => simp [weigh, erase, find?]
  | cons e t ih =>
    obtain ⟨k', v'⟩ := e
    by_cases hk : k' = k
    · subst hk
      simp [weigh, erase, find?]
    simp only [weigh, erase, find?, if_neg hk, map_cons, sum_cons] at ih ⊢
    rw [ih]
    ring

lemma mem_of_mem_insert {v : Int} (h : e ∈ t.insert k v) : e ∈ t ∨ e = (k, v) := by
  induction t with
  | nil => exact .inr (mem_singleton.1 h)
  | cons x t ih =>
    rw [insert] at h
    split at h
    · rcases mem_cons.1 h with h | h
      · exact .inr (by rw [h])
      · exact .inl (by simp [h])
    · rcases mem_cons.1 h with h | h
      · exact .inl (by simp [h])
      · exact (ih h).imp (mem_cons_of_mem _) id

lemma mem_of_mem_erase (h : e ∈ t.erase k) : e ∈ t := by
  induction t with
  | nil => exact h
  | cons x t ih =>
    rw [erase] at h
    split at h
    · exact mem_cons_of_mem _ h
    rcases mem_cons.1 h with h | h
    · simp [h]
    · exact mem_cons_of_mem _ (ih h)

end Table

/-! ## Phase polynomials -/

namespace ParitySum

/-- The number of eighths that a polynomial turns a register by. -/
def at_ (q : Nat) (p : ParitySum) (y : Register) : ℤ := Table.weigh (fun k => count (parity q (fun i => k.contains (i : Int)) y)) p

lemma addTerm_eq (p : ParitySum) (ws : List Int) (v : Int) : p.addTerm ws v =
    if ((Table.find? p (sortWires ws)).getD 0 + v) % 8 = 0 then Table.erase p (sortWires ws)
    else Table.insert p (sortWires ws) (((Table.find? p (sortWires ws)).getD 0 + v) % 8) := by
  rw [addTerm]
  cases Table.find? p (sortWires ws) with
  | none => simp [Option.getD_none, zero_add]
  | some old => simp [Option.getD_some]

lemma addTerm_nonneg {p : ParitySum} (h : ∀ e ∈ p, 0 ≤ e.2) (ws : List Int) (v : Int) : ∀ e ∈ p.addTerm ws v, 0 ≤ e.2 := by
  rw [addTerm_eq]
  split
  · exact fun e he => h e (Table.mem_of_mem_erase he)
  intro e he
  rcases Table.mem_of_mem_insert he with he | rfl
  · exact h e he
  · exact Int.emod_nonneg _ (by decide)

lemma at_addTerm (q : Nat) (p : ParitySum) (ws : List Int) (v : Int) (y : Register) :
    (p.addTerm ws v).at_ q y ≡ p.at_ q y + v * count (parity q (fun i => ws.contains (i : Int)) y) [ZMOD 8] := by
  have hsort : ∀ i : Nat, (sortWires ws).contains (i : Int) = ws.contains (i : Int) := fun i => by
    rw [Bool.eq_iff_iff, contains_iff_mem, contains_iff_mem, sortWires, mem_mergeSort]
  have hpar : count (parity q (fun i => (sortWires ws).contains (i : Int)) y) = count (parity q (fun i => ws.contains (i : Int)) y) := by
    simp only [hsort]
  rw [addTerm_eq, ← hpar]
  generalize hold : (Table.find? p (sortWires ws)).getD 0 = old
  have hmod : (old + v) % 8 ≡ old + v [ZMOD 8] := Int.mod_modEq _ _
  generalize hc : count (parity q (fun i => (sortWires ws).contains (i : Int)) y) = c
  generalize (old + v) % 8 = sum at hmod
  have hkey := (hmod.mul_right c).add_left (p.at_ q y - old * c)
  have hend : p.at_ q y - old * c + (old + v) * c = p.at_ q y + v * c := by ring
  rw [hend] at hkey
  suffices e : ParitySum.at_ q (if sum = 0 then Table.erase p (sortWires ws) else Table.insert p (sortWires ws) sum) y =
      p.at_ q y - old * c + sum * c by
    rw [e]
    exact hkey
  split
  · rename_i h0
    rw [at_, Table.weigh_erase, hc, hold, h0, at_]
    ring
  · rw [at_, Table.weigh_insert, hc, hold, at_]
    ring

end ParitySum

open Course Table

/-! ## Parities of lists of wires -/

def listParity (ws : List Nat) (y : Register) : Bool := ws.foldr (fun (i : Nat) b => xor (y i) b) false

lemma parity_eq_listParity (q : Nat) (p : Nat → Bool) (y : Register) : parity q p y = listParity ((range q).filter p) y := by
  unfold parity listParity
  generalize range q = l
  induction l with
  | nil => rfl
  | cons i l ih =>
    rw [foldr_cons, ih]
    cases hp : p i
    · rw [filter_cons_of_neg (by simp [hp])]
      simp
    · rw [filter_cons_of_pos hp, foldr_cons, Bool.true_and]

def linearSum (ws : List Nat) (y : Register) : ℤ := (ws.map fun (i : Nat) => count (y i)).sum

def pairSum : List Nat → Register → ℤ
  | [], _ => 0
  | u :: ws, y => count (y u) * linearSum ws y + pairSum ws y

def tripleSum : List Nat → Register → ℤ
  | [], _ => 0
  | u :: ws, y => count (y u) * pairSum ws y + tripleSum ws y

lemma count_listParity (ws : List Nat) (y : Register) :
    count (listParity ws y) ≡ linearSum ws y - 2 * pairSum ws y + 4 * tripleSum ws y [ZMOD 8] := by
  induction ws with
  | nil => rfl
  | cons u ws ih =>
    have e : listParity (u :: ws) y = xor (y u) (listParity ws y) := rfl
    rw [e, count_xor]
    have h := (ih.add_left (count (y u))).sub (((ih.mul_left (count (y u))).mul_left 2))
    refine h.trans (Int.modEq_iff_dvd.2 ⟨count (y u) * tripleSum ws y, ?_⟩)
    simp only [linearSum, pairSum, tripleSum, map_cons, sum_cons]
    ring

namespace Multilinear

def at_ (P : Multilinear) (y : Register) : ℤ :=
  weigh (fun (v : Nat) => count (y v)) P.linear + 2 * weigh (fun (e : Nat × Nat) => count (y e.1) * count (y e.2)) P.quadratic +
    4 * (P.cubic.map fun e => count (y e.1) * count (y e.2.1) * count (y e.2.2)).sum

variable {P : Multilinear} {y : Register} {k : Int}

section

variable (P : Multilinear)

lemma addLinear_eq (v : Nat) (k : Int) : P.addLinear v k =
    { P with linear := P.linear.insert v ((P.linear.find? v).elim k fun old => (old + k) % 8) } := by
  rw [addLinear]
  cases P.linear.find? v <;> rfl

lemma addQuadratic_eq (u v : Nat) (k : Int) : P.addQuadratic u v k = { P with
    quadratic := P.quadratic.insert (u, v) ((P.quadratic.find? (u, v)).elim (if k < 0 then 1 else 3) fun old => (old - k) % 4) } := by
  rw [addQuadratic]
  cases P.quadratic.find? (u, v) <;> rfl

lemma at_addLinear (v : Nat) (k : Int) (y : Register) : (P.addLinear v k).at_ y ≡ P.at_ y + k * count (y v) [ZMOD 8] := by
  rw [addLinear_eq]
  cases hf : P.linear.find? v with
  | none =>
    simp only [at_, weigh_insert, hf, Option.getD_none, Option.elim_none]
    exact Int.modEq_iff_dvd.2 ⟨0, by ring⟩
  | some old =>
    simp only [at_, weigh_insert, hf, Option.getD_some, Option.elim_some]
    have hmod := ((Int.mod_modEq (old + k) 8).mul_right (count (y v))).dvd
    obtain ⟨d, hd⟩ := hmod
    exact Int.modEq_iff_dvd.2 ⟨d, by linear_combination hd⟩

lemma at_addQuadratic (u v : Nat) (hk : k = 1 ∨ k = -1) (y : Register) :
    (P.addQuadratic u v k).at_ y ≡ P.at_ y - 2 * (k * (count (y u) * count (y v))) [ZMOD 8] := by
  rw [addQuadratic_eq]
  cases hf : P.quadratic.find? (u, v) with
  | none =>
    simp only [at_, weigh_insert, hf, Option.getD_none, Option.elim_none]
    rcases hk with rfl | rfl
    · exact Int.modEq_iff_dvd.2 ⟨-(count (y u) * count (y v)), by norm_num; ring⟩
    · exact Int.modEq_iff_dvd.2 ⟨0, by norm_num; ring⟩
  | some old =>
    simp only [at_, weigh_insert, hf, Option.getD_some, Option.elim_some]
    have hmod := ((Int.mod_modEq (old - k) 4).mul_right (count (y u) * count (y v))).dvd
    obtain ⟨d, hd⟩ := hmod
    exact Int.modEq_iff_dvd.2 ⟨d, by linear_combination 2 * hd⟩

end

lemma sum_filter_ne {l : List (Nat × Nat × Nat)} (hl : l.Nodup) {k : Nat × Nat × Nat} (hk : k ∈ l) (h : Nat × Nat × Nat → ℤ) :
    ((l.filter (· != k)).map h).sum = (l.map h).sum - h k := by
  have e : l.filter (· != k) = l.erase k := (hl.erase_eq_filter k).symm
  rw [e]
  have := ((perm_cons_erase hk).map h).sum_eq
  rw [map_cons, sum_cons] at this
  rw [this]
  ring

section

variable (hP : P.cubic.Nodup)
include hP

lemma at_addCubic (u v w : Nat) (y : Register) :
    (P.addCubic u v w).at_ y ≡ P.at_ y + 4 * (count (y u) * count (y v) * count (y w)) [ZMOD 8] ∧ (P.addCubic u v w).cubic.Nodup := by
  rw [addCubic]
  split
  · rename_i hc
    have hm : (u, v, w) ∈ P.cubic := by simpa using hc
    refine ⟨?_, hP.filter _⟩
    simp only [at_, sum_filter_ne hP hm]
    exact Int.modEq_iff_dvd.2 ⟨count (y u) * count (y v) * count (y w), by ring⟩
  rename_i hc
  have hm : (u, v, w) ∉ P.cubic := by simpa using hc
  have hp := mergeSort_perm ((u, v, w) :: P.cubic) tripleLe
  refine ⟨?_, hp.nodup_iff.2 (nodup_cons.2 ⟨hm, hP⟩)⟩
  simp only [at_, (hp.map fun (e : Nat × Nat × Nat) => count (y e.1) * count (y e.2.1) * count (y e.2.2)).sum_eq, map_cons, sum_cons]
  exact Int.modEq_iff_dvd.2 ⟨0, by ring⟩

lemma foldl_addCubic (u v : Nat) (ws : List Nat) (y : Register) :
    (ws.foldl (fun p w => p.addCubic u v w) P).at_ y ≡ P.at_ y + 4 * (count (y u) * count (y v) * linearSum ws y) [ZMOD 8] ∧
      (ws.foldl (fun p w => p.addCubic u v w) P).cubic.Nodup := by
  induction ws generalizing P with
  | nil => exact ⟨by simp [linearSum], hP⟩
  | cons w ws ih =>
    obtain ⟨h1, n1⟩ := at_addCubic hP u v w y
    obtain ⟨h2, n2⟩ := ih n1
    refine ⟨?_, n2⟩
    refine h2.trans ((h1.add_right _).trans (Int.modEq_iff_dvd.2 ⟨0, ?_⟩))
    simp only [linearSum, map_cons, sum_cons]
    ring

lemma foldl_pairs (u : Nat) (hk : k = 1 ∨ k = -1) (ws : List Nat) (y : Register) :
    ((splits ws).foldl (fun p (v, latest) => latest.foldl (fun p w => p.addCubic u v w) (p.addQuadratic u v k)) P).at_ y ≡
      P.at_ y - 2 * (k * (count (y u) * linearSum ws y)) + 4 * (count (y u) * pairSum ws y) [ZMOD 8] ∧
      ((splits ws).foldl (fun p (v, latest) => latest.foldl (fun p w => p.addCubic u v w) (p.addQuadratic u v k)) P).cubic.Nodup := by
  induction ws generalizing P with
  | nil => exact ⟨by simp [linearSum, pairSum, splits], hP⟩
  | cons v ws ih =>
    have h1 := at_addQuadratic P u v hk y
    obtain ⟨h2, n2⟩ := foldl_addCubic (P := P.addQuadratic u v k) hP u v ws y
    obtain ⟨h3, n3⟩ := ih n2
    refine ⟨h3.trans ((((h2.trans (h1.add_right _)).sub_right _).add_right _).trans (Int.modEq_iff_dvd.2 ⟨0, ?_⟩)), n3⟩
    simp only [linearSum, pairSum, map_cons, sum_cons]
    ring

lemma foldl_splits (hk : k = 1 ∨ k = -1) (ws : List Nat) (y : Register) : ((splits ws).foldl (fun p (u, later) =>
      (splits later).foldl (fun p (v, latest) => latest.foldl (fun p w => p.addCubic u v w) (p.addQuadratic u v k))
        (p.addLinear u k)) P).at_ y ≡
      P.at_ y + k * (linearSum ws y - 2 * pairSum ws y) + 4 * tripleSum ws y [ZMOD 8] ∧
    ((splits ws).foldl (fun p (u, later) =>
      (splits later).foldl (fun p (v, latest) => latest.foldl (fun p w => p.addCubic u v w) (p.addQuadratic u v k))
        (p.addLinear u k)) P).cubic.Nodup := by
  induction ws generalizing P with
  | nil => exact ⟨by simp [linearSum, pairSum, tripleSum, splits], hP⟩
  | cons u ws ih =>
    have h1 := at_addLinear P u k y
    obtain ⟨h2, n2⟩ := foldl_pairs (P := P.addLinear u k) hP u hk ws y
    obtain ⟨h3, n3⟩ := ih n2
    refine ⟨h3.trans ((((h2.trans ((h1.sub_right _).add_right _)).add_right _).add_right _).trans (Int.modEq_iff_dvd.2 ⟨0, ?_⟩)), n3⟩
    simp only [linearSum, pairSum, tripleSum, map_cons, sum_cons]
    ring

end

lemma wires_eq (bits : List Int) : ((bits.zip (range bits.length)).filter (·.1 != 0)).map (·.2) =
    (range bits.length).filter fun i => bits.getD i 0 != 0 := by
  have hz : bits.zip (range bits.length) = (range bits.length).map fun i => (bits.getD i 0, i) := by
    refine ext_getElem (by simp) fun i h1 h2 => ?_
    have hi : i < bits.length := by simpa using h2
    simp [hi]
  rw [hz, filter_map, map_map]
  exact map_id' _

lemma at_addParity (hP : P.cubic.Nodup) (bits : List Int) (subtract : Bool) (y : Register) : (P.addParity bits subtract).at_ y ≡
      P.at_ y + (if subtract then -1 else 1) * count (parity bits.length (fun i => bits.getD i 0 != 0) y) [ZMOD 8] ∧
      (P.addParity bits subtract).cubic.Nodup := by
  rw [addParity]
  rw [wires_eq, parity_eq_listParity]
  generalize (range bits.length).filter (fun i => bits.getD i 0 != 0) = ws
  have hk : (if subtract then -1 else 1 : ℤ) = 1 ∨ (if subtract then -1 else 1 : ℤ) = -1 := by
    cases subtract <;> simp
  generalize (if subtract then -1 else 1 : ℤ) = k at hk
  obtain ⟨h1, n1⟩ := foldl_splits hP hk ws y
  refine ⟨h1.trans ?_, n1⟩
  have h2 := ((count_listParity ws y).mul_left k).add_left (P.at_ y)
  refine Int.ModEq.trans ?_ h2.symm
  rcases hk with rfl | rfl
  · exact Int.modEq_iff_dvd.2 ⟨0, by ring⟩
  · exact Int.modEq_iff_dvd.2 ⟨-tripleSum ws y, by ring⟩

def columnsAt (cols : List (List Int)) (y : Register) : ℤ := (cols.map fun c => count (parity c.length (fun i => c.getD i 0 != 0) y)).sum

lemma at_addMatrix (hP : P.cubic.Nodup) (m : BitMatrix) (subtract : Bool) (y : Register) :
    (P.addMatrix m subtract).at_ y ≡ P.at_ y + (if subtract then -1 else 1) * columnsAt m.transpose.toRows y [ZMOD 8] ∧
      (P.addMatrix m subtract).cubic.Nodup := by
  rw [addMatrix]
  generalize m.transpose.toRows = cols
  induction cols generalizing P with
  | nil => exact ⟨by simp [columnsAt], hP⟩
  | cons c cols ih =>
    obtain ⟨h1, n1⟩ := at_addParity hP c subtract y
    obtain ⟨h2, n2⟩ := ih n1
    refine ⟨h2.trans ((h1.add_right _).trans (Int.modEq_iff_dvd.2 ⟨0, ?_⟩)), n2⟩
    simp only [columnsAt, map_cons, sum_cons]
    ring

/-! ## Clifford gates -/

lemma mapM_course {κ : Type} {h : κ → Register → ℤ} {f : κ × Int → Attempt (List Gate)}
    (each : ∀ e, Gives (f e) fun gs => courseOf gs = eighths fun y => e.2 * h e.1 y) (t : Table κ Int) :
    Gives (t.mapM f) fun gss => courseOf gss.flatten = eighths fun y => weigh (fun k => h k y) t := by
  induction t with
  | nil => exact .pure (courseOf_nil.trans eighths_zero.symm)
  | cons e t ih =>
    rw [mapM_cons]
    refine (each e).bind fun gs hgs => ih.bind fun gss hgss => .pure ?_
    rw [flatten_cons, courseOf_append, hgs, hgss, eighths_mul_eighths]
    rfl

/-- **The Clifford gates turn registers as the polynomial does.** -/
theorem toClifford_gives (P : Multilinear) : Gives P.toClifford fun gs => courseOf gs = eighths P.at_ := by
  have one : ∀ (g : Gate) (f : Register → ℤ), Course.of g.op.motion = eighths f → courseOf [g] = eighths f := fun g f e => by
    rw [courseOf_cons, courseOf_nil, mul_one, e]
  have turn : ∀ (t : Int) (k : ℤ), z t (k / 4) = eighths fun y => k * count (y t) := z_eq_eighths
  have nothing : courseOf [] = eighths fun _ => 0 := by exact eighths_zero.symm
  refine (mapM_course (h := fun (t : Nat) y => count (y t)) (fun e => ?_) P.linear).bind fun singles hs => ?_
  · obtain ⟨t, v⟩ := e
    refine .ite (fun hv => .pure (one _ _ ?_)) fun _ => .ite (fun hv => .pure (one _ _ ?_)) fun _ =>
      .ite (fun hv => .pure (one _ _ ?_)) fun _ => .ite (fun hv => .pure ?_) fun _ => .throw _
    · subst hv
      exact (show z t (1 / 2) = z t ((2 : ℤ) / 4) by norm_num).trans (turn t 2)
    · subst hv
      exact (show z t 1 = z t ((4 : ℤ) / 4) by norm_num).trans (turn t 4)
    · subst hv
      refine (show z t (-1 / 2) = z t ((-2 : ℤ) / 4) by norm_num).trans ((turn t (-2)).trans (eighths_congr fun y => ?_))
      exact Int.modEq_iff_dvd.2 ⟨count (y t), by ring⟩
    · subst hv
      simpa using nothing
  · refine (mapM_course (h := fun (e : Nat × Nat) y => 2 * (count (y e.1) * count (y e.2))) (fun e => ?_) P.quadratic).bind
      fun pairs hp => ?_
    · obtain ⟨⟨t, u⟩, v⟩ := e
      refine .ite (fun hv => .pure (one _ _ ?_)) fun _ => .ite (fun hv => .pure ?_) fun _ => .throw _
      · subst hv
        refine (cz_eq_eighths t u).trans ?_
        congr 1
        funext y
        ring
      · subst hv
        simpa using nothing
    refine .ite (fun _ => .thrown _) fun hc => .pure ?_
    have hc' : P.cubic = [] := by simpa using hc
    rw [courseOf_append, hs, hp, eighths_mul_eighths]
    congr 1
    funext y
    have : weigh (fun (k : Nat × Nat) => 2 * (count (y k.1) * count (y k.2))) P.quadratic =
        2 * weigh (fun (k : Nat × Nat) => count (y k.1) * count (y k.2)) P.quadratic := by
      simp only [weigh]
      rw [← sum_map_mul_left]
      congr 1
      exact map_congr_left fun e _ => by ring
    rw [this, at_, hc']
    simp

end Multilinear

end ZXCircuits
