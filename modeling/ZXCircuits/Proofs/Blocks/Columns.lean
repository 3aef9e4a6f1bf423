/-
  Phase forms of blocks, and the columns of parity matrices.

  The gates of a block are the phase polynomial of its form followed by the rearrangement of the registers that the parities on the
  wires describe (`PhaseForm.ofGates_makes`).  The reduction of a parity matrix leaves no more columns of bits than come an odd number of
  times (`Todd.iterate_ends`); the multilinear form makes up for the difference.
-/
import ZXCircuits.Proofs.Blocks.Consuming
import ZXCircuits.Proofs.BitMatrix.Linear
import ZXCircuits.Proofs.Blocks.Multilinears

namespace ZXCircuits

open List Function Course ParitySum BitMatrix

variable {q : Nat} {row : Nat → Nat → Bool} {e : Equiv.Perm Register}

/-- What can be read into a form: rotations by eighths, controlled signs and controlled nots. -/
def Gate.IsEighths (q : Nat) (g : Gate) : Prop := g.IsLaid q ∧ g.isHad = false ∧ (g.isZRotation → (g.phase * 4).den = 1)

/-- The bits of the wires after a rearrangement of the registers. -/
structure Rows (q : Nat) (row : Nat → Nat → Bool) (e : Equiv.Perm Register) : Prop where
  inside : ∀ i < q, ∀ y, e.symm y (i : Int) = parity q (row i) y
  outside : ∀ w, ¬ OnWire q w → ∀ y, e.symm y w = y w
  unit : IsUnit (ofBits q row)

lemma rows_one : Rows q (fun i j => decide (j = i)) 1 :=
  ⟨fun _ hi y => (parity_single hi (fun _ _ => rfl) y).symm, fun _ _ _ => rfl, by
    have : ofBits q (fun i j => decide (j = i)) = 1 := by
      ext i j
      simp [ofBits, Matrix.one_apply, Fin.ext_iff, eq_comm]
    rw [this]
    exact isUnit_one⟩

lemma Rows.eq {e d : Equiv.Perm Register} (he : Rows q row e) (hd : Rows q row d) : e = d := by
  refine Equiv.symm_bijective.1 (Equiv.ext fun y => funext fun w => ?_)
  by_cases hw : OnWire q w
  · obtain ⟨i, rfl⟩ := Int.eq_ofNat_of_zero_le hw.1
    have hi : i < q := by have := hw.2; omega
    rw [he.inside i hi y, hd.inside i hi y]
  · rw [he.outside w hw y, hd.outside w hw y]

lemma Rows.congr {row row' : Nat → Nat → Bool} (h : Rows q row e) (hr : ∀ i < q, ∀ j < q, row i j = row' i j) : Rows q row' e :=
  ⟨fun i hi y => (h.inside i hi y).trans (parity_congr (hr i hi) y), h.outside, ofBits_congr hr ▸ h.unit⟩

lemma Rows.cnot (h : Rows q row e) {c t : Nat} (hc : c < q) (ht : t < q)
    (hct : c ≠ t) : Rows q (fun i j => if i = t then xor (row t j) (row c j) else row i j)
      (e * flipWhen (t : Int) fun x => x (c : Int)) := by
  have symm : ∀ y, (e * flipWhen (t : Int) fun x => x (c : Int)).symm y = update (e.symm y) (t : Int) (xor (e.symm y t) (e.symm y c)) := by
    intro y
    have hne : (c : Int) ≠ t := by omega
    show (flipWhen (t : Int) fun x => x (c : Int)) (e.symm y) = _
    rw [flipWhen_apply, update_of_ne hne]
  refine ⟨fun i hi y => ?_, fun w hw y => ?_, ?_⟩
  · rw [symm]
    by_cases hit : i = t
    · subst hit
      simp [update_self, h.inside i hi y, h.inside c hc y, parity_xor]
    · rw [update_of_ne (by omega), h.inside i hi y]
      simp [hit]
  · have hwt : w ≠ (t : Int) := fun e => hw ⟨by omega, by omega⟩
    rw [symm, update_of_ne hwt, h.outside w hw y]
  · have unit := (isUnit_additions (forall_mem_singleton (a := (c, t)).2 ⟨hc, ht, hct⟩)).mul h.unit
    exact (congrArg IsUnit (grid_add row hc ht)).mpr unit

namespace PhaseForm

variable {f : PhaseForm} {gs : List Gate}

/-- Gates that a form stands for. -/
structure Shows (q : Nat) (f : PhaseForm) (gs : List Gate) (e : Equiv.Perm Register) : Prop where
  size : f.wires.size = q
  nonneg : ∀ t ∈ f.phases, 0 ≤ t.2
  rows : Rows q (fun i j => (f.wires.getD i []).contains j) e
  course : courseOf gs = eighths (f.phases.at_ q) * wiring e

lemma start_shows (q : Nat) : Shows q (start q) [] 1 := by
  refine ⟨by simp [start], by simp [start], rows_one.congr fun i hi j hj => ?_, ?_⟩
  · simp [start, hi, eq_comm]
  · have : eighths (at_ q []) = 1 := eighths_zero
    rw [show (start q).phases = [] from rfl, this, wiring_one, courseOf_nil, one_mul]

lemma parityOn_eq {i : Nat} (hs : f.wires.size = q) (hi : i < q) : f.parityOn (i : Int) = .ok (i, f.wires.getD i []) := by
  have h0 : ¬ (i : Int) < 0 := by omega
  have h1 : 0 ≤ (i : Int) ∧ (i : Int) < (q : Int) := by omega
  have hi' : i < f.wires.size := hs ▸ hi
  simp only [parityOn, wrapIndex, hs, h0, if_false, h1, and_self, if_true, Int.toNat_natCast, bind, Except.bind]
  simp [orOutOfRange, hi', pure, Except.pure]

lemma at_addTerm_wires (f : PhaseForm) (ws : List Nat) (v : Int) (y : Register) :
    (f.addTerm ws v).phases.at_ q y ≡ f.phases.at_ q y + v * count (parity q ws.contains y) [ZMOD 8] := by
  have h := at_addTerm q f.phases (ws.map Int.ofNat) v y
  have e : ∀ i : Nat, (ws.map Int.ofNat).contains (i : Int) = ws.contains i := fun i => by
    rw [Bool.eq_iff_iff, contains_iff_mem, contains_iff_mem, mem_map]
    constructor
    · rintro ⟨a, ha, h⟩
      exact Int.ofNat.inj h ▸ ha
    · exact fun h => ⟨i, h, rfl⟩
  simp only [e] at h
  exact h

namespace Shows

variable {f : PhaseForm} {gs : List Gate} {e : Equiv.Perm Register} {g : Gate} {i j : Nat}

variable (h : Shows q f gs e)
include h

lemma course_append {p : Register → ℤ} (hg : Course.of g.op.motion = eighths p) :
    courseOf (gs ++ [g]) = eighths (fun y => f.phases.at_ q y + p (e.symm y)) * wiring e := by
  rw [courseOf_append, courseOf_cons, courseOf_nil, mul_one, hg, h.course, mul_assoc, wiring_mul_eighths, ← mul_assoc, eighths_mul_eighths]

lemma rotation (hi : i < q) {k : ℤ} (hg : Course.of g.op.motion = eighths fun y => k * count (y (i : Int))) :
    Shows q (f.addTerm (f.wires.getD i []) k) (gs ++ [g]) e := by
  refine ⟨h.size, addTerm_nonneg h.nonneg _ _, h.rows, ?_⟩
  rw [h.course_append hg]
  congr 1
  refine eighths_congr fun y => ?_
  rw [h.rows.inside i hi y]
  exact (at_addTerm_wires f (f.wires.getD i []) k y).symm

lemma cnot (hj : j < q) (hi : i < q) (hji : j ≠ i) (hg : g.op = .pair .cnot j i) :
    Shows q { f with wires := f.wires.setIfInBounds i (symmDiff (f.wires.getD i []) (f.wires.getD j [])) } (gs ++ [g])
      (e * flipWhen (i : Int) fun x => x (j : Int)) := by
  refine ⟨by simpa using h.size, h.nonneg, (h.rows.cnot hj hi hji).congr fun a ha b hb => ?_, ?_⟩
  · have has : a < f.wires.size := h.size ▸ ha
    by_cases hai : a = i
    · subst hai
      simp only [if_true, Array.getD_eq_getD_getElem?, Array.getElem?_setIfInBounds_self_of_lt has, Option.getD_some, contains_symmDiff]
    · rw [if_neg hai]
      simp only [Array.getD_eq_getD_getElem?, Array.getElem?_setIfInBounds_ne (Ne.symm hai)]
  · rw [courseOf_append, courseOf_cons, courseOf_nil, mul_one, h.course, mul_assoc, hg]
    rfl

lemma sign (hj : j < q) (hi : i < q) (hg : g.op = .pair .cz j i) :
    Shows q (((f.addTerm (f.wires.getD i []) 2).addTerm (f.wires.getD j []) 2).addTerm
      (symmDiff (f.wires.getD i []) (f.wires.getD j [])) 6) (gs ++ [g]) e := by
  refine ⟨h.size, addTerm_nonneg (addTerm_nonneg (addTerm_nonneg h.nonneg _ _) _ _) _ _, h.rows, ?_⟩
  have hz : Course.of g.op.motion = eighths fun y => 4 * (count (y (j : Int)) * count (y (i : Int))) := by
    rw [hg]
    exact cz_eq_eighths _ _
  rw [h.course_append hz]
  congr 1
  refine eighths_congr fun y => ?_
  rw [h.rows.inside i hi y, h.rows.inside j hj y]
  generalize f.wires.getD i [] = as
  generalize f.wires.getD j [] = bs
  have h1 := at_addTerm_wires (q := q) f as 2 y
  have h2 := at_addTerm_wires (q := q) (f.addTerm as 2) bs 2 y
  have h3 := at_addTerm_wires (q := q) ((f.addTerm as 2).addTerm bs 2) (symmDiff as bs) 6 y
  have hx : count (parity q (symmDiff as bs).contains y) = count (parity q as.contains y) + count (parity q bs.contains y) -
      2 * (count (parity q as.contains y) * count (parity q bs.contains y)) := by
    rw [← count_xor, ← parity_xor]
    congr 2
    funext i
    exact contains_symmDiff as bs i
  rw [hx] at h3
  generalize count (parity q as.contains y) = a at *
  generalize count (parity q bs.contains y) = b at *
  have hsum : f.phases.at_ q y + 4 * (b * a) ≡ f.phases.at_ q y + 2 * a + 2 * b + 6 * (a + b - 2 * (a * b)) [ZMOD 8] :=
    Int.modEq_iff_dvd.2 ⟨a + b - 2 * (a * b), by ring⟩
  have hpair := (h1.add_right (2 * b)).symm.trans h2.symm
  exact hsum.trans ((hpair.add_right _).trans h3.symm)

end Shows

lemma feed_makes (h : Shows q f gs e) {g : Gate} (hg : g.IsEighths q) : Makes (f.feed g) fun f' => ∃ e', Shows q f' (gs ++ [g]) e' := by
  obtain ⟨laid, hh, hden⟩ := hg
  obtain ⟨op, idx⟩ := g
  cases op with
  | had t => cases hh
  | rotation k t p =>
    obtain ⟨hk, ht⟩ := laid
    obtain ⟨i, rfl⟩ := Int.eq_ofNat_of_zero_le ht.1
    have hi : i < q := by have := ht.2; omega
    have hden' : (p * 4).den = 1 := hden hk
    have hp : p = ((p * 4).num : ℚ) / 4 := by
      have : p * 4 = ((p * 4).num : ℚ) := ((Rat.den_eq_one_iff _).1 hden').symm
      rw [← this]
      ring
    have hz : Course.of (Operation.motion (.rotation k i p)) = eighths fun y => (p * 4).num * count (y (i : Int)) := by
      rw [← z_eq_eighths, ← hp]
      simp [Operation.motion, hk, z]
    simp only [feed, hk, Bool.not_true, Bool.false_eq_true, if_false, parityOn_eq h.size hi, bind, Except.bind, hden', Nat.cast_one,
      Int.tdiv_one]
    exact .pure ⟨e, h.rotation hi hz⟩
  | pair k c t =>
    obtain ⟨hk, hc, ht, hct⟩ := laid
    obtain ⟨i, rfl⟩ := Int.eq_ofNat_of_zero_le ht.1
    obtain ⟨j, rfl⟩ := Int.eq_ofNat_of_zero_le hc.1
    have hi : i < q := by have := ht.2; omega
    have hj : j < q := by have := hc.2; omega
    have hji : j ≠ i := fun e => hct (by rw [e])
    rcases hk with rfl | rfl
    · simp only [feed, parityOn_eq h.size hi, parityOn_eq h.size hj, bind, Except.bind]
      exact .pure ⟨_, h.cnot hj hi hji rfl⟩
    · simp only [feed, parityOn_eq h.size hi, parityOn_eq h.size hj, bind, Except.bind]
      exact .pure ⟨e, h.sign hj hi rfl⟩
  | _ => exact laid.elim

lemma ofGates_makes (hg : ∀ g ∈ gs, g.IsEighths q) : Makes (ofGates gs q) fun f => ∃ e, Shows q f gs e := by
  refine Makes.foldlM (I := fun hs f => ∃ e, Shows q f hs e) (fun hs f g hm h => ?_) ⟨1, start_shows q⟩
  obtain ⟨e, h⟩ := h
  exact feed_makes h (hg g hm)

end PhaseForm

open ZXCircuits.Random

namespace RandomRun

variable {σ α β : Type} {P Q : α → Prop} {R : β → Prop}

def Ends (r : RandomRun σ α) (P : α → Prop) : Prop := ∀ s, Run.Ends (r s) fun out => P out.1

namespace Ends

variable {r : RandomRun σ α}

lemma bind {f : α → RandomRun σ β} (h : Ends r P) (hf : ∀ a, P a → Ends (f a) R) : Ends (r >>= f) R :=
  fun s => (h s).bind fun out hout => hf out.1 hout out.2

lemma pure {a : α} (h : P a) : Ends (pure a : RandomRun σ α) P := fun _ => .pure h

lemma mono (h : Ends r P) (hpq : ∀ a, P a → Q a) : Ends r Q := fun s => (h s).mono fun out => hpq out.1

lemma ofExcept {x : Attempt α} (h : Gives x P) : Ends (ofExcept x : RandomRun σ α) P := by
  intro s
  cases hx : x with
  | error e => exact .throw e
  | ok a => exact .pure (h a hx)

lemma lift {r : Run α} (h : Run.Ends r P) : Ends (StateT.lift r : RandomRun σ α) P := fun _ => h.bind fun _ ha => .pure ha

lemma throw (e : Failure) : Ends (throw e : RandomRun σ α) P := lift (.throw e)

lemma drawPure {f : σ → α × σ} (h : ∀ s, P (f s).1) : Ends (drawPure f) P := fun s => .pure (h s)

lemma ite {c : Prop} [Decidable c] {x y : RandomRun σ α} (hx : c → Ends x P) (hy : ¬ c → Ends y P) : Ends (if c then x else y) P := by
  split
  · exact hx ‹_›
  · exact hy ‹_›

end Ends

end RandomRun

/-- Columns of `q` bits. -/
def Bits (q : Nat) (cols : List (List Int)) : Prop := ∀ c ∈ cols, c.length = q ∧ ∀ x ∈ c, x = 0 ∨ x = 1

namespace BitMatrix

variable {cols : List (List Int)} {m : BitMatrix}

lemma entry_ofRows (rows : List (List Int)) (i j : Nat) : (ofRows rows).entry i j = (rows.getD i []).getD j 0 := by
  rw [entry, row, ofRows]
  cases h : rows[i]? <;> simp [h]

lemma numRows_ofRows (rows : List (List Int)) : (ofRows rows).numRows = rows.length := by simp [ofRows, numRows]

lemma toRows_transpose (m : BitMatrix) :
    m.transpose.toRows = (range m.numCols).map fun j => (range m.numRows).map fun i => m.entry i j := by
  simp [transpose, toRows]

lemma entry_transpose {i j : Nat} (hi : i < m.numCols) (hj : j < m.numRows) : m.transpose.entry i j = m.entry j i := by
  simp [transpose, entry, row, hi, hj]

lemma numRows_transpose (m : BitMatrix) : m.transpose.numRows = m.numCols := by simp [transpose, numRows]

lemma numCols_transpose (h : 0 < m.numCols) : m.transpose.numCols = m.numRows := by
  rw [numCols, transpose]
  simp [h]

lemma numCols_ofRows (h : ∀ c ∈ cols, c.length = q) (hne : cols ≠ []) : (ofRows cols).numCols = q := by
  cases cols with
  | nil => exact (hne rfl).elim
  | cons c cs => simpa [numCols, ofRows] using h c (by simp)

lemma toRows_transpose_transpose (hq : 0 < q) (h : ∀ c ∈ cols, c.length = q) : (ofRows cols).transpose.transpose.toRows = cols := by
  by_cases hne : cols = []
  · subst hne
    simp [ofRows, transpose, toRows, numCols]
  have hc := numCols_ofRows h hne
  rw [toRows_transpose, numCols_transpose (hc ▸ hq), numRows_transpose, hc, numRows_ofRows]
  refine ext_getElem (by simp) fun j hj hj' => ?_
  rw [getElem_map, getElem_range]
  have hlen : cols[j].length = q := h _ (getElem_mem hj')
  refine ext_getElem (by simp [hlen]) fun i hi hi' => ?_
  rw [getElem_map, getElem_range, entry_transpose (by rw [hc]; omega) (by rw [numRows_ofRows]; exact hj'), entry_ofRows]
  simp [hj', hi']

end BitMatrix

namespace Todd

open BitMatrix

variable {cols : List (List Int)} {m : BitMatrix} {σ α : Type} {w : Match}

/-! ## Empty and equal columns -/

lemma dropTrivial_spec : ∀ rows : List (List Int), (dropTrivial rows).elim (rows.Nodup ∧ ∀ v ∈ rows, v.all (· == 0) = false) fun rest =>
    rest.length < rows.length ∧ rest.Sublist rows ∧ ∀ v, v.all (· == 0) = false → rest.count v % 2 = rows.count v % 2
  | [] => ⟨nodup_nil, by simp⟩
  | r :: rows => by
    rw [dropTrivial]
    split
    · rename_i hz
      refine ⟨by simp, sublist_cons_self r rows, fun v hv => ?_⟩
      rw [count_cons_of_ne (by rintro rfl; rw [hz] at hv; cases hv)]
    split
    · rename_i hc
      have hmem : r ∈ rows := by simpa using hc
      refine ⟨Nat.lt_succ_of_le (erase_sublist.length_le), erase_sublist.trans (sublist_cons_self r rows), fun v _ => ?_⟩
      have := one_le_count_iff.2 hmem
      rw [count_erase, count_cons]
      by_cases hv : r = v
      · subst hv
        simp only [beq_self_eq_true, if_true]
        omega
      · simp [hv]
    rename_i hz hc
    have ih := dropTrivial_spec rows
    cases hd : dropTrivial rows with
    | none =>
      rw [hd] at ih
      exact ⟨nodup_cons.2 ⟨by simpa using hc, ih.1⟩, forall_mem_cons.2 ⟨by simpa using hz, ih.2⟩⟩
    | some rest =>
      rw [hd] at ih
      refine ⟨Nat.succ_lt_succ ih.1, ih.2.1.cons_cons r, fun v hv => ?_⟩
      have := ih.2.2 v hv
      rw [count_cons, count_cons]
      omega

lemma removeTrivial_spec (rows : List (List Int)) : (removeTrivial rows).Sublist rows ∧ (removeTrivial rows).Nodup ∧
    ∀ v ∈ removeTrivial rows, rows.count v % 2 = 1 := by
  have all : ∀ fuel rows, length rows ≤ fuel → (dropAllTrivial fuel rows).Sublist rows ∧ (dropAllTrivial fuel rows).Nodup ∧
      ∀ v ∈ dropAllTrivial fuel rows, v.all (· == 0) = false ∧ rows.count v % 2 = 1 := by
    intro fuel
    induction fuel with
    | zero =>
      intro rows h
      rw [length_eq_zero_iff.1 (Nat.le_zero.1 h)]
      exact ⟨Sublist.refl _, nodup_nil, by simp [dropAllTrivial]⟩
    | succ fuel ih =>
      intro rows h
      have hd := dropTrivial_spec rows
      rw [dropAllTrivial]
      cases hr : dropTrivial rows with
      | none =>
        rw [hr] at hd
        exact ⟨Sublist.refl _, hd.1, fun v hv => ⟨hd.2 v hv, by rw [count_eq_one_of_mem hd.1 hv]⟩⟩
      | some rest =>
        rw [hr] at hd
        obtain ⟨hs, hn, hc⟩ := ih rest (Nat.le_of_lt_succ (hd.1.trans_le h))
        exact ⟨hs.trans hd.2.1, hn, fun v hv => ⟨(hc v hv).1, hd.2.2 v (hc v hv).1 ▸ (hc v hv).2⟩⟩
  obtain ⟨hs, hn, hc⟩ := all _ rows le_rfl
  exact ⟨hs, hn, fun v hv => (hc v hv).2⟩

lemma shuffle_perm [Source σ] (xs : List α) (s : σ) : (shuffle xs s).1.Perm xs := by
  have from_ : ∀ (i : Nat) (ys : Array α) (s : σ), (shuffleFrom i ys s).1.toList.Perm ys.toList := by
    intro i
    induction i with
    | zero => exact fun _ _ => Perm.refl _
    | succ i ih =>
      intro ys s
      refine (ih _ _).trans ?_
      rw [Array.swapIfInBounds]
      split
      · split
        · exact (Array.swap_perm _ _).toList
        · exact Perm.refl _
      · exact Perm.refl _
  exact from_ _ xs.toArray s

/-! ## Reduction -/

def Holds (q k : Nat) (m : BitMatrix) : Prop := Bits q m.transpose.toRows ∧ m.transpose.toRows.length ≤ k

lemma holds_ofRows {k : Nat} (hq : 0 < q) (h : Bits q cols) (hk : cols.length ≤ k) : Holds q k (ofRows cols).transpose := by
  rw [Holds, toRows_transpose_transpose hq fun c hc => (h c hc).1]
  exact ⟨h, hk⟩

lemma holds_shuffleColumns [Source σ] (hq : 0 < q) (h : Bits q m.transpose.toRows) (s : σ) :
    Holds q (removeTrivial m.transpose.toRows).length (shuffleColumns m s).1 := by
  have hp := shuffle_perm (removeTrivial m.transpose.toRows) s
  exact holds_ofRows hq (fun c hc => h c ((removeTrivial_spec _).1.subset (hp.mem_iff.1 hc))) hp.length_eq.le

lemma difference_of_findMatch (h : findMatch m = some w) : w.second < m.numCols ∧ ∃ a b, w.difference = columnDifference m a b := by
  obtain ⟨-, a, -, -, ha, -⟩ := findSome?_eq_some_iff.1 h
  obtain ⟨l1, b, l2, hl, hb, -⟩ := findSome?_eq_some_iff.1 ha
  have hlt : b ∈ rowsFrom (a + 1) m.numCols := hl ▸ by simp
  rw [matchPair] at hb
  split at hb
  · cases hb
  · obtain ⟨y, -, rfl⟩ := Option.map_eq_some_iff.1 hb
    exact ⟨(mem_rowsFrom.1 hlt).2, a, b, rfl⟩

lemma bits_applyMatch (h : Bits q cols) (hl : w.difference.length = q) (hz : ∀ x ∈ w.difference, x = 0 ∨ x = 1) :
    Bits q (applyMatch w cols) := by
  intro c hc
  have hc := mem_of_mem_eraseIdx (mem_of_mem_eraseIdx ((removeTrivial_spec _).1.subset hc))
  have flipped : ∀ c ∈ (cols.zip w.columns).map (fun (x : List Int × Int) => if x.2 = 0 then x.1
      else zipWith (fun a b => if b ≠ 0 then BitMatrix.flip a else a) x.1 w.difference),
      c.length = q ∧ ∀ x ∈ c, x = 0 ∨ x = 1 := by
    intro c hc
    obtain ⟨⟨c', y⟩, hm, rfl⟩ := mem_map.1 hc
    obtain ⟨hlen, hbit⟩ := h c' (of_mem_zip hm).1
    split
    · exact ⟨hlen, hbit⟩
    refine ⟨by simp [hlen, hl], fun x hx => ?_⟩
    obtain ⟨i, hi, rfl⟩ := getElem_of_mem hx
    rw [getElem_zipWith]
    split
    · rw [BitMatrix.flip]
      split
      · exact .inl rfl
      · exact .inr rfl
    · exact hbit _ (getElem_mem _)
  split at hc
  · rcases mem_append.1 hc with hc | hc
    · exact flipped c hc
    · rw [mem_singleton.1 hc]
      exact ⟨hl, hz⟩
  · exact flipped c hc

lemma length_applyMatch (h : w.second < cols.length) : (applyMatch w cols).length ≤ cols.length := by
  refine (removeTrivial_spec _).1.length_le.trans ((eraseIdx_sublist _ _).length_le.trans ?_)
  rw [length_eraseIdx]
  split_ifs <;> simp_all
  all_goals omega

lemma holds_reduceOnce {k : Nat} (hq : 0 < q) (h : Holds q k m) : Holds q k (reduceOnce m).1 := by
  rw [reduceOnce]
  split
  · exact h
  rename_i w hw
  obtain ⟨hlt, a, b, hd⟩ := difference_of_findMatch hw
  have hrows : m.numRows = q := by
    have : (range m.numRows).map (fun i => m.entry i 0) ∈ m.transpose.toRows := by
      rw [toRows_transpose]
      exact mem_map.2 ⟨0, mem_range.2 (Nat.zero_lt_of_lt hlt), rfl⟩
    simpa using (h.1 _ this).1
  have hb : Bits q (applyMatch w m.transpose.toRows) := by
    refine bits_applyMatch h.1 (by rw [hd]; simp [columnDifference, hrows]) ?_
    rw [hd]
    intro x hx
    obtain ⟨i, -, rfl⟩ := mem_map.1 hx
    split
    · exact .inl rfl
    · exact .inr rfl
  exact holds_ofRows hq hb ((length_applyMatch (by rw [toRows_transpose]; simpa using hlt)).trans h.2)

lemma reduceAll_ends {k : Nat} (hq : 0 < q) (verbose : Bool) (fuel : Nat) (h : Holds q k m) :
    Run.Ends (reduceAll verbose fuel m) (Holds q k) := by
  induction fuel generalizing m with
  | zero => exact .throw _
  | succ fuel ih =>
    have hr := holds_reduceOnce hq h
    rw [reduceAll]
    revert hr
    generalize reduceOnce m = r
    intro hr
    simp only
    split
    · exact (Run.Ends.sayIf _ _).bind fun _ _ => Run.Ends.pure hr
    · exact (Run.Ends.sayIf _ _).bind fun _ _ => ih hr

/-- **The reduction of a matrix of bits is one**, with no more columns than come an odd number of times. -/
theorem iterate_ends [Source σ] (hq : 0 < q) (verbose : Bool) (h : Bits q m.transpose.toRows) :
    RandomRun.Ends (iterate m verbose : RandomRun σ BitMatrix) (Holds q (removeTrivial m.transpose.toRows).length) := by
  refine (RandomRun.Ends.drawPure (holds_shuffleColumns hq h)).bind fun m' h' => ?_
  exact .ite (fun _ => .pure h') fun _ => .lift (reduceAll_ends hq verbose _ h')

end Todd

end ZXCircuits
