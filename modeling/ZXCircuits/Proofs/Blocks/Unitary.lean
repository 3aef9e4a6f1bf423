/-
  To reduce the blocks of a circuit keeps its matrix, and makes no T gates.

  Passes take a circuit apart into gates and what is left over, `NOT` gates and then swaps.  The swaps are composed to a
  permutation and made anew, and the gates are reduced block by block; the matrix stays the same up to a factor
  (`Circuit.reduceBlocks_unitary`), and the T-count does not grow (`Circuit.optimised_tCount_le`).
-/
import ZXCircuits.Proofs.Blocks.Loop

namespace ZXCircuits

open List Function Course RandomRun Blocks Equiv

variable {n : ℕ} {τ : Perm Int}

/-! ## Swaps of a permutation given backwards -/

namespace Permutation

lemma swapsOf_backwards (hτ : ∀ w, ¬ OnWire n w → τ w = w) : Gives (swapsOf ((tableOf n τ).map Prod.swap)) (MakeUp n τ.symm) := by
  have fixed : ∀ w, ¬ OnWire n w → τ.symm w = w := fun w hw => by
    rw [symm_apply_eq, hτ w hw]
  have onto : (range n).map Int.ofNat ⊆ ((range n).map Int.ofNat).map τ := fun w hw =>
    mem_map.2 ⟨τ.symm w, mem_wires.2 (onWire_of_apply hτ (by rw [apply_symm_apply]; exact mem_wires.1 hw)), apply_symm_apply ..⟩
  have keys : (Table.keys ((tableOf n τ).map Prod.swap)).Perm ((range n).map Int.ofNat) := by
    rw [keys_swap, values_tableOf]
    exact ((nodup_wires.subperm onto).perm_of_length_le (by simp)).symm
  obtain ⟨swaps, e, h⟩ := swapsOf_makeUp fixed keys (by simp [tableOf])
  rw [e]
  exact .ok h

end Permutation

/-! ## Gates left over -/

def InOrder (rest : List Gate) : Prop :=
  ∃ (ws : List Int) (swaps : List (Int × Int)), rest = ws.map Gate.not ++ swaps.map fun q => Gate.swap q.1 q.2

lemma inOrder_leftOver (p : Pass) : Gives p.leftOver InOrder := by
  refine .skip fun swaps => .pure ⟨p.nots, swaps.map fun q => ((q.1 : Int), q.2), ?_⟩
  rw [map_map]
  rfl

lemma inOrder_forward (c : Circuit) (mergeSigns : Bool) : Gives (forward c mergeSigns) fun r => InOrder r.2 := by
  refine .skip fun p => ?_
  refine .skip fun p => ?_
  refine .skip fun gs => ?_
  exact (inOrder_leftOver p).bind fun rest h => .pure h

namespace Circuit

lemma inOrder_backAndForth (c : Circuit) (mergeSigns : Bool) : Gives (c.backAndForth mergeSigns) fun r => InOrder r.2 := by
  refine .skip fun r => ?_
  refine .skip fun d => ?_
  exact inOrder_forward _ _

lemma inOrder_repeatPasses (verbose : Bool) (fuel done : ℕ) (counts : GateCounts) (c : Circuit) :
    Run.Ends (repeatPasses verbose fuel done counts c) fun r => InOrder r.2 := by
  induction fuel generalizing done counts c with
  | zero =>
    refine (Run.Ends.lift (inOrder_backAndForth c _)).bind fun r hr => ?_
    refine .skip fun k => ?_
    exact Run.Ends.pure hr
  | succ fuel ih =>
    rw [repeatPasses]
    refine (Run.Ends.lift (inOrder_backAndForth c _)).bind fun r hr => ?_
    refine .skip fun k => ?_
    dsimp only
    split
    · exact .pure hr
    · refine .skip fun d => ?_
      exact .skip fun _ => ih _ _ _

lemma inOrder_simplifyApart (c : Circuit) (limit : Int) (verbose : Bool) :
    Run.Ends (c.simplifyApart limit verbose) fun r => InOrder r.2 := by
  refine .skip fun r => ?_
  refine .skip fun k => ?_
  refine .skip fun d => ?_
  exact (inOrder_repeatPasses verbose _ _ _ _).bind fun r hr => .pure hr

end Circuit

namespace Blocks

def splitStep (s : List Gate × Table Int Int) (g : Gate) : Attempt (List Gate × Table Int Int) :=
  match g.op with
  | .pair .swap c t => do
    let a ← orAbsent (Table.find? s.2 c)
    let b ← orAbsent (Table.find? s.2 t)
    return (s.1, Table.insert (Table.insert s.2 c b) t a)
  | .rotation .not _ _ => return (s.1 ++ [g], s.2)
  | _ => throw (.illegalCorrection g.text)

lemma splitLeftOver_eq (qubits : Int) (rest : List Gate) : splitLeftOver qubits rest = do
    let r ← rest.foldlM splitStep ([], Permutation.identity qubits.toNat)
    return (r.1, r.2.foldl (fun t kv => Table.insert t kv.2 kv.1) []) := rfl

lemma foldlM_nots (ws : List Int) (acc : List Gate) (t : Table Int Int) :
    (ws.map Gate.not).foldlM splitStep (acc, t) = .ok (acc ++ ws.map Gate.not, t) := by
  induction ws generalizing acc with
  | nil => simp [pure, Except.pure]
  | cons w ws ih =>
    show (ws.map Gate.not).foldlM splitStep (acc ++ [Gate.not w], t) = _
    rw [ih]
    simp

lemma foldlM_swaps {swaps : List (Int × Int)} (hs : ∀ q ∈ swaps, OnWire n q.1 ∧ OnWire n q.2 ∧ q.1 ≠ q.2) (acc : List Gate)
    (hτ : ∀ w, ¬ OnWire n w → τ w = w) :
    ∃ τ' : Perm Int, (swaps.map fun q => Gate.swap q.1 q.2).foldlM splitStep (acc, tableOf n τ) = .ok (acc, tableOf n τ') ∧
      (∀ w, ¬ OnWire n w → τ' w = w) ∧ perm τ'.symm = perm τ.symm * courseOf (swaps.map fun q => Gate.swap q.1 q.2) := by
  induction swaps generalizing τ with
  | nil => exact ⟨τ, rfl, hτ, by simp⟩
  | cons q swaps ih =>
    obtain ⟨hc, ht, hct⟩ := hs q (by simp)
    have hfix : ∀ w, ¬ OnWire n w → (τ * swap q.1 q.2) w = w := fun w hw => by
      have h1 : w ≠ q.1 := fun e => hw (e ▸ hc)
      have h2 : w ≠ q.2 := fun e => hw (e ▸ ht)
      rw [Perm.mul_apply, swap_apply_of_ne_of_ne h1 h2, hτ w hw]
    obtain ⟨τ', e, hτ', hcourse⟩ := ih (forall_mem_cons.1 hs).2 hfix
    refine ⟨τ', ?_, hτ', ?_⟩
    · rw [map_cons, foldlM_cons]
      have step : splitStep (acc, tableOf n τ) (Gate.swap q.1 q.2) = .ok (acc, tableOf n (τ * swap q.1 q.2 : Perm Int)) := by
        simp only [splitStep, Gate.swap, find?_tableOf hc, find?_tableOf ht, orAbsent, bind, Except.bind, insert_tableOf hc,
          insert_tableOf ht, update_swap]
        rfl
      rw [step]
      exact e
    · rw [hcourse, map_cons, courseOf_cons, ← mul_assoc]
      rfl

/-- **The swaps left over are composed to a permutation.** -/
theorem splitLeftOver_gives {qubits : Int} {rest : List Gate} (ho : InOrder rest) (hr : ∀ g ∈ rest, g.IsLeftOver qubits.toNat) :
    Gives (splitLeftOver qubits rest) fun r => ∃ τ : Perm Int, (∀ w, ¬ OnWire qubits.toNat w → τ w = w) ∧
      r.2 = (tableOf qubits.toNat τ).map Prod.swap ∧ weightOf r.1 = 0 ∧ (∀ g ∈ r.1, g.isAncilla = false) ∧
      courseOf r.1 * perm τ.symm = courseOf rest := by
  obtain ⟨ws, swaps, rfl⟩ := ho
  have hs : ∀ q ∈ swaps, OnWire qubits.toNat q.1 ∧ OnWire qubits.toNat q.2 ∧ q.1 ≠ q.2 := fun q hq => by
    rcases hr (Gate.swap q.1 q.2) (mem_append_right _ (mem_map.2 ⟨q, hq, rfl⟩)) with ⟨t, e, -⟩ | ⟨a, b, e, h⟩
    · cases e
    · cases e
      exact h
  obtain ⟨τ, e, hτ, hc⟩ := foldlM_swaps hs (ws.map Gate.not) (τ := 1) fun _ _ => rfl
  have hid : Permutation.identity qubits.toNat = tableOf qubits.toNat (1 : Perm Int) := rfl
  have : splitLeftOver qubits (ws.map Gate.not ++ swaps.map fun q => Gate.swap q.1 q.2) =
      .ok (ws.map Gate.not, (tableOf qubits.toNat τ).map Prod.swap) := by
    rw [splitLeftOver_eq, foldlM_append, foldlM_nots, hid]
    show (foldlM splitStep (ws.map Gate.not, _) _ >>= _) = _
    rw [e]
    show Except.ok _ = _
    rw [foldl_insert_swap (values_tableOf ▸ nodup_wires.map τ.injective)]
    rfl
  rw [this]
  refine .ok ⟨τ, hτ, rfl, weightOf_map_eq_zero (fun _ => rfl) ws, by simp [Gate.not, Gate.isAncilla], ?_⟩
  rw [courseOf_append, hc, show perm (Equiv.symm (1 : Perm Int)) = 1 from rfl, one_mul]

lemma isLaid_of_check {g : Gate} (hp : g.IsPlain n) (h : check g = .ok ()) : g.IsLaid n ∧ (g.isZRotation → (g.phase * 4).den = 1) := by
  obtain ⟨op, i⟩ := g
  cases op with
  | had t => exact ⟨hp, fun hz => by cases hz⟩
  | pair k c t => exact ⟨hp, fun hz => by cases hz⟩
  | rotation k t p =>
    obtain ⟨ht, hk | ⟨rfl, -⟩⟩ := hp
    · refine ⟨⟨hk, ht⟩, fun _ => ?_⟩
      have hden : p.den = 1 ∨ p.den = 2 ∨ p.den = 4 := by
        by_contra hn
        rw [check] at h
        simp only [Gate.isAncilla, Gate.isLinked, Gate.isCz, Gate.isCnot, Gate.isHad, Gate.isZRotation, hk, Bool.or_self,
          Bool.false_eq_true, if_false, Bool.not_true] at h
        split at h
        · rename_i hd
          exact hn hd
        · cases h
      have hint : ∃ k : ℤ, p * 4 = k := by
        have hp := Rat.num_div_den p
        rcases hden with h | h | h <;> rw [h] at hp
        · exact ⟨p.num * 4, by conv_lhs => rw [← hp]
                               push_cast
                               ring⟩
        · exact ⟨p.num * 2, by conv_lhs => rw [← hp]
                               push_cast
                               ring⟩
        · exact ⟨p.num, by conv_lhs => rw [← hp]
                           ring⟩
      obtain ⟨k, hk⟩ := hint
      show (p * 4).den = 1
      rw [hk]
      exact Rat.den_intCast k
    · cases h
  | _ => exact hp.elim

end Blocks

namespace Circuit

variable {σ : Type} [Random.Source σ] {c : Circuit}

lemma gates_of_copy (c : Circuit) : Gives c.copy fun d => d.gates = c.gates := by
  have key : ∀ gs : List Gate, Gives (gs.mapM Gate.copy) fun hs => hs = gs := by
    intro gs
    induction gs with
    | nil => exact .pure rfl
    | cons g gs ih =>
      rw [mapM_cons]
      refine .bind (P := fun k => k = g) ?_ ?_
      · exact .ite (fun _ => .error _) fun _ => .ok rfl
      · rintro _ rfl
        exact ih.bind fun hs e => .pure (by rw [e])
  exact (key c.gates).bind fun gs e => .pure e

/-- What the blocks are reduced of: plain gates, and gates left over after them. -/
structure Prepared (c : Circuit) (r : Circuit × List Gate) : Prop where
  plain : ∀ g ∈ r.1.gates, g.IsPlain c.qubits.toNat
  inOrder : InOrder r.2
  leftOver : ∀ g ∈ r.2, g.IsLeftOver c.qubits.toNat
  course : courseOf r.1.gates * courseOf r.2 = courseOf c.gates
  weight : weightOf r.1.gates ≤ weightOf c.gates

lemma simplifyApart_prepared (hc : c.IsPlain) (verbose : Bool) : Run.Ends (c.simplifyApart passLimit verbose) (Prepared c) := by
  intro text r text' e
  have h := (simplifyApart_yields hc passLimit verbose).ends text r text' e
  exact ⟨fun g hg => (h.laid g hg).isPlain, inOrder_simplifyApart c passLimit verbose text r text' e, h.leftOver, h.course, h.weight⟩

/-- The blocks of prepared gates reduced, with what is left over put at the end. -/
def reducePrepared (c : Circuit) (verbose : Bool) (r : Circuit × List Gate) : RandomRun σ Circuit := do
  let (nots, perm) ← RandomRun.ofExcept (Blocks.splitLeftOver c.qubits r.2)
  let l ← RandomRun.ofExcept (Blocks.lanesOf c.qubits r.1.gates)
  let gates ← reduceLanes c.qubits verbose (l.load + 1) l [] [] []
  let swaps ← RandomRun.ofExcept (Permutation.swapsOf perm)
  let all := gates ++ nots ++ swaps.map fun (a, b) => Gate.swap a b
  return { qubits := c.qubits, gates := all.map fun g => { g with index := 0 } }

/-- What the reduction of blocks keeps: the wires, the course, and a bound on the T gates. -/
structure Reduced (c d : Circuit) : Prop where
  qubits : d.qubits = c.qubits
  course : courseOf d.gates = courseOf c.gates
  weight : weightOf d.gates ≤ weightOf c.gates
  unitary : ∀ g ∈ d.gates, g.isAncilla = false

lemma reducePrepared_ends {r : Circuit × List Gate} (hr : Prepared c r) (verbose : Bool) :
    Ends (c.reducePrepared verbose r : RandomRun σ Circuit) (Reduced c) := by
  refine (Ends.ofExcept (Blocks.splitLeftOver_gives hr.inOrder hr.leftOver)).bind fun split hsplit => ?_
  obtain ⟨nots, table⟩ := split
  obtain ⟨τ, hτ, htable, hnots, hna, hrest⟩ := hsplit
  have hlanes : Gives (lanesOf c.qubits r.1.gates) fun lanes => Dealt c.qubits.toNat lanes (numbered r.1.gates) ∧
      ∀ k ∈ numbered r.1.gates, k.isZRotation → (k.phase * 4).den = 1 := by
    intro lanes e
    have hcheck := check_of_lanesOf c.qubits r.1.gates lanes e
    have hlaid := fun g hg => Blocks.isLaid_of_check (hr.plain g hg) (hcheck g hg)
    refine ⟨lanesOf_gives (fun g hg => (hlaid g hg).1) rfl lanes e, fun k hk hz => ?_⟩
    obtain ⟨g, hg, i, rfl⟩ := mem_numbered hk
    exact (hlaid g hg).2 hz
  refine (Ends.ofExcept hlanes).bind fun lanes hl => ?_
  refine (reduceLanes_ends verbose _ hl.1 hl.2 (by simp) (by simp)).bind fun gates hgates => ?_
  refine (Ends.ofExcept (P := Permutation.MakeUp c.qubits.toNat τ.symm) ?_).bind fun swaps hswaps => ?_
  · rw [show table = _ from htable]
    exact Permutation.swapsOf_backwards hτ
  have light : weightOf (gates ++ nots ++ swaps.map fun q => Gate.swap q.1 q.2) ≤ weightOf c.gates := by
    have hw := hgates.2.1.trans (by rw [weightOf_numbered, weightOf_nil, zero_add, zero_add])
    rw [weightOf_append, weightOf_append, hnots, weightOf_map_eq_zero fun _ => rfl]
    exact hw.trans hr.weight
  refine Ends.pure ⟨rfl, ?_, (weightOf_map_le (f := fun g => { g with index := 0 }) (fun _ => le_rfl) _).trans light, fun g hg => ?_⟩
  rotate_left
  · obtain ⟨k, hk, rfl⟩ := mem_map.1 hg
    exact forall_mem_append.2 ⟨forall_mem_append.2 ⟨fun k hk => (hgates.2.2 k hk).resolve_left (by simp), hna⟩,
      forall_mem_map.2 fun _ _ => rfl⟩ k hk
  have hnum : ∀ gs : List Gate, courseOf (gs.map fun g => { g with index := 0 }) = courseOf gs := fun gs => by
    simp only [courseOf, map_map]
    rfl
  rw [hnum, courseOf_append, courseOf_append, hswaps.course, hgates.1, courseOf_numbered]
  simp only [courseOf_nil, one_mul]
  rw [mul_assoc, hrest]
  exact hr.course

lemma reduceBlocks_reduced (hc : c.IsPlain) (passes verbose : Bool) :
    Ends (c.reduceBlocks passes verbose : RandomRun σ Circuit) (Reduced c) := by
  refine Ends.ite (fun _ => ?_) fun _ => ?_
  · refine (Ends.lift (simplifyApart_prepared hc verbose)).bind fun r hr => ?_
    exact reducePrepared_ends hr verbose
  refine (Ends.ofExcept (gates_of_copy c)).bind fun d hd => ?_
  have hr : Prepared c (d, []) := ⟨fun g hg => hc g (hd ▸ hg), ⟨[], [], rfl⟩, by simp, by rw [hd, courseOf_nil, mul_one], by rw [hd]⟩
  exact reducePrepared_ends hr verbose

lemma reduceBlocks_ends (hc : c.IsPlain) (passes verbose : Bool) : Ends (c.reduceBlocks passes verbose : RandomRun σ Circuit) fun d =>
      d.qubits = c.qubits ∧ courseOf d.gates = courseOf c.gates :=
  (reduceBlocks_reduced hc passes verbose).mono fun _ h => ⟨h.qubits, h.course⟩

/-- **To reduce the blocks of a circuit keeps its matrix up to a factor other than zero**, with and without passes before and
    whatever numbers are drawn. -/
theorem reduceBlocks_unitary (c : Circuit) (passes verbose : Bool) (s : σ) (hc : c.IsPlain) (d : Circuit) (s' : σ)
    (h : ((c.reduceBlocks passes verbose : RandomRun σ Circuit) s).result = .ok (d, s')) :
    d.qubits = c.qubits ∧ ∃ k : ℂ, k ≠ 0 ∧ matrixOn c.qubits.toNat d.gates = k • c.unitary := by
  obtain ⟨hq, hd⟩ := (reduceBlocks_ends hc passes verbose s).result h
  exact ⟨hq, matrixOn_eq_smul hd.symm _⟩

theorem reduceBlocks_unitary_two_wires :
    (({ qubits := 2, gates := [.had 0, .t 0 false, .cnot 0 1, .t 1 false, .not 0] : Circuit }.reduceBlocks true false :
      RandomRun Random.Congruential Circuit) ⟨1⟩).result =
        .ok ({ qubits := 2, gates := [.had 0, .t 0 false, .cnot 1 0, .t 0 false, .cnot 1 0, .cnot 0 1, .not 0] }, ⟨1103527590⟩) ∧
      ∃ k : ℂ, k ≠ 0 ∧
        matrixOn 2 [.had 0, .t 0 false, .cnot 1 0, .t 0 false, .cnot 1 0, .cnot 0 1, .not 0] =
          k • ({ qubits := 2, gates := [.had 0, .t 0 false, .cnot 0 1, .t 1 false, .not 0] } : Circuit).unitary := by
  have run : (({ qubits := 2, gates := [.had 0, .t 0 false, .cnot 0 1, .t 1 false, .not 0] : Circuit }.reduceBlocks true false :
      RandomRun Random.Congruential Circuit) ⟨1⟩).result =
        .ok ({ qubits := 2, gates := [.had 0, .t 0 false, .cnot 1 0, .t 0 false, .cnot 1 0, .cnot 0 1, .not 0] }, ⟨1103527590⟩) := by
    cbv
  have h := reduceBlocks_unitary _ true false _ (by decide +kernel) _ _ run
  exact ⟨run, h.2⟩

/-! ## T gates -/

lemma weightOf_eq_countP {gs : List Gate} (h : ∀ g ∈ gs, g.IsPlain n) : weightOf gs = gs.countP fun g => 2 < g.phase.den := by
  induction gs with
  | nil => rfl
  | cons g gs ih =>
    have one : g.weight = if 2 < g.phase.den then 1 else 0 := by
      have hg := h g (by simp)
      obtain ⟨op, i⟩ := g
      cases op with
      | had | rotation | pair => rfl
      | _ => exact hg.elim
    rw [weightOf_cons, countP_cons, one, ih (forall_mem_cons.1 h).2, add_comm]
    simp

/-- **No optimisation makes more T gates.**  To simplify a circuit ends with at most as many phases of a denominator above two, and
    whenever the reduction of its blocks returns, the T-count is at most the one before. -/
theorem optimised_tCount_le (c : Circuit) (hc : c.IsPlain) (verbose : Bool) :
    (∃ d, (c.simplify verbose).result = .ok d ∧
      d.gates.countP (fun g => 2 < g.phase.den) ≤ c.gates.countP fun g => 2 < g.phase.den) ∧
    ∀ (passes : Bool) (s s' : σ) (d : Circuit), ((c.reduceBlocks passes verbose : RandomRun σ Circuit) s).result = .ok (d, s') →
      ∃ k j, d.tCount = .ok k ∧ c.tCount = .ok j ∧ k ≤ j := by
  refine ⟨?_, fun passes s s' d h => ?_⟩
  · obtain ⟨d, e, hd⟩ := (simplify_yields hc verbose).result
    refine ⟨d, e, ?_⟩
    rw [← weightOf_eq_countP hd.plain, ← weightOf_eq_countP hc]
    exact hd.weight
  · have hr := (reduceBlocks_reduced hc passes verbose s).result h
    have unitary : ∀ g ∈ c.gates, g.isAncilla = false := fun g hg => (hc g hg).isAncilla
    exact ⟨_, _, d.tCount_eq hr.unitary, c.tCount_eq unitary, hr.weight⟩

theorem optimised_tCount_le_two_wires :
    let c : Circuit := { qubits := 2, gates := [.t 0 false, .had 1, .t 0 false] }
    ∃ d, ((c.reduceBlocks true false : RandomRun Random.Congruential Circuit) ⟨1⟩).result = .ok (d, ⟨1⟩) ∧
      ∃ k j, d.tCount = .ok k ∧ c.tCount = .ok j ∧ k ≤ j := by
  intro c
  have run : ((c.reduceBlocks true false : RandomRun Random.Congruential Circuit) ⟨1⟩).result =
      .ok ({ qubits := 2, gates := [.s 0 false, .had 1] }, ⟨1⟩) := by cbv
  exact ⟨_, run, (optimised_tCount_le c (by decide +kernel) false).2 true _ _ _ run⟩

end Circuit

end ZXCircuits
