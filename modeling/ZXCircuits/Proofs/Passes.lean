/-
  Passes over a circuit keep its course.

  A forward pass takes a plain circuit apart into the gates laid down and those left over (`forward_spec`).  To put these
  back at the end, to turn the gates round and to repeat the passes keeps the circuit plain and its course the same.
-/
import ZXCircuits.Optimise.Passes
import ZXCircuits.Proofs.Lanes.Flatten
import ZXCircuits.Proofs.Pass.Feed
import ZXCircuits.Proofs.Pass.Weight

namespace ZXCircuits

open List Function Course LinearEquiv GateCounts PerWire Operation

variable {n : ℕ} {gs : List Gate} {c : Circuit}

/-! ## A forward pass -/

namespace Pass

variable {p : Pass} {l : List Gate} {σ : Equiv.Perm Int} {γ : Course}

lemma start_means (qubits : Int) (mergeSigns : Bool) : Means qubits.toNat (start qubits mergeSigns) 1 := by
  have none : Wires qubits.toNat [] := ⟨nodup_nil, by simp⟩
  refine ⟨[], 1, ⟨by simp [start, Lanes.empty], by simp [start, Lanes.empty], by simp [start], ?_⟩,
    ⟨none, none, none, rfl, fun _ _ => rfl⟩, by simp [marks, start, Course.hs, Course.zs, Course.xs]⟩
  simp only [start, (Shows.empty qubits).val]
  exact ⟨⟨by simp, by simp, by simp, by simp, by simp, by simp⟩, fun w => Open.nil w _ _⟩

lemma layHadamards_spec (ws : List Int) : ∀ {p : Pass} {l : List Gate}, Lays n p l → Carries n p σ → p.hadamards = ws →
    ∃ q m, ws.foldlM layHadamard p = .ok q ∧ Lays n q m ∧ Carries n q σ ∧ q.nots = p.nots ∧ q.zs = p.zs ∧
      courseOf m = courseOf l * Course.hs ws := by
  induction ws with
  | nil => exact fun {p l} h hm _ => ⟨p, l, rfl, h, hm, rfl, rfl, (mul_one _).symm⟩
  | cons t ws ih =>
    intro p l h hm e
    obtain ⟨p1, l1, e1, h1, hm1, eh1, en1, ez1, hc1⟩ := layHadamard_means h hm (t := t) (by simp [e])
    have eh : p1.hadamards = ws := by rw [eh1, e, erase_cons_head]
    obtain ⟨q, m, hq, hl, hm', en, ez, hc⟩ := ih h1 hm1 eh
    refine ⟨q, m, by rw [foldlM_cons, e1]; exact hq, hl, hm', en.trans en1, ez.trans ez1, ?_⟩
    rw [hc, ← eh, hc1, e, eh]

lemma layZs_spec (ws : List Int) : ∀ {p : Pass} {l : List Gate}, (∀ t ∈ ws, OnWire n t) → p.lanes.size = n →
    Sheet n p.count (val p.lanes) l →
    ∃ q m, ws.foldlM (fun p t => do let (z, p) := p.number (.z t); p.lay t z) p = .ok q ∧ q.lanes.size = n ∧
      Sheet n q.count (val q.lanes) m ∧ q.nots = p.nots ∧ q.permutation = p.permutation ∧
      courseOf m = courseOf l * Course.zs ws := by
  induction ws with
  | nil => exact fun {p l} _ hs h => ⟨p, l, rfl, hs, h, rfl, rfl, (mul_one _).symm⟩
  | cons t ws ih =>
    intro p l hw hs h
    have ht := hw t (by simp)
    set k : Gate := { Gate.z t with index := p.count } with hk
    obtain ⟨lanes, el, sl⟩ := Shows.pushOne (g := k) ⟨hs, rfl⟩ ht fun v => by simp [hk, Gate.z, Rotation.isZ]
    have h1 : Sheet n (p.count + 1) (val lanes) (l ++ [k]) :=
      sl.val ▸ h.push ⟨rfl, ht⟩ (fun g hg => (h.index_lt g hg).ne) (Nat.lt_succ_self _) (Nat.le_succ _)
    obtain ⟨q, m, hq, hs', h', en, ep, hc⟩ := ih (p := { p with lanes := lanes, count := p.count + 1 }) (forall_mem_cons.1 hw).2 sl.size h1
    refine ⟨q, m, ?_, hs', h', en, ep, ?_⟩
    · rw [foldlM_cons]
      simp only [number, lay, bind, Except.bind] at hq ⊢
      rw [← hk, el]
      exact hq
    · rw [hc, courseOf_append, mul_assoc]
      congr 1

lemma finish_spec (h : Means n p γ) :
    ∃ (q : Pass) (m : List Gate) (σ : Equiv.Perm Int), p.finish = .ok q ∧ q.lanes.size = n ∧ Sheet n q.count (val q.lanes) m ∧ Wires n q.nots ∧
      q.permutation = tableOf n σ ∧ (∀ w, ¬ OnWire n w → σ w = w) ∧ courseOf m * (Course.xs q.nots * perm σ) = γ := by
  obtain ⟨l, σ, hl, hm, rfl⟩ := h
  obtain ⟨p1, l1, e1, hl1, hm1, en1, ez1, hc1⟩ := layHadamards_spec p.hadamards hl hm rfl
  obtain ⟨q, m, hq, hs, h, en, ep, hc⟩ := layZs_spec p1.zs hm1.zs.onWire hl1.lanes_size hl1.laying.sheet
  refine ⟨q, m, σ, ?_, hs, h, en ▸ hm1.nots, ep ▸ hm1.table, hm.fixed, ?_⟩
  · simp only [finish, e1, bind, Except.bind]
    exact hq
  · rw [hc, hc1, en, en1, ez1, marks]
    simp [mul_assoc]

end Pass

/-- The gates that a pass may leave over: `NOT` gates and swaps. -/
def Gate.IsLeftOver (n : ℕ) (g : Gate) : Prop := (∃ t, g = .not t ∧ OnWire n t) ∨ ∃ a b, g = .swap a b ∧ OnWire n a ∧ OnWire n b ∧ a ≠ b

lemma Pass.leftOver_spec {p : Pass} {σ : Equiv.Perm Int} (hn : Wires n p.nots) (ht : p.permutation = tableOf n σ)
    (hσ : ∀ w, ¬ OnWire n w → σ w = w) :
    ∃ rest, p.leftOver = .ok rest ∧ (∀ g ∈ rest, g.IsLeftOver n) ∧ courseOf rest = Course.xs p.nots * perm σ := by
  obtain ⟨swaps, e, hs⟩ := Permutation.swapsOf_makeUp hσ (t := tableOf n σ) (by rw [keys_tableOf]) (forall_mem_map.2 fun _ _ => rfl)
  refine ⟨p.nots.map Gate.not ++ swaps.map fun q => Gate.swap q.1 q.2, ?_, fun g hg => ?_, ?_⟩
  · simp only [leftOver, ht, e, bind, Except.bind]
    rfl
  · rcases mem_append.1 hg with hg | hg
    · obtain ⟨t, ht, rfl⟩ := mem_map.1 hg
      exact .inl ⟨t, rfl, hn.onWire t ht⟩
    · obtain ⟨q, hq, rfl⟩ := mem_map.1 hg
      exact .inr ⟨q.1, q.2, rfl, hs.onWire q hq⟩
  · rw [courseOf_append, hs.course]
    simp only [courseOf, Course.xs, along, map_map]
    rfl

/-- A circuit of plain gates on its own wires. -/
def Circuit.IsPlain (c : Circuit) : Prop := ∀ g ∈ c.gates, g.IsPlain c.qubits.toNat

instance OnWire.decidable (n : ℕ) (w : Int) : Decidable (OnWire n w) := inferInstanceAs (Decidable (0 ≤ w ∧ w < n))

instance Gate.decidableIsPlain (n : ℕ) : (g : Gate) → Decidable (g.IsPlain n)
  | ⟨.had t, _⟩ => inferInstanceAs (Decidable (OnWire n t))
  | ⟨.rotation k t p, _⟩ => inferInstanceAs (Decidable (OnWire n t ∧ (k.isZ = true ∨ k = .not ∧ Rat.modTwo p = 1)))
  | ⟨.pair k c t, _⟩ => inferInstanceAs (Decidable ((k = .cnot ∨ k = .cz) ∧ OnWire n c ∧ OnWire n t ∧ c ≠ t))
  | ⟨.triple _ _ _ _, _⟩ | ⟨.parity _ _, _⟩ | ⟨.initAncilla _, _⟩ | ⟨.postSelect _, _⟩ => inferInstanceAs (Decidable False)

instance Circuit.decidableIsPlain (c : Circuit) : Decidable c.IsPlain :=
  inferInstanceAs (Decidable (∀ g ∈ c.gates, g.IsPlain c.qubits.toNat))

/-- A circuit taken apart: gates that are laid down, and gates left over. -/
structure Apart (c : Circuit) (r : Circuit × List Gate) : Prop where
  qubits : r.1.qubits = c.qubits
  laid : ∀ g ∈ r.1.gates, g.IsLaid c.qubits.toNat
  leftOver : ∀ g ∈ r.2, g.IsLeftOver c.qubits.toNat
  course : courseOf r.1.gates * courseOf r.2 = courseOf c.gates
  weight : weightOf r.1.gates ≤ weightOf c.gates

lemma Apart.renumber {r : Circuit × List Gate} (h : Apart c r) :
    Apart c ({ r.1 with gates := r.1.gates.map fun g => { g with index := 0 } }, r.2) := by
  refine ⟨h.qubits, fun g hg => ?_, h.leftOver, ?_, ?_⟩
  · obtain ⟨k, hk, rfl⟩ := mem_map.1 hg
    exact h.laid k hk
  · rw [← h.course]
    simp only [courseOf, map_map]
    rfl
  · exact (weightOf_map_le (f := fun g => { g with index := 0 }) (fun _ => le_rfl) _).trans h.weight

lemma forward_spec (hc : c.IsPlain) (mergeSigns : Bool) : ∃ r, forward c mergeSigns = .ok r ∧ Apart c r := by
  obtain ⟨p, hp, hm⟩ := foldlM_courseOf (fun g hg _ _ h => Pass.feed_spec h (hc g hg)) (Pass.start_means c.qubits mergeSigns)
  obtain ⟨q, m, σ, hq, hs, h, hn, ht, hσ, hmc⟩ := Pass.finish_spec hm
  obtain ⟨gs, hgs, hgc, hp'⟩ := Lanes.flatten_spec hs h
  obtain ⟨rest, hr, hlo, hrc⟩ := Pass.leftOver_spec hn ht hσ
  refine ⟨({ qubits := c.qubits, gates := gs }, rest), ?_, rfl, fun g hg => h.laid g (hp'.mem_iff.1 hg), hlo, ?_, ?_⟩
  · simp only [forward, hp, hq, hgs, hr, bind, Except.bind]
    rfl
  · rw [courseOf_eq_of_motionOf hgc, hrc, hmc, one_mul]
  · have fed := Gives.foldlM_weight (fun _ => Pass.feed_under le_rfl) c.gates _ p hp
    rw [Pass.weight_start, zero_add] at fed
    exact (weightOf_le_of_subperm (hp'.subperm.trans (Lanes.subperm_lanes hs h))).trans (Pass.finish_under fed q hq)

/-! ## Plain circuits with one course -/

lemma conj_diag_mul {f : Register → ℂˣ} (hf : ∀ x, (starRingEnd ℂ) (f x : ℂ) * f x = 1) : Motion.conj (diag f) * diag f = 1 := by
  refine ext fun ψ => funext fun x => ?_
  simp only [LinearEquiv.mul_apply, Motion.conj_apply, Pi.star_apply, diag_apply, star_mul', star_star]
  rw [RCLike.star_def, ← mul_assoc, hf, one_mul]
  rfl

lemma conj_factor_mul (p : ℚ) (b : Bool) : (starRingEnd ℂ) (factor p b : ℂ) * factor p b = 1 := by
  cases b with
  | false => simp
  | true => rw [factor_true, conj_turn, ← turn_add, neg_add_cancel, turn_zero]

lemma conj_had (t : Int) : Motion.conj (had t) = had t := by
  refine ext fun ψ => funext fun x => ?_
  have hs : star (sign (x t)) = sign (x t) := by cases x t <;> simp
  simp [mix, hs]

lemma had_mul_had (t : Int) : had t * had t = 1 := ext fun ψ => mix_mix t ψ

namespace Gate

variable {g : Gate}

lemma IsLaid.isPlain (h : g.IsLaid n) : g.IsPlain n := by
  obtain ⟨op, i⟩ := g
  cases op with
  | had t => exact h
  | rotation k t p => exact ⟨h.2, .inl h.1⟩
  | pair k c t => exact h
  | _ => exact h.elim

lemma IsPlain.isAncilla (h : g.IsPlain n) : g.isAncilla = false := by
  obtain ⟨op, i⟩ := g
  cases op with
  | initAncilla | postSelect => exact h.elim
  | _ => rfl

lemma IsLeftOver.weight (h : g.IsLeftOver n) : g.weight = 0 := by rcases h with ⟨t, rfl, -⟩ | ⟨a, b, rfl, -⟩ <;> rfl

lemma IsLeftOver.expand (h : g.IsLeftOver n) :
    ∃ gs, g.expand = .ok gs ∧ (∀ k ∈ gs, k.IsPlain n) ∧ courseOf gs = Course.of g.op.motion := by
  rcases h with ⟨t, rfl, ht⟩ | ⟨a, b, rfl, ha, hb, hab⟩
  · exact ⟨[Gate.not t], rfl, forall_mem_singleton.2 ⟨ht, .inr ⟨rfl, by decide +kernel⟩⟩, by simp⟩
  refine ⟨[cnot a b, cnot b a, cnot a b], rfl, ?_, ?_⟩
  · simp [cnot, IsPlain, ha, hb, hab, hab.symm]
  rw [show Course.of (swap a b).op.motion = perm (Equiv.swap a b) from rfl, ← cnot_mul_cnot_mul_cnot hab, courseOf_cons,
    courseOf_cons, courseOf_cons, courseOf_nil, mul_one]
  rfl

lemma IsPlain.isSymmetric (h : g.IsPlain n) : g.op.IsSymmetric := by
  have hz : ∀ t p, Motion.conj (zTurn t p) * zTurn t p = 1 := fun t p => conj_diag_mul fun x => conj_factor_mul p (x t)
  obtain ⟨op, i⟩ := g
  cases op with
  | had t => rw [IsSymmetric, show (Operation.had t).motion = ZXCircuits.had t from rfl, conj_had, had_mul_had]
  | rotation k t p =>
    simp only [IsSymmetric, motion]
    split
    · exact hz t p
    rw [xTurn, Motion.conj_mul, Motion.conj_mul, conj_had]
    calc ZXCircuits.had t * Motion.conj (zTurn t p) * ZXCircuits.had t * (ZXCircuits.had t * zTurn t p * ZXCircuits.had t)
        = ZXCircuits.had t * (Motion.conj (zTurn t p) * (ZXCircuits.had t * ZXCircuits.had t) * zTurn t p) *
            ZXCircuits.had t := by simp [mul_assoc]
      _ = 1 := by rw [had_mul_had, mul_one, hz, mul_one, had_mul_had]
  | pair k c t =>
    rcases h.1 with rfl | rfl
    · refine ext fun ψ => funext fun x => ?_
      have : flipWhen t (fun y => y c) (flipWhen t (fun y => y c) x) = x := by simp
      simp only [motion, cFlip, LinearEquiv.mul_apply, Motion.conj_apply, Pi.star_apply, relabel_apply, star_star, this]
      rfl
    · exact conj_diag_mul fun x => conj_factor_mul 1 (x c && x t)
  | _ => exact h.elim

end Gate

/-- A plain circuit on the same wires with the same course and no more T gates. -/
structure Circuit.SameCourse (c d : Circuit) : Prop where
  qubits : d.qubits = c.qubits
  plain : d.IsPlain
  course : courseOf d.gates = courseOf c.gates
  weight : weightOf d.gates ≤ weightOf c.gates

namespace Circuit

variable {c d e : Circuit} {r : Circuit × List Gate}

lemma SameCourse.backwards (h : SameCourse c d) (hc : c.IsPlain) : SameCourse c.backwards d.backwards :=
  ⟨h.qubits, fun g hg => h.plain g (mem_reverse.1 hg), courseOf_reverse_eq (fun g hg => (h.plain g hg).isSymmetric)
    (fun g hg => (hc g hg).isSymmetric) h.course, by simpa [Circuit.backwards] using h.weight⟩

lemma SameCourse.apart (h : SameCourse c d) (hr : Apart d r) : Apart c r :=
  ⟨hr.qubits.trans h.qubits, h.qubits ▸ hr.laid, h.qubits ▸ hr.leftOver, hr.course.trans h.course, hr.weight.trans h.weight⟩

lemma withLeftOver_spec (h : Apart c r) : ∃ d, r.1.withLeftOver r.2 = .ok d ∧ SameCourse c d := by
  obtain ⟨d, rest⟩ := r
  have expand : ∀ gs : List Gate, (∀ g ∈ gs, g.IsLeftOver c.qubits.toNat) →
      ∃ hs, gs.mapM Gate.expand = .ok hs ∧ (∀ k ∈ hs.flatten, k.IsPlain c.qubits.toNat) ∧ courseOf hs.flatten = courseOf gs ∧
        weightOf hs.flatten = 0 := by
    intro gs hg
    induction gs with
    | nil => exact ⟨[], rfl, by simp, rfl, rfl⟩
    | cons g gs ih =>
      obtain ⟨ks, ek, hk, ck⟩ := (hg g (by simp)).expand
      obtain ⟨hs, eh, hh, ch, wh⟩ := ih (forall_mem_cons.1 hg).2
      refine ⟨ks :: hs, by rw [mapM_cons, ek, eh]; rfl, fun k hkm => ?_, ?_, ?_⟩
      · exact (mem_append.1 hkm).elim (hk k) (hh k)
      · rw [flatten_cons, courseOf_append, courseOf_cons, ck, ch]
      · rw [flatten_cons, weightOf_append, Gate.expand_weight ek, (hg g (by simp)).weight, wh]
  obtain ⟨hs, eh, hh, ch, wh⟩ := expand rest h.leftOver
  have hq : d.qubits = c.qubits := h.qubits
  refine ⟨{ d with gates := d.gates ++ hs.flatten }, by rw [withLeftOver, eh]; rfl, hq, fun g hg => ?_, ?_, ?_⟩
  · rw [hq]
    exact (mem_append.1 hg).elim (fun hg => (h.laid g hg).isPlain) (hh g)
  · rw [courseOf_append, ch]
    exact h.course
  · rw [weightOf_append, wh]
    exact h.weight

/-- **A backward pass and a forward pass take a plain circuit apart.** -/
theorem backAndForth_spec (hc : c.IsPlain) (mergeSigns : Bool) : ∃ r, c.backAndForth mergeSigns = .ok r ∧ Apart c r := by
  have hb : c.backwards.IsPlain := fun g hg => hc g (mem_reverse.1 hg)
  obtain ⟨r1, e1, h1⟩ := forward_spec hb mergeSigns
  obtain ⟨d, ed, hd⟩ := withLeftOver_spec h1
  have back := hd.backwards hb
  obtain ⟨r, er, hr⟩ := forward_spec back.plain mergeSigns
  have twice : c.backwards.backwards = c := by simp [Circuit.backwards]
  refine ⟨r, ?_, twice ▸ back.apart hr⟩
  simp only [backAndForth, e1, ed, bind, Except.bind]
  exact er

end Circuit

/-! ## Repeated passes -/

lemma GateCounts.ofGates_eq (h : ∀ g ∈ gs, g.IsLaid n) : ∃ k, ofGates gs = .ok k := by
  have step : ∀ k : GateCounts, ∀ g ∈ gs, Makes (k.add g) fun _ => True := by
    intro k g hm
    have hg := h g hm
    obtain ⟨op, i⟩ := g
    cases op with
    | had t => exact .ok trivial
    | rotation k t p => cases k <;> exact .ok trivial
    | pair k c t => rcases hg.1 with rfl | rfl <;> exact .ok trivial
    | _ => exact hg.elim
  obtain ⟨k, e, -⟩ := Makes.foldlM (I := fun _ _ => True) (d := []) (s := ({} : GateCounts)) (fun _ k g hg _ => step k g hg) trivial
  exact ⟨k, e⟩

namespace Circuit

variable {c d : Circuit}

/-- **Repeated passes take a plain circuit apart.**  By induction on the number of passes allowed. -/
theorem repeatPasses_yields (verbose : Bool) (fuel : ℕ) : ∀ (done : ℕ) (counts : GateCounts) {d : Circuit}, SameCourse c d →
    Run.Yields (repeatPasses verbose fuel done counts d) (Apart c) := by
  induction fuel with
  | zero =>
    intro done counts d h
    obtain ⟨r, e, hr⟩ := backAndForth_spec h.plain (decide (0 < done))
    obtain ⟨k, ek⟩ := ofGates_eq hr.laid
    refine .bind (.lift e rfl) fun _ er => er ▸ .bind (.lift ek rfl) fun _ _ => ?_
    exact .pure (h.apart hr)
  | succ fuel ih =>
    intro done counts d h
    obtain ⟨r, e, hr⟩ := backAndForth_spec h.plain (decide (0 < done))
    obtain ⟨k, ek⟩ := ofGates_eq hr.laid
    obtain ⟨d', ed, hd⟩ := withLeftOver_spec (h.apart hr)
    rw [repeatPasses]
    refine .bind (.lift e rfl) fun _ er => er ▸ .bind (.lift ek rfl) fun _ _ => ?_
    dsimp only
    split
    · exact .pure (h.apart hr)
    refine .bind (.lift ed rfl) fun _ ed' => ?_
    subst ed'
    exact .bind (.sayIf _ _) fun _ _ => ih _ _ hd

lemma simplifyApart_yields (hc : c.IsPlain) (limit : Int) (verbose : Bool) : Run.Yields (c.simplifyApart limit verbose) (Apart c) := by
  obtain ⟨r, e, hr⟩ := forward_spec hc false
  obtain ⟨k, ek⟩ := ofGates_eq hr.laid
  obtain ⟨d, ed, hd⟩ := withLeftOver_spec hr
  refine .bind (.lift e rfl) fun _ er => er ▸ .bind (.lift ek rfl) fun _ _ => ?_
  refine .bind (.lift ed rfl) fun _ ed' => ed' ▸ ?_
  exact .bind (repeatPasses_yields verbose _ 0 _ hd) fun _ hr => .pure hr.renumber

lemma simplify_yields (hc : c.IsPlain) (verbose : Bool) : Run.Yields (c.simplify verbose) (SameCourse c) := by
  refine .bind (simplifyApart_yields hc passLimit verbose) fun r hr => ?_
  obtain ⟨d, ed, hd⟩ := withLeftOver_spec hr
  exact .lift ed hd

/-- **To simplify a circuit of plain gates ends with a circuit of plain gates on the same wires**, which has the same matrix
    up to a factor other than zero. -/
theorem simplify_unitary (c : Circuit) (verbose : Bool) (hc : c.IsPlain) :
    ∃ d, (c.simplify verbose).result = .ok d ∧ d.qubits = c.qubits ∧ d.IsPlain ∧
      ∃ s : ℂ, s ≠ 0 ∧ matrixOn c.qubits.toNat d.gates = s • c.unitary := by
  obtain ⟨d, e, hd⟩ := (simplify_yields hc verbose).result
  exact ⟨d, e, hd.qubits, hd.plain, matrixOn_eq_smul hd.course.symm _⟩

theorem simplify_unitary_opposite_nots :
    let c : Circuit :=
      { qubits := 3
        gates := [.had 0, .cnot 0 1, .cnot 1 0, .zPhase 1 (1 / 3), .had 1, .cz 2 1, .not 2, .s 1 false, .had 1, .cnot 0 2] }
    ∃ d, (c.simplify false).result = .ok d ∧ d.qubits = 3 ∧ d.IsPlain ∧
      ∃ s : ℂ, s ≠ 0 ∧ matrixOn 3 d.gates = s • c.unitary :=
  simplify_unitary _ false (by decide +kernel)

end Circuit

end ZXCircuits
