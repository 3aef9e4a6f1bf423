/-
  What drawn diagrams mean.

  A node hangs on the end of its wire, and may be joined to the end of another one.  So bits at the ends of the wires have the amplitudes
  that the gates read off the nodes give them, up to a scalar (`Node.Traced`).
-/
import ZXCircuits.Proofs.Layout.Nodes
import ZXCircuits.Proofs.Diagram.Effect

namespace ZXCircuits

open List Diagram Table Circuit Course ZXCircuits.Rat Function

/-! ## Gates of phases -/

namespace Circuit

open Course

variable {n : ℕ} {isZ split : Bool} {l : ℤ} {p : ℚ} {g : Gate}

lemma mem_phaseGates (hg : g ∈ phaseGates isZ split l p) : ∃ k q, g.op = .rotation k l q := by
  unfold phaseGates at hg
  split_ifs at hg <;> simp only [mem_cons, not_mem_nil, or_false] at hg
  all_goals rcases hg with rfl | rfl <;> exact ⟨_, _, rfl⟩

lemma phaseGates_zero (isZ split : Bool) (l : ℤ) : phaseGates isZ split l 0 = [] := by
  cases isZ <;> rfl

lemma courseOf_rotation (k : Rotation) (q : ℚ) (i : ℕ) : courseOf [⟨.rotation k l q, i⟩] = if k.isZ then z l q else of (xTurn l q) := by
  exact apply_ite of _ _ _

lemma z_add_even (l : ℤ) (p : ℚ) (k : ℤ) : z l (p + 2 * k) = z l p := by
  have full : z l (2 * k) = 1 := by
    have hk : modTwo (2 * k) = 0 := by
      rw [Rat.modTwo_eq, mul_div_cancel_left₀ _ two_ne_zero, Rat.floor_intCast]
      push_cast
      ring
    rw [← z_modTwo, hk, z_zero]
  rw [← z_mul_z, full, mul_one]

lemma odd_num {d : ℕ} (hd : p.den = d) (he : 2 ∣ d) : p.num % 2 = 1 := by
  by_contra h
  have hn : 2 ∣ p.num.natAbs := by omega
  have := Nat.dvd_gcd hn (hd ▸ he)
  rw [p.reduced] at this
  omega

lemma z_eq_of_num {d : ℕ} {m : ℤ} (hd : p.den = d) (h : (2 * d : ℤ) ∣ p.num - m) : z l p = z l (m / d) := by
  obtain ⟨k, hk⟩ := h
  have h0 : (d : ℚ) ≠ 0 := by rw [← hd]; exact_mod_cast p.den_pos.ne'
  have hp : p = m / d + 2 * k := by
    rw [← Rat.num_div_den p, hd, show p.num = m + 2 * d * k by omega]
    push_cast
    field_simp
  rw [hp, z_add_even]

lemma courseOf_named {k : Rotation} {i : ℕ} (hk : k.isZ) : courseOf [⟨.rotation k l p, i⟩] = z l p := by
  rw [courseOf_rotation, if_pos hk]

/-- **A split rotation about the Z axis turns by its phase.** -/
theorem courseOf_splitZ (l : ℤ) (p : ℚ) : courseOf (splitZ l p) = z l p := by
  have tGate : ∀ a, courseOf [Gate.t l a] = z l (if a then -1 / 4 else 1 / 4) := fun a => courseOf_named rfl
  have zGate : courseOf [Gate.z l] = z l 1 := courseOf_named rfl
  simp only [splitZ]
  split_ifs with h2 h4 h3 h5
  · have odd := odd_num h2 (by decide)
    rw [Gate.s, courseOf_named rfl]
    by_cases hn : p.num % 4 = 1
    · simp [hn, z_eq_of_num h2 (m := 1) (by omega)]
    · simp [hn, z_eq_of_num h2 (m := -1) (by omega)]
  · rw [← singleton_append, courseOf_append, zGate, tGate, z_mul_z, z_eq_of_num h4 (m := 3) (by omega)]
    norm_num
  · rw [← singleton_append, courseOf_append, zGate, tGate, z_mul_z, z_eq_of_num h4 (m := 5) (by omega)]
    norm_num
  · have odd := odd_num h4 (by decide)
    by_cases hn : p.num % 8 = 1
    · simp [hn, tGate, z_eq_of_num h4 (m := 1) (by omega)]
    · simp [hn, tGate, z_eq_of_num h4 (m := -1) (by omega)]
  · exact courseOf_named rfl

lemma phaseGates_eq_splitZ (h0 : 0 ≤ p) (h2 : p < 2) (hd : p.den = 2 ∨ p.den = 4) : phaseGates true true l p = splitZ l p := by
  have hlt : p.num < 2 * p.den := by
    have hpos : (0 : ℚ) < p.den := by exact_mod_cast p.den_pos
    rw [← Rat.num_div_den p, div_lt_iff₀ hpos] at h2
    exact_mod_cast h2
  have hnum := Rat.num_nonneg.2 h0
  rcases hd with hd | hd <;> have odd := odd_num hd (by decide) <;> rw [hd] at hlt
  · obtain hn | hn : p.num = 1 ∨ p.num = 3 := by omega
    all_goals simp [phaseGates, splitZ, hd, hn]
  · obtain hn | hn | hn | hn : p.num = 1 ∨ p.num = 3 ∨ p.num = 5 ∨ p.num = 7 := by omega
    all_goals simp [phaseGates, splitZ, hd, hn]

lemma courseOf_phaseGates_z (split : Bool) (l : ℤ) (h0 : 0 ≤ p) (h2 : p < 2) : courseOf (phaseGates true split l p) = z l p := by
  by_cases hp : p = 0
  · rw [hp, phaseGates_zero, z_zero, courseOf_nil]
  by_cases hd : split = true ∧ (p.den = 2 ∨ p.den = 4)
  · obtain ⟨rfl, hd⟩ := hd
    rw [phaseGates_eq_splitZ h0 h2 hd, courseOf_splitZ]
  cases split with
  | false =>
    simp only [phaseGates, hp, ne_eq, not_false_eq_true, Bool.not_false]
    exact courseOf_named rfl
  | true =>
    simp only [true_and, not_or] at hd
    simp only [phaseGates, hp, hd.1, hd.2, ne_eq, not_false_eq_true, Bool.not_true, Bool.false_eq_true, and_false, Bool.true_and,
      beq_iff_eq, if_false]
    split_ifs with hone
    · rw [hone]
      exact courseOf_named rfl
    · exact courseOf_named rfl

lemma courseOf_phaseGates_x (split : Bool) (l : ℤ) (p : ℚ) : courseOf (phaseGates false split l p) = of (xTurn l p) := by
  simp only [phaseGates, Bool.false_and, Bool.false_eq_true, if_false]
  split_ifs with hs hone hzero
  · exact courseOf_rotation _ _ _
  · rw [hone]
    exact courseOf_rotation _ _ _
  · exact courseOf_rotation _ _ _
  · rw [not_not.1 hzero]
    exact (by rw [z_zero, one_mul, h_mul_h] : (1 : Course) = h l * (z l 0 * h l))

end Circuit

/-! ## Gates of nodes -/

namespace Node

variable {n : ℕ} {split : Bool} {ns : List Node} {x y : Node} {l c t row : ℤ} {k k' : VertexKind} {p : ℚ} {ek e : EdgeKind} {g : Gate}
  {ends : ℤ → ℕ} {free : ℤ → ℤ} {u : ℕ}

lemma hadOf_fits (hl : OnWire n l) (hg : g ∈ hadOf ek l) : g.Fits n ∧ g.wires ⊆ {l} := by
  unfold hadOf at hg
  split at hg
  · rw [mem_singleton.1 hg]
    exact ⟨hl, subset_rfl⟩
  · cases hg

lemma phaseGates_fits {isZ : Bool} (hl : OnWire n l) (hg : g ∈ Circuit.phaseGates isZ split l p) : g.Fits n ∧ g.wires ⊆ {l} := by
  obtain ⟨k, q, hop⟩ := Circuit.mem_phaseGates hg
  rw [Gate.Fits, Gate.wires, hop]
  exact ⟨hl, subset_rfl⟩

lemma cx_comm (c t : ℤ) : of (Operation.pair .cx c t).motion = of (Operation.pair .cx t c).motion := by
  have turns : ∀ c t, of (Operation.pair .cx c t).motion = Course.h t * Course.h c * (Course.cz c t * (Course.h t * Course.h c)) := by
    intro c t
    rfl
  rw [turns, turns, cz_comm, (commute_h_h c t).eq]

lemma courseOf_turn (split : Bool) (l : ℤ) (hk : k = .z ∨ k = .x) (h0 : 0 ≤ p) (h2 : p < 2) :
    courseOf (phaseGates (k = .z) split l p) = of (spun k l p) := by
  rcases hk with rfl | rfl
  · exact courseOf_phaseGates_z split l h0 h2
  · exact courseOf_phaseGates_x split l p

/-- **An edge between the ends of two wires** is a gate. -/
theorem paired_vertical (hct : c ≠ t) (hk : k = .z ∨ k = .x) (hk' : k' = .z ∨ k' = .x) (hv : verticalGate k k' e c t = .ok g) :
    ∃ M : Motion, of M = of g.op.motion ∧ ∀ ψ y, paired c t k k' e ψ y = (√2 : ℂ)⁻¹ * M ψ y := by
  rcases hk with rfl | rfl <;> rcases hk' with rfl | rfl <;> cases e <;> cases hv
  · exact ⟨_, cz_comm c t, paired_cz⟩
  · exact ⟨_, rfl, paired_cnot hct⟩
  · exact ⟨_, rfl, paired_notc hct⟩
  · exact ⟨_, cx_comm c t, paired_cx hct⟩

lemma vertical_fits (hc : OnWire n c) (ht : OnWire n t) (hct : c ≠ t) (hv : verticalGate k k' e c t = .ok g) :
    g.Fits n ∧ g.wires ⊆ {c, t} := by
  unfold verticalGate at hv
  split_ifs at hv <;> cases hv
  · exact ⟨⟨ht, hc, hct.symm⟩, (Set.pair_comm t c).subset⟩
  · exact ⟨⟨ht, hc, hct.symm⟩, (Set.pair_comm t c).subset⟩
  · exact ⟨⟨hc, ht, hct⟩, subset_rfl⟩
  · exact ⟨⟨ht, hc, hct.symm⟩, (Set.pair_comm t c).subset⟩

/-! ## Bits at inputs and ends -/

/-- Bits at the first vertices and at the ends of the wires. -/
def threads (n : ℕ) (ends : ℤ → ℕ) (x y : Register) : List (Vertex × Bool) :=
  (range n).map (fun i : ℕ => (i, x i)) ++ ((range n).map Int.ofNat).map fun l => (ends l, y l)

def others (n : ℕ) (ends : ℤ → ℕ) (l : ℤ) (x y : Register) : List (Vertex × Bool) :=
  (range n).map (fun i : ℕ => (i, x i)) ++ (((range n).map Int.ofNat).erase l).map fun l => (ends l, y l)

lemma threads_perm (ends : ℤ → ℕ) (hl : OnWire n l) (x y : Register) : (threads n ends x y).Perm ((ends l, y l) :: others n ends l x y) :=
  (((perm_cons_erase (mem_wires.2 hl)).map _).append_left _).trans perm_middle

lemma others_update (ends : ℤ → ℕ) (v : ℕ) (b : Bool) (x y : Register) : others n (update ends l v) l x (update y l b) = others n ends l x y := by
  refine congrArg (_ ++ ·) (map_congr_left fun i hi => ?_)
  have hne : i ≠ l := (nodup_wires.mem_erase_iff.1 hi).1
  rw [update_of_ne hne, update_of_ne hne]

lemma threads_update (hl : OnWire n l) (x y : Register) (b : Bool) :
    (threads n ends x (update y l b)).Perm ((ends l, b) :: others n ends l x y) := by
  have h := threads_perm ends hl x (update y l b)
  have e := others_update (n := n) (l := l) ends (ends l) b x y
  rw [update_eq_self] at e
  rwa [update_self, e] at h

lemma lt_of_mem_threads {m : ℕ} (hn : n ≤ m) (he : ∀ l, OnWire n l → ends l < m) {x y : Register} {q : Vertex × Bool}
    (hq : q ∈ threads n ends x y) : q.1 < m := by
  rcases mem_append.1 hq with hq | hq
  · obtain ⟨i, hi, rfl⟩ := mem_map.1 hq
    exact (mem_range.1 hi).trans_le hn
  · obtain ⟨l, hl, rfl⟩ := mem_map.1 hq
    exact he l (mem_wires.1 hl)

/-- The state of given bits at the inputs. -/
noncomputable def atInputs (n : ℕ) (x : Register) : State := fun y => if y.restrict n = x.restrict n then 1 else 0

/-- The nodes are drawn up to the ends of the wires, and bits there have the amplitudes that the gates of the nodes give them. -/
structure Traced (n : ℕ) (ns : List Node) (ends : ℤ → ℕ) : Prop where
  inputs : n ≤ ns.length
  lt : ∀ l, OnWire n l → ends l < ns.length
  amplitude : ∃ (g : Diagram) (M : Motion) (r : ℂ), g.Shows ns ∧ r ≠ 0 ∧ of M = courseOf (ns.flatMap Node.gates) ∧
    ∀ x y, g.amplitude (threads n ends x y) = r * M (atInputs n x) y

/-- **One more node on the end of its wire.** -/
theorem Traced.hang (h : Traced n ns ends) (hl : OnWire n x.wire) (hb : x.back = some (ends x.wire, e)) (hs : x.side = none)
    (hp : modTwo x.phase = x.phase) (h0 : 0 ≤ x.row)
    (hg : courseOf x.gates = courseOf (hadOf e x.wire) * of (spun x.kind x.wire x.phase)) :
    Traced n (ns ++ [x]) (update ends x.wire ns.length) := by
  obtain ⟨g, M, r, hsh, hr, hM, ha⟩ := h.amplitude
  have hs1 := hsh.addVertex (q := x.wire) (r := x.row) x.kind (by have := hl.1; omega) (by omega) (.ratio x.phase) []
  obtain ⟨-, grown⟩ := addVertex_spec g x.kind (.int x.wire) (.int x.row) (.ratio x.phase)
  obtain ⟨d, ed, hd, -⟩ := hs1.addEdge (y := x) (h.lt _ hl) rfl (by rw [edges, hb, hs]; rfl) ⟨rfl, hp.symm, rfl, rfl⟩
  have hung := grown.hang hsh.coherent ((hsh.vertex _).2 (h.lt _ hl)) (by rw [hsh.next]; exact ed)
  have had : of (if e = .hadamard then had x.wire else 1) = courseOf (hadOf e x.wire) := by
    unfold hadOf
    split
    · rfl
    · rfl
  refine ⟨by rw [length_append]; exact h.inputs.trans (Nat.le_add_right _ _), fun l hl' => ?_,
    d, spun x.kind x.wire x.phase * (if e = .hadamard then ZXCircuits.had x.wire else 1) * M, r, hd, hr, ?_, fun a y => ?_⟩
  · rw [length_append, update_apply]
    split
    · exact Nat.lt_succ_self _
    · exact (h.lt l hl').trans (Nat.lt_succ_self _)
  · rw [Course.of_mul, Course.of_mul, had, hM, flatMap_append, courseOf_append, flatMap_singleton, hg]
  · have after := threads_perm (update ends x.wire ns.length) hl a y
    have e' := others_update (n := n) (l := x.wire) ends ns.length (y x.wire) a y
    rw [update_eq_self] at e'
    rw [update_self, e'] at after
    have held : ∀ q ∈ others n ends x.wire a y, g.has q.1 := fun q hq =>
      (hsh.vertex _).2 (lt_of_mem_threads h.inputs h.lt ((threads_perm ends hl a y).symm.subset (mem_cons_of_mem _ hq)))
    rw [amplitude_perm after, ← hsh.next]
    refine (hung [y x.wire] held).trans ?_
    rw [LinearEquiv.mul_apply, show (Exact.ratio x.phase).toRat = x.phase from rfl]
    have sum := sum_wire_fan (t := x.wire) x.kind x.phase e (M (atInputs n a)) y
    rw [← sum, Finset.mul_sum]
    refine Finset.sum_congr rfl fun s _ => ?_
    rw [Finset.mul_sum]
    refine Finset.sum_congr rfl fun t _ => ?_
    rw [← amplitude_perm (threads_update hl a y s), ha]
    ring

lemma amplitude_end {d : Diagram} (hl : OnWire n l) (hk : d.kindD (ends l) = .z ∨ d.kindD (ends l) = .x) (b : Bool)
    (ls : List (Vertex × Bool)) (x y : Register) : d.amplitude ((ends l, b) :: (ls ++ threads n ends x y)) =
      ∑ s, (d.kindD (ends l)).fan 0 [s, y l, b] * d.amplitude (ls ++ threads n ends x (update y l s)) := by
  have before : ((ends l, b) :: (ls ++ threads n ends x y)).Perm ((ends l, b) :: (ends l, y l) :: (ls ++ others n ends l x y)) :=
    (((threads_perm ends hl x y).append_left ls).trans perm_middle).cons _
  rw [amplitude_perm before, amplitude_leg hk]
  refine Finset.sum_congr rfl fun s _ => ?_
  rw [amplitude_perm (((threads_update hl x y s).append_left ls).trans perm_middle)]

lemma Shows.kindD {d : Diagram} (hs : d.Shows ns) {v : ℕ} (hx : ns[v]? = some x) : d.kindD v = x.kind := by
  rw [Diagram.kindD, hs.kind, hx]
  rfl

/-- A node joined to one beside it, with the gate of the edge. -/
def joined (x : Node) (u : Vertex) (e : EdgeKind) (g : Gate) : Node := { x with side := some (u, e), gates := x.gates ++ [g] }

/-- **An edge from the last node to the end of another wire.** -/
theorem Traced.link (h : Traced n (ns ++ [x]) ends) (hc : OnWire n x.wire) (ht : OnWire n t) (hct : x.wire ≠ t) (hs : x.side = none)
    (hend : ends x.wire = ns.length) (hu : ns[ends t]? = some y) (hne : ∀ u e', x.back = some (u, e') → u ≠ ends t)
    (hk : x.kind = .z ∨ x.kind = .x) (hk' : y.kind = .z ∨ y.kind = .x) (hv : verticalGate x.kind y.kind e x.wire t = .ok g) :
    Traced n (ns ++ [x.joined (ends t) e g]) ends := by
  obtain ⟨d, M, r, hsh, hr, hM, ha⟩ := h.amplitude
  have hlt := (List.getElem?_eq_some_iff.1 hu).1
  have new : Table.find? x.edges (ends t) = none := by
    rw [edges, hs]
    cases hb : x.back with
    | none => rfl
    | some q => exact if_neg (hne q.1 q.2 hb)
  obtain ⟨d', ed, hd, -⟩ := hsh.addEdge (e := e) (y := x.joined (ends t) e g) hlt new
    (by rw [edges, edges, hs]; simp [joined]) ⟨rfl, rfl, rfl, rfl⟩
  obtain ⟨re, li, -⟩ := addEdge_spec _ _ _ _ ed
  have kc : d.kindD (ends x.wire) = x.kind := Shows.kindD hsh (hend ▸ getElem?_concat_length)
  have kt : d.kindD (ends t) = y.kind := Shows.kindD hsh (getElem?_append_of_some hu)
  obtain ⟨N, hN, hp⟩ := paired_vertical hct hk hk' hv
  refine ⟨by simpa using h.inputs, by simpa using h.lt, d', N * M, r * (√2 : ℂ)⁻¹, hd, mul_ne_zero hr (by simp), ?_, fun a b => ?_⟩
  · rw [Course.of_mul, hN, hM]
    simp only [joined, flatMap_append, flatMap_singleton, courseOf_append, courseOf_cons, courseOf_nil, mul_one, mul_assoc]
  have apart : ¬ d.Joined (ends t) ns.length := by
    show ¬ (d.link (ends t) ns.length).isSome
    rw [hsh.link, linkOf_append, if_pos (max_eq_right hlt.le), min_eq_left hlt.le, new]
    exact Bool.false_ne_true
  rw [amplitude_of_link re li hlt apart, mul_assoc, LinearEquiv.mul_apply, ← hp, paired]
  have bits : ∀ s s', d.amplitude ((ends t, s) :: (ns.length, s') :: threads n ends a b) =
      r * ∑ u, x.kind.fan 0 [u, b x.wire, s'] * ∑ v, y.kind.fan 0 [v, b t, s] * M (atInputs n a) (update (update b x.wire u) t v) := by
    intro s s'
    rw [amplitude_perm (Perm.swap _ _ _), ← hend]
    refine (amplitude_end hc (kc.symm ▸ hk) s' [(ends t, s)] a b).trans ?_
    rw [kc, Finset.mul_sum]
    refine Finset.sum_congr rfl fun u _ => ?_
    have target := amplitude_end ht (kt.symm ▸ hk') s [] a (update b x.wire u)
    simp only [nil_append, kt, update_of_ne hct.symm, ha] at target
    rw [singleton_append, target, Finset.mul_sum, Finset.mul_sum, Finset.mul_sum]
    refine Finset.sum_congr rfl fun v _ => ?_
    ring
  rw [Finset.mul_sum]
  refine Finset.sum_congr rfl fun s _ => ?_
  rw [Finset.mul_sum]
  refine Finset.sum_congr rfl fun s' _ => ?_
  rw [bits]
  ring

variable (b : Fin n → Bool)

lemma restrict_extend : (Register.extend b).restrict n = b := by
  funext i
  have h : (0 : ℤ) ≤ (i : ℕ) ∧ ((i : ℕ) : ℤ).toNat < n := ⟨Int.natCast_nonneg _, by exact i.isLt⟩
  rw [Register.restrict, Register.extend, dif_pos h]
  rfl

lemma ofFn_eq : ofFn b = ((range n).map Int.ofNat).map (Register.extend b) := by
  rw [ofFn_eq_map, ← map_coe_finRange_eq_range, map_map, map_map]
  exact map_congr_left fun i _ => (congrFun (restrict_extend b) i).symm

/-- **A drawn diagram has the matrix of the gates that are read off it**, up to a scalar. -/
theorem Traced.linearMap (h : Traced n ns ends) {d : Diagram} (hs : d.Shows ns) (hin : d.inputs = range n)
    (hout : d.outputs = ((range n).map Int.ofNat).map ends) {gs : List Gate} (hc : courseOf gs = courseOf (ns.flatMap Node.gates)) :
    ∃ s : ℂ, s ≠ 0 ∧ d.linearMap n n = s • matrixOn n gs := by
  obtain ⟨g, M, r, hg, hr, hM, ha⟩ := h.amplitude
  obtain ⟨s, hm⟩ := Course.of_eq_of_iff.1 ((of_motionOf gs).trans (hc.trans hM.symm))
  refine ⟨r * s, mul_ne_zero hr s.ne_zero, ?_⟩
  funext y x
  have legs : d.inputs.zip (ofFn x) ++ d.outputs.zip (ofFn y) = threads n ends (Register.extend x) (Register.extend y) := by
    have inputs := zip_map' (f := id) (g := Register.extend x ∘ Int.ofNat) (l := range n)
    rw [map_id] at inputs
    rw [hin, hout, ofFn_eq, ofFn_eq, zip_map', map_map, inputs]
    rfl
  have start : atInputs n (Register.extend x) = fun z => if z.restrict n = x then 1 else 0 := by
    funext z
    rw [atInputs, restrict_extend]
  rw [Diagram.linearMap, legs, hs.amplitude_eq hg, ha, hm, start, Pi.smul_apply, smul_eq_mul, ← mul_assoc]
  rfl

/-! ## Threads -/

/-- The nodes of a drawing, with the last vertex on every wire and the row that is free next. -/
structure Thread (n : ℕ) (split : Bool) (ns : List Node) (ends : ℤ → ℕ) (free : ℤ → ℤ) : Prop where
  drawn : Drawn n split ns
  traced : Traced n ns ends
  ends : ∀ l, OnWire n l → ∃ x, ns[ends l]? = some x ∧ x.wire = l ∧ x.row < free l ∧ 0 < free l
  ahead : ∀ x ∈ ns, ∀ l ∈ x.wires, OnWire n l → x.row < free l

lemma Traced.congr {ends' : ℤ → ℕ} (h : Traced n ns ends) (he : ∀ l, OnWire n l → ends' l = ends l) : Traced n ns ends' := by
  obtain ⟨g, M, r, hs, hr, hM, ha⟩ := h.amplitude
  refine ⟨h.inputs, fun l hl => he l hl ▸ h.lt l hl, g, M, r, hs, hr, hM, fun x y => ?_⟩
  rw [← ha]
  exact congrArg (fun ls => g.amplitude (_ ++ ls)) (map_congr_left fun l hl => by rw [he l (mem_wires.1 hl)])

lemma Thread.raise {ends' : ℤ → ℕ} {free' : ℤ → ℤ} (h : Thread n split ns ends free) (he : ∀ l, OnWire n l → ends' l = ends l)
    (hf : ∀ l, OnWire n l → free l ≤ free' l) : Thread n split ns ends' free' := by
  refine ⟨h.drawn, h.traced.congr he, fun l hl => ?_, fun x hx l hlx hl => (h.ahead x hx l hlx hl).trans_le (hf l hl)⟩
  obtain ⟨x, hx, hw, hr, h0⟩ := h.ends l hl
  exact ⟨x, he l hl ▸ hx, hw, hr.trans_le (hf l hl), h0.trans_le (hf l hl)⟩

/-- **One more node on a row that is free on its wire**, whose gates may reach wires that end on this row. -/
theorem Thread.snoc (h : Thread n split ns ends free) (hl : OnWire n x.wire) (hrow : free x.wire ≤ x.row)
    (hb : x.back = some (ends x.wire, e)) (hs : ∀ u k, x.side = some (u, k) → ∃ y, ns[u]? = some y ∧ y.row = x.row)
    (hr : x.reading split ns = .ok x.gates) (hg : ∀ g ∈ x.gates, g.Fits n ∧ ∀ l ∈ g.wires, l = x.wire ∨ OnWire n l ∧ free l = x.row + 1)
    (ht : Traced n (ns ++ [x]) (update ends x.wire ns.length)) :
    Thread n split (ns ++ [x]) (update ends x.wire ns.length) (update free x.wire (x.row + 1)) := by
  obtain ⟨y, hy, hyw, hyr, h0⟩ := h.ends _ hl
  refine ⟨h.drawn.snoc ⟨fun u k hu => ?_, fun u k hu => ?_⟩ hr hl (fun g hm => (hg g hm).1) fun z hz hlt l hlz => ?_, ht, fun l hl' => ?_,
    fun z hz l hlz hl' => ?_⟩
  · obtain ⟨rfl, rfl⟩ := Prod.mk.inj (Option.some.inj (hb.symm.trans hu))
    exact ⟨(List.getElem?_eq_some_iff.1 hy).1, y, hy, hyw, hyr.trans_le hrow⟩
  · obtain ⟨z, hz, hzr⟩ := hs u k hu
    exact ⟨(List.getElem?_eq_some_iff.1 hz).1, z, hz, hzr⟩
  · rintro ⟨g, hm, hlg⟩
    rcases (hg g hm).2 l hlg with rfl | ⟨hl', e⟩
    · have := h.ahead z hz _ hlz hl
      omega
    · have := h.ahead z hz l hlz hl'
      omega
  · rw [update_apply, update_apply]
    split
    · rename_i e
      exact ⟨x, getElem?_concat_length, e.symm, Int.lt_succ _, by omega⟩
    · obtain ⟨z, hz, h'⟩ := h.ends l hl'
      exact ⟨z, getElem?_append_of_some hz, h'⟩
  · rw [update_apply]
    rcases mem_append.1 hz with hz | hz
    · have := h.ahead z hz l hlz hl'
      split
      · rename_i e
        subst e
        omega
      · exact this
    obtain rfl := mem_singleton.1 hz
    obtain ⟨g, hm, hlg⟩ := hlz
    rcases (hg g hm).2 l hlg with rfl | ⟨-, e⟩
    · rw [if_pos rfl]
      exact Int.lt_succ _
    · rw [e]
      split <;> exact Int.lt_succ _

/-- A vertex hung on another one, with its gates. -/
def hung (split : Bool) (k : VertexKind) (p : ℚ) (l row : ℤ) (u : Vertex) (e : EdgeKind) : Node where
  kind := k
  phase := modTwo p
  wire := l
  row := row
  back := some (u, e)
  gates := hadOf e l ++ if k = .boundary then [] else phaseGates (k = .z) split l (modTwo p)

lemma modTwo_modTwo (p : ℚ) : modTwo (modTwo p) = modTwo p := by
  have h : ⌊modTwo p / 2⌋ = 0 := Int.floor_eq_zero_iff.2 ⟨by have := modTwo_nonneg p; positivity, by have := modTwo_lt_two p; linarith⟩
  rw [Rat.modTwo_eq (modTwo p), show (modTwo p / 2).floor = 0 from h]
  simp

lemma courseOf_hung (hk : k = .boundary ∨ k = .z ∨ k = .x) : courseOf (hung split k p l row u e).gates =
    courseOf (hadOf e l) * of (spun k l (modTwo p)) := by
  rw [hung, courseOf_append]
  rcases hk with rfl | hk
  · rfl
  · rw [if_neg (by rcases hk with rfl | rfl <;> decide), courseOf_turn split l hk (modTwo_nonneg p) (modTwo_lt_two p)]

lemma hung_fits (hl : OnWire n l) (hg : g ∈ (hung split k p l row u e).gates) : g.Fits n ∧ g.wires ⊆ {l} := by
  rcases mem_append.1 hg with hg | hg
  · exact hadOf_fits hl hg
  split at hg
  · cases hg
  · exact phaseGates_fits hl hg

lemma reading_hung : (hung split k p l row u e).reading split ns = .ok (hung split k p l row u e).gates := by
  by_cases hk : k = .boundary <;> simp [hung, reading, hk]
  rfl

section

variable (h : Thread n split ns ends free) (hl : OnWire n l) (hrow : free l ≤ row)
include h hl hrow

lemma Traced.hung (hk : k = .boundary ∨ k = .z ∨ k = .x) (p : ℚ) (e : EdgeKind) :
    Traced n (ns ++ [hung split k p l row (ends l) e]) (update ends l ns.length) := by
  obtain ⟨-, -, -, -, h0⟩ := h.ends l hl
  exact h.traced.hang (x := Node.hung split k p l row (ends l) e) hl rfl rfl (modTwo_modTwo p) (h0.le.trans hrow) (courseOf_hung hk)

lemma Thread.hang (hk : k = .boundary ∨ k = .z ∨ k = .x) (p : ℚ) (e : EdgeKind) :
    Thread n split (ns ++ [hung split k p l row (ends l) e]) (update ends l ns.length) (update free l (row + 1)) :=
  h.snoc (x := Node.hung split k p l row (ends l) e) hl hrow rfl (fun u k hu => by cases hu) reading_hung
    (fun g hg => ⟨(hung_fits hl hg).1, fun l' hl' => .inl ((hung_fits hl hg).2 hl')⟩) (Traced.hung h hl hrow hk p e)

/-- **Joined vertices on two wires** show the gate of their edge. -/
theorem Thread.join (ht : OnWire n t) (hlt : l ≠ t) (hy : ns[ends t]? = some y) (hyr : y.row = row) (hf : free t = row + 1)
    (hk : k = .z ∨ k = .x) (hk' : y.kind = .z ∨ y.kind = .x) (hv : verticalGate k y.kind ek l t = .ok g) (p : ℚ) (e : EdgeKind) :
    Thread n split (ns ++ [(hung split k p l row (ends l) e).joined (ends t) ek g]) (update ends l ns.length) (update free l (row + 1)) := by
  have hend : update ends l ns.length t = ends t := update_of_ne hlt.symm _ _
  have traced := (Traced.hung h hl hrow (.inr hk) p e).link (x := hung split k p l row (ends l) e) hl ht
    hlt rfl (update_self l _ _) (by rw [hend]; exact hy) (fun u e' hu => ?_) hk hk' hv
  · rw [hend] at traced
    refine h.snoc hl hrow rfl (fun u k hu => ?_) ?_ (forall_mem_append.2 ⟨fun g hg => ?_, fun g' hg => ?_⟩) traced
    · obtain ⟨rfl, rfl⟩ := Prod.mk.inj (Option.some.inj hu)
      exact ⟨y, hy, hyr⟩
    · obtain ⟨z, hz, hzw, -⟩ := h.ends t ht
      obtain rfl := Option.some.inj (hy.symm.trans hz)
      have spider : k ≠ .boundary := by rcases hk with rfl | rfl <;> decide
      simp [joined, hung, reading, spider, sideGate, hy, hzw, hv]
    · exact ⟨(hung_fits hl hg).1, fun l' hl' => .inl ((hung_fits hl hg).2 hl')⟩
    · obtain ⟨fits, wires⟩ := vertical_fits hl ht hlt hv
      rw [mem_singleton.1 hg]
      exact ⟨fits, fun l' hl' => (wires hl').imp id fun e => by rw [Set.mem_singleton_iff.1 e]; exact ⟨ht, hf⟩⟩
  · obtain ⟨rfl, rfl⟩ := Prod.mk.inj (Option.some.inj hu)
    obtain ⟨z, hz, hzw, -⟩ := h.ends l hl
    obtain ⟨z', hz', hzw', -⟩ := h.ends t ht
    rw [hend]
    intro e
    rw [e] at hz
    obtain rfl := Option.some.inj (hz.symm.trans hz')
    exact hlt (hzw.symm.trans hzw')

end

/-! ## Inputs -/

def inputNode (i : ℕ) : Node := { kind := .boundary, phase := 0, wire := i, row := 0 }

lemma getElem?_inputNodes {i : ℕ} : ((range n).map inputNode)[i]? = if i < n then some (inputNode i) else none := by
  rw [getElem?_map]
  split
  · rename_i h
    rw [getElem?_range h]
    rfl
  · rw [getElem?_eq_none (by rw [length_range]; omega)]
    rfl

lemma wires_inputNode (i : ℕ) : (inputNode i).wires = ∅ := by simp [Node.wires, inputNode]

lemma flatMap_inputNodes (n : ℕ) : ((range n).map inputNode).flatMap Node.gates = [] := by
  rw [flatMap_map]
  exact flatMap_eq_nil_iff.2 fun i _ => rfl

lemma restrict_succ (x y : Register) : x.restrict (n + 1) = y.restrict (n + 1) ↔ x.restrict n = y.restrict n ∧ x n = y n := by
  rw [funext_iff, Fin.forall_fin_succ', funext_iff]
  rfl

lemma Shows.addInput {d : Diagram} (hs : d.Shows ((range n).map inputNode)) :
    Diagram.Shows (d.addVertex .boundary (.int n) (.int 0) (.int 0)).1 ((range (n + 1)).map inputNode) := by
  have shown := hs.addVertex (q := n) (r := 0) .boundary (by omega) (by decide) (.int 0) []
  rw [modTwo_of_isZero rfl] at shown
  rw [range_succ, map_append]
  exact shown

lemma toNat_lt (hl : OnWire n l) : l.toNat < n := by
  have := hl.1
  have := hl.2
  omega

lemma amplitude_inputs (n : ℕ) : ∃ d : Diagram, d.Shows ((range n).map inputNode) ∧
    ∀ x y, d.amplitude (threads n Int.toNat x y) = atInputs n x y := by
  induction n with
  | zero =>
    refine ⟨{}, shows_nil, fun x y => ?_⟩
    have vertices : Diagram.vertices {} = [] := rfl
    have edges : Diagram.edges {} = [] := rfl
    rw [atInputs, if_pos (Subsingleton.elim _ _)]
    simp [threads, amplitude, weight, Diagram.legs, vertices, edges]
  | succ n ih =>
    obtain ⟨d, hs, ha⟩ := ih
    obtain ⟨-, grown⟩ := addVertex_spec d .boundary (.int n) (.int 0) (.int 0)
    refine ⟨_, Shows.addInput hs, fun x y => ?_⟩
    have next : d.next = n := by rw [hs.next, length_map, length_range]
    have perm : (threads (n + 1) Int.toNat x y).Perm ([x n, y n].map (fun b => (d.next, b)) ++ threads n Int.toNat x y) := by
      rw [threads, range_succ, map_append, map_append, map_append, next, ← append_assoc]
      refine (perm_append_singleton _ _).trans ?_
      exact (((perm_append_singleton _ _).append_right _).cons _).trans (Perm.swap ..)
    rw [amplitude_perm perm, grown.amplitude hs.coherent [x n, y n] fun q hq => (hs.vertex _).2 ?_, ha, atInputs, fan_boundary, ite_zero_mul_ite_zero, one_mul]
    · exact if_congr (by rw [restrict_succ, and_comm, eq_comm (a := x n)]) rfl rfl
    · rw [length_map, length_range]
      exact lt_of_mem_threads le_rfl (fun l hl => toNat_lt hl) hq

lemma traced_inputs (n : ℕ) : Traced n ((range n).map inputNode) Int.toNat := by
  obtain ⟨d, hs, ha⟩ := amplitude_inputs n
  refine ⟨by simp, fun l hl => by simpa using toNat_lt hl, d, 1, 1, hs, one_ne_zero, by rw [flatMap_inputNodes]; rfl, fun x y => ?_⟩
  rw [ha, one_mul]
  rfl

lemma thread_inputs (n : ℕ) (split : Bool) : Thread n split ((range n).map inputNode) Int.toNat fun _ => 1 := by
  have input : ∀ {i x}, ((range n).map inputNode)[i]? = some x → i < n ∧ x = inputNode i := by
    intro i x hx
    rw [getElem?_inputNodes] at hx
    split at hx
    · exact ⟨‹_›, (Option.some.inj hx).symm⟩
    · cases hx
  refine ⟨⟨fun i hi => ⟨inputNode i, by rw [getElem?_inputNodes, if_pos hi], rfl, rfl⟩, fun i x hx => ?_,
    fun i x hi hx => absurd (input hx).1 (Nat.not_lt.2 hi), forall_mem_map.2 fun i hi => mem_wires.1 (mem_map_of_mem hi),
    forall_mem_map.2 fun i _ g hg => (by cases hg), ?_⟩, traced_inputs n, fun l hl => ?_, forall_mem_map.2 fun i _ l hl => ?_⟩
  · obtain ⟨-, rfl⟩ := input hx
    constructor <;> intro u k h <;> cases h
  · rw [pairwise_map]
    refine pairwise_of_forall fun i j _ => ?_
    rw [wires_inputNode]
    exact fun l hl => hl.elim
  · obtain ⟨i, hi, rfl⟩ := mem_map.1 (mem_wires.2 hl)
    exact ⟨inputNode i, by rw [getElem?_inputNodes]; exact if_pos (mem_range.1 hi), rfl, Int.one_pos, Int.one_pos⟩
  · rw [wires_inputNode] at hl
    exact hl.elim

end Node

end ZXCircuits
