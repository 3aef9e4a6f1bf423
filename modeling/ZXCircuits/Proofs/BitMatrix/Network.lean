/-
  Parity networks, and controlled nots for a linear map.

  The group that is made of vectors of the store has no target, so it gets no gates and is split into copies; the work on these leaves
  the store alone (`work_makes`).  Every parity is on some wire at some time (`parityNetwork_reaches`).  The network is completed by the synthesis of what is missing, and makes the map of the wires that was
  asked for (`networkFor_gives`).
-/
import ZXCircuits.Proofs.BitMatrix.Groups

namespace ZXCircuits

open List BitMatrix

namespace ParityNetwork

variable {n i j : Nat} {s : Store} {g : Group} {groups waiting : List Group} {gates : List (Nat × Nat)} {vs : List (Array Int)}

/-! ## Groups of copies -/

/-- A stack of copies is changed without a look at the store. -/
lemma updateAll_copied (groups : List Group) :
    updateAll i j (groups.map .copied) s = (s, (groups.map (Group.update i j)).map .copied) := by
  induction groups with
  | nil => rfl
  | cons g groups ih => simp [updateAll, Entry.update, ih]

/-- **Gates for a group** come to an end, when no wire is common to its parities. -/
theorem gather_makes (fuel : Nat) (hs : Tracks n vs (g :: waiting) gates) (ht : g.target = some i) (hne : g.parities ≠ [])
    (hf : ((Finset.range n).filter (g.Common i ·)).card < fuel) :
    Makes (gather n i fuel (.copied g) (waiting.map .copied) s gates) fun r => ∃ g' waiting' gates',
      r = (.copied g', waiting'.map .copied, s, gates') ∧ Tracks n vs (g' :: waiting') gates' ∧ g'.target = some i ∧
      g'.weight + (waiting'.map Group.weight).sum = g.weight + (waiting.map Group.weight).sum ∧ g'.parities ≠ [] ∧
      ∀ k < n, ¬ g'.Common i k := by
  induction fuel generalizing g waiting gates with
  | zero => omega
  | succ fuel ih =>
    rw [gather, Entry.read, Group.common]
    split
    · rename_i h
      exact .ok ⟨g, waiting, gates, rfl, hs, ht, rfl, hne, fun k hk => find?_eq_none.1 h k (mem_range.2 hk)⟩
    rename_i j hj
    have hjn := mem_range.1 (mem_of_find?_eq_some hj)
    have hcommon : g.Common i j := List.find?_some hj
    obtain ⟨hji, hall⟩ := Bool.and_eq_true_iff.1 hcommon
    have hji : j ≠ i := bne_iff_ne.1 hji
    have hg := hs.stack.fit g (by simp)
    have hs' := hs.update hne ⟨hjn, hg.below i ht, hji⟩ (fun e => hji (Option.some.inj (e.symm.trans ht)))
      fun y hy => bne_iff_ne.1 (all_eq_true.1 hall y hy)
    have hsum : (g.update i j).weight + ((waiting.map (Group.update i j)).map Group.weight).sum =
        g.weight + (waiting.map Group.weight).sum := by
      rw [g.weight_update, map_map]
      exact congrArg (g.weight + sum ·) (map_congr_left fun x _ => x.weight_update i j)
    rw [updateAll_copied, ← hsum]
    exact ih hs' ht (mt map_eq_nil_iff.1 hne)
      (Nat.lt_of_lt_of_le (hg.card_common_update ht hne hjn hcommon) (Nat.le_of_lt_succ hf))

/-! ## The work -/

/-- The work after a split, if all that follows comes to an end. -/
lemma split_makes {P : Store × List (Nat × Nat) → Prop} {fuel : Nat} (hs : Tracks n vs (g :: waiting) gates) (hne : g.parities ≠ [])
    (hc : ∀ i ∈ g.target, ∀ k < n, ¬ g.Common i k)
    (next : ∀ groups, Tracks n vs groups gates → (groups.map Group.weight).sum < g.weight + (waiting.map Group.weight).sum →
      Makes (work n fuel (groups.map .copied) s gates) P) :
    Makes (match splitWire g g.wires with
      | none => work n fuel (waiting.map .copied) s gates
      | some j => work n fuel (.copied (zeros g j) :: .copied (ones g j) :: waiting.map .copied) s gates) P := by
  have hfit := hs.stack.fit g (by simp)
  have hpos : 0 < g.weight := Nat.succ_pos _
  cases hj : splitWire g g.wires with
  | none =>
    have hnil : g.wires = [] := by
      cases hw : g.wires with
      | nil => rfl
      | cons => simp [hw, splitWire] at hj
    exact next waiting (hs.drop (.inr hnil)) (by omega)
  | some j =>
    have hmem := splitWire_mem hj
    have hlt := weight_lt hfit hne hmem fun i hi => hc i hi j (hfit.wires j hmem)
    refine next (zeros g j :: ones g j :: waiting) (hs.split hmem) ?_
    rw [map_cons, map_cons, sum_cons, sum_cons]
    omega

/-- **The work on copies** comes to an end with no group left, and leaves the store alone. -/
theorem work_makes (fuel : Nat) (groups : List Group) (hs : Tracks n vs groups gates) (hf : (groups.map Group.weight).sum < fuel) :
    Makes (work n fuel (groups.map .copied) s gates) fun r => r.1 = s ∧ Tracks n vs [] r.2.reverse := by
  induction fuel generalizing groups gates with
  | zero => omega
  | succ fuel ih =>
    cases groups with
    | nil => exact .ok ⟨rfl, by rwa [reverse_reverse]⟩
    | cons g waiting =>
      rw [map_cons, sum_cons] at hf
      have hpos : 0 < g.weight := Nat.succ_pos _
      rw [map_cons, work, Entry.read]
      split
      · rename_i empty
        exact ih _ (hs.drop (by simpa using empty)) (by omega)
      rename_i empty
      have hne : g.parities ≠ [] := fun e => empty (by simp [e])
      cases ht : g.target with
      | none => exact split_makes (g := g) hs hne (by simp [ht]) fun groups hs hlt => ih groups hs (by omega)
      | some i =>
        have hcard : ((Finset.range n).filter (g.Common i ·)).card < 2 * n + 1 := by
          have := (Finset.card_filter_le (Finset.range n) (g.Common i ·)).trans_eq (Finset.card_range n)
          omega
        refine (gather_makes _ hs ht hne hcard).bind ?_
        rintro _ ⟨g', waiting', gates', rfl, hs', ht', hw, hne', hk⟩
        refine split_makes (g := g') hs' hne' (fun k hk' => ?_) fun groups hs hlt => ih groups hs (by omega)
        obtain rfl : i = k := Option.some.inj (ht'.symm.trans hk')
        exact hk

end ParityNetwork

section

open ParityNetwork

/-- **The parity network** of vectors of zeros and ones in a store is always found, and brings each of them onto a wire.  The store
    stays as it is. -/
theorem parityNetworkIn_makes {n : Nat} {s : Store} {cells : List Nat}
    (h : ∀ a ∈ cells, ∃ p : Array Int, s[a]? = some p ∧ p.size = n ∧ ∀ x ∈ p, x = 0 ∨ x = 1) :
    Makes (parityNetworkIn n s cells) fun r => r.1 = s ∧
      Tracks n (cells.map fun a => s.getD a #[]) [] r.2.reverse := by
  have get : ∀ y ∈ cells.map fun a => s.getD a #[], y.size = n ∧ ∀ k, y.getD k 0 = 0 ∨ y.getD k 0 = 1 := by
    refine forall_mem_map.2 fun a ha => ?_
    obtain ⟨p, hp, size, bits⟩ := h a ha
    rw [Array.getD_eq_getD_getElem?, hp]
    refine ⟨size, fun k => ?_⟩
    rcases Nat.lt_or_ge k p.size with hk | hk
    · simpa [hk] using bits p[k] (Array.getElem_mem hk)
    · simp [hk]
  have start : Tracks n (cells.map fun a => s.getD a #[]) [⟨cells.map fun a => s.getD a #[], List.range n, none⟩] [] := by
    refine ⟨⟨forall_mem_singleton.2 ⟨fun j hj => mem_range.1 hj, by simp, get, by simp, fun y hy k hk => .inl (mem_range.2 ?_)⟩,
      pairwise_singleton _ _⟩, by simp, fun v hv _ => .inr ⟨_, mem_singleton_self _, v, hv, by simp [additions]⟩⟩
    by_contra hkn
    rw [Array.getD_eq_getD_getElem?, Array.getElem?_eq_none (by rw [(get y hy).1]; omega)] at hk
    cases hk
  rw [parityNetworkIn, groupBound, work]
  split
  · rename_i empty
    exact work_makes _ [] (start.drop (by simpa [Entry.read] using empty)) (by simp)
  · rename_i empty
    refine split_makes start (fun e => empty (by simp [Entry.read, map_eq_nil_iff.1 e])) (by simp) fun groups hs hlt =>
      work_makes _ groups hs (hlt.trans_le ?_)
    simp [Group.weight]

lemma parityNetwork_makes {n : Nat} {parities : List (List Int)} (h : ∀ p ∈ parities, p.length = n ∧ ∀ x ∈ p, x = 0 ∨ x = 1) :
    Makes (parityNetwork n parities) fun gs => Tracks n (parities.map List.toArray) [] gs.reverse := by
  have view : ((List.range parities.length).map fun a => (parities.map List.toArray).toArray.getD a #[]) = parities.map List.toArray := by
    refine ext_getElem (by simp) fun k _ hk => ?_
    rw [length_map] at hk
    simp [hk]
  have made : Makes (parityNetworkIn n (parities.map List.toArray).toArray (List.range parities.length)) _ :=
    parityNetworkIn_makes fun a ha => ?_
  · rw [view] at made
    exact made.bind fun r hr => .ok hr.2
  · have ha := mem_range.1 ha
    exact ⟨parities[a].toArray, by simp [ha], (h _ (getElem_mem ha)).1, by simpa using (h _ (getElem_mem ha)).2⟩

end

variable {q : Nat} {target : BitMatrix}

namespace BitMatrix

variable {m a b : BitMatrix}

lemma Shaped.numCols (h : m.Shaped q q) : m.numCols = q := by
  rw [BitMatrix.numCols]
  cases q with
  | zero =>
    have : m.data.size = 0 := h.rows
    simp [this]
  | succ q =>
    have hs : 0 < m.data.size := by have := h.rows; rw [numRows] at this; omega
    have := h.cols 0 (Nat.succ_pos q)
    simp only [row, Array.getD_eq_getD_getElem?, Array.getElem?_eq_getElem hs, Option.getD_some] at this
    simp only [Array.getElem?_eq_getElem hs, this]

lemma Binary.toMatrix (h : m.Binary) (i j : Fin q) : m.toMatrix q i j = (m.entry i j : ZMod 2) := by
  rw [BitMatrix.toMatrix, ofBits, bit]
  rcases h i j with e | e <;> rw [e] <;> rfl

lemma foldl_add_eq (f : Nat → Int) (k : Nat) : (List.range k).foldl (fun s i => s + f i) 0 = ∑ i ∈ Finset.range k, f i := by
  induction k with
  | zero => rfl
  | succ k ih => rw [range_succ, foldl_append, ih, Finset.sum_range_succ]; rfl

lemma mul_makes (hq : 0 < q) (ha : a.Shaped q q) (hb : b.Shaped q q) (ha' : a.Binary) (hb' : b.Binary) :
    Makes (a.mul b) fun p => p.Shaped q q ∧ p.toMatrix q = a.toMatrix q * b.toMatrix q := by
  have hsizes : ¬(b.numCols ≠ 0 ∧ a.data.any fun r => r.size < b.numRows) := fun h => by
    obtain ⟨i, hi, hlt⟩ := Array.any_eq_true.1 h.2
    have hrow := ha.cols i (ha.rows ▸ hi)
    simp only [row, Array.getD_eq_getD_getElem?, Array.getElem?_eq_getElem hi, Option.getD_some] at hrow
    simp [hrow, hb.rows] at hlt
  rw [mul, if_neg (by rw [ha.rows]; omega), if_neg (by rw [hb.rows]; omega), if_neg hsizes]
  refine .pure ?_
  have hrow : ∀ i < q, (⟨a.data.map fun r => (Array.range b.numCols).map fun j =>
      ((List.range b.numRows).foldl (fun s k => s + r.getD k 0 * b.entry k j) 0) % 2⟩ : BitMatrix).row i =
      (Array.range q).map fun j => (∑ k ∈ Finset.range q, a.entry i k * b.entry k j) % 2 := by
    intro i hi
    have hs : i < a.data.size := by have := ha.rows; rw [numRows] at this; omega
    have he : ∀ k, a.entry i k = a.data[i].getD k 0 := fun k => by simp [entry, row, hs]
    simp only [row, Array.getD_eq_getD_getElem?, Array.getElem?_map, Array.getElem?_eq_getElem hs, Option.map_some,
      Option.getD_some, hb.numCols, hb.rows, foldl_add_eq, he]
  refine ⟨⟨by simpa [numRows] using ha.rows, fun i hi => by rw [hrow i hi]; simp⟩, ?_⟩
  ext i j
  have hj : (j : Nat) < q := j.2
  rw [BitMatrix.toMatrix, ofBits, bit, entry, hrow i i.2, Matrix.mul_apply]
  have e : ((Array.range q).map fun j => (∑ k ∈ Finset.range q, a.entry i k * b.entry k j) % 2).getD j 0 =
      (∑ k ∈ Finset.range q, a.entry i k * b.entry k j) % 2 := by simp
  simp only [ha'.toMatrix, hb'.toMatrix]
  have hsum : ∑ k : Fin q, (a.entry i k : ZMod 2) * (b.entry k j : ZMod 2) =
      ((∑ k ∈ Finset.range q, a.entry i k * b.entry k j : ℤ) : ZMod 2) := by
    rw [Finset.sum_range]
    push_cast
    rfl
  rw [hsum, ← ZMod.intCast_mod _ 2]
  rcases Int.emod_two_eq_zero_or_one (∑ k ∈ Finset.range q, a.entry i k * b.entry k j) with hz | hz <;> simp [hz]

lemma numRows_mul (a b : BitMatrix) : Gives (a.mul b) fun p => p.numRows = a.numRows := by
  refine .ite (fun h => .pure h.symm) fun _ => .ite (fun _ => .thrown _) fun _ => .ite (fun _ => .thrown _) fun _ => .pure ?_
  simp [numRows]

end BitMatrix

/-- Natural numbers as wires. -/
def asWires (s : Nat × Nat) : Int × Int := (s.1, s.2)

lemma mapOfNots_eq {ns : List (Nat × Nat)} (h : ∀ s ∈ ns, Inside q s.1 s.2) :
    mapOfNots q (ns.map asWires) = .ok (ns.foldl (fun m s => m.addRow s.1 s.2) (identity q)) := by
  rw [← applyRows_eq (shaped_identity q) h, mapOfNots, foldlM_map]
  rfl

/-- **The parity network reaches every parity**: as a row of the map that the first gates make.  The parities may be any vectors of a
    store, and nothing in it is changed. -/
theorem parityNetwork_reaches (n : ℕ) (s : ParityNetwork.Store) (cells : List ℕ)
    (h : ∀ a ∈ cells, ∃ p : Array ℤ, s[a]? = some p ∧ p.size = n ∧ (∀ x ∈ p, x = 0 ∨ x = 1) ∧ ∃ x ∈ p, x ≠ 0) :
    ∃ net, parityNetworkIn n s cells = .ok (s, net) ∧ (∀ g ∈ net, Inside n g.1 g.2) ∧
      ∀ a ∈ cells, ∃ k m r, mapOfNots n ((net.take k).map asWires) = .ok m ∧ r < n ∧ s[a]? = some (m.row r) := by
  obtain ⟨⟨s', net⟩, e, same, tracked⟩ := parityNetworkIn_makes fun a ha => (h a ha).imp fun p hp => ⟨hp.1, hp.2.1, hp.2.2.1⟩
  have hnet : ∀ g ∈ net, Inside n g.1 g.2 := fun g hg => tracked.inside g (mem_reverse.2 hg)
  refine ⟨net, same ▸ e, hnet, fun a ha => ?_⟩
  obtain ⟨p, hp, hlen, hbits, x, hx, hx0⟩ := h a ha
  have get : ∀ c (hc : c < p.size), p.getD c 0 = p[c] := fun c hc => by simp [hc]
  have nonzero : ParityNetwork.bits n p ≠ 0 := fun h0 => by
    obtain ⟨c, hc, rfl⟩ := Array.getElem_of_mem hx
    have := congrFun h0 ⟨c, hlen ▸ hc⟩
    rw [ParityNetwork.bits, get c hc, (hbits _ hx).resolve_left hx0] at this
    cases this
  have mem : p ∈ cells.map fun a => s.getD a #[] := mem_map.2 ⟨a, ha, by rw [Array.getD_eq_getD_getElem?, hp]; rfl⟩
  obtain ⟨steps, hsteps, r, hr⟩ := (tracked.found p mem nonzero).resolve_right (by simp)
  rw [reverse_reverse] at hsteps
  have hin : ∀ s ∈ steps, Inside n s.1 s.2 := fun s hs => hnet s (hsteps.subset hs)
  refine ⟨steps.length, _, r, by rw [← prefix_iff_eq_take.1 hsteps, mapOfNots_eq hin], r.2, hp.trans (congrArg some ?_)⟩
  have hshape := shaped_foldl_addRow (shaped_identity n) hin
  have hbinary := binary_foldl_addRow (shaped_identity n) (binary_identity n) hin
  have hmat := toMatrix_foldl_addRow (shaped_identity n) hin
  rw [toMatrix_identity, mul_one] at hmat
  refine (Array.ext (by simp [hshape.cols r r.2, hlen]) fun c hc hc' => ?_).symm
  have hcn : c < n := hshape.cols r r.2 ▸ hc
  have entry := congrFun hr ⟨c, hcn⟩
  rw [← hmat, hbinary.toMatrix, ParityNetwork.bits, get c (hlen ▸ hcn)] at entry
  have hb := hbinary r c
  rw [BitMatrix.entry, ← Array.getElem_eq_getD (h := hc)] at hb entry
  rcases hb with hb | hb <;> rcases hbits p[c] (Array.getElem_mem _) with hb' | hb' <;> simp_all

/-- Three vectors, one of them asked for twice. -/
theorem parityNetwork_reaches_three_wires :
    let s : ParityNetwork.Store := #[#[1, 1, 0], #[0, 1, 1], #[1, 1, 1]]
    ∃ net, parityNetworkIn 3 s [0, 2, 1, 2] = .ok (s, net) ∧
      ∀ a ∈ [0, 2, 1, 2], ∃ k m r, mapOfNots 3 ((net.take k).map asWires) = .ok m ∧ r < 3 ∧ s[a]? = some (m.row r) := by
  intro s
  obtain ⟨net, e, -, h⟩ := parityNetwork_reaches 3 s [0, 2, 1, 2] (by simp [s])
  exact ⟨net, e, h⟩

/-- A network is completed by a synthesis. -/
lemma networkFor_eq {parities : List (List Int)} (hp : ∀ p ∈ parities, p.length = q ∧ ∀ x ∈ p, x = 0 ∨ x = 1)
    (hq : 0 < q) (hs : target.Shaped q q) (hb : target.Binary) (hu : IsUnit (target.toMatrix q)) :
    ∃ (net : List (Nat × Nat)) (p : BitMatrix), networkFor q parities target = (fun rest : List (Nat × Nat) =>
        (net ++ rest.reverse.map fun g => (g.2, g.1)).map asWires) <$> p.synthesis true ∧
      (∀ s ∈ net, Inside q s.1 s.2) ∧ p.Shaped q q ∧ IsUnit (p.toMatrix q) ∧
      p.toMatrix q * additions q net = target.toMatrix q := by
  obtain ⟨net, e, tracked⟩ := parityNetwork_makes hp
  have hnet : ∀ s ∈ net, Inside q s.1 s.2 := fun s hs => tracked.inside s (mem_reverse.2 hs)
  have hshape := shaped_foldl_addRow (shaped_identity q) hnet
  have hmat := toMatrix_foldl_addRow (shaped_identity q) hnet
  rw [toMatrix_identity, mul_one] at hmat
  obtain ⟨_, e', i, rfl, hi, hib, hinv⟩ :=
    inverse_makes hshape hshape.numCols (hmat ▸ .of_mul_eq_one_right _ (additions_mul_reverse hnet))
  obtain ⟨p, e'', hp⟩ := mul_makes hq hs hi hb hib
  refine ⟨net, p, ?_, hnet, hp.1, hp.2 ▸ hu.mul (.of_mul_eq_one _ hinv), ?_⟩
  · have em : mapOfNots q (net.map fun s => ((s.1 : Int), (s.2 : Int))) = _ := mapOfNots_eq hnet
    simp only [networkFor, e, em, e', e'', bind, Except.bind, pure, Except.pure]
    cases p.synthesis true with
    | error _ => rfl
    | ok rest =>
      simp only [Functor.map, Except.map, map_append, map_map]
      rfl
  · rw [hp.2, ← hmat, mul_assoc, hinv, mul_one]

/-- **The controlled nots make the map that was asked for.** -/
theorem networkFor_gives {parities : List (List Int)} (hp : ∀ p ∈ parities, p.length = q ∧ ∀ x ∈ p, x = 0 ∨ x = 1)
    (hq : 0 < q) (hs : target.Shaped q q) (hb : target.Binary) (hu : IsUnit (target.toMatrix q)) :
    Gives (networkFor q parities target) fun nots =>
      ∃ ns : List (Nat × Nat), nots = ns.map asWires ∧ (∀ s ∈ ns, Inside q s.1 s.2) ∧ additions q ns = target.toMatrix q := by
  obtain ⟨net, p, e, hnet, hps, hpu, hmul⟩ := networkFor_eq hp hq hs hb hu
  rw [e]
  refine (synthesis_gives hps hps.numCols hpu).bind fun rest hrest => .pure ⟨_, rfl, fun s hs' => ?_, ?_⟩
  · rcases mem_append.1 hs' with h | h
    · exact hnet s h
    · obtain ⟨g, hg, rfl⟩ := mem_map.1 h
      exact hrest.1 g (mem_reverse.1 hg)
  · rw [additions_append, hrest.2, hmul]

lemma networkFor_few (parities : List (List Int)) (h : target.numRows < 2) : Gives (networkFor q parities target) fun _ => False := by
  refine .skip fun _ => .skip fun _ => .skip fun o => ?_
  cases o with
  | none => exact .thrown _
  | some i => exact .skip fun i => (numRows_mul target i).bind fun p hp => (synthesis_few (hp ▸ h)).bind fun _ h => h.elim

end ZXCircuits
