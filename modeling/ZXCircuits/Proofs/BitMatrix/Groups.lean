/-
  Groups of parities and the gates for them.

  All parities of a group hold its target, so a gate takes one wire out of them that they had in common (`Group.Fit.common_update`),
  and a split leaves fewer parities or fewer wires on either side (`weight_lt`).  The groups tell all the while what is on the wires
  (`Tracks`).
-/
import ZXCircuits.Todd.Gates
import ZXCircuits.Proofs.BitMatrix.Linear

namespace ZXCircuits

open List BitMatrix

namespace ParityNetwork

variable {n i j : Nat} {g h : Group} {waiting : List Group} {y : Array Int} {gates : List (Nat × Nat)} {vs : List (Array Int)}

/-- A group of parities on `n` wires that all hold its target. -/
structure Group.Fit (n : Nat) (g : Group) : Prop where
  wires : ∀ j ∈ g.wires, j < n
  below : ∀ i ∈ g.target, i < n
  bits : ∀ y ∈ g.parities, y.size = n ∧ ∀ k, y.getD k 0 = 0 ∨ y.getD k 0 = 1
  target : ∀ i ∈ g.target, ∀ y ∈ g.parities, y.getD i 0 = 1
  within : ∀ y ∈ g.parities, ∀ k, y.getD k 0 = 1 → k ∈ g.wires ∨ g.target = some k

/-- A group shares the target of a group below it, or its parities do not hold that target, and has no wires but those below. -/
def Over (g h : Group) : Prop :=
  (∀ t ∈ h.target, g.target = some t ∨ ∀ y ∈ g.parities, y.getD t 0 = 0) ∧ ∀ k ∈ g.wires, k ∈ h.wires ∨ h.target = some k

/-- Groups one below the other. -/
structure Stack (n : Nat) (groups : List Group) : Prop where
  fit : ∀ g ∈ groups, g.Fit n
  above : groups.Pairwise Over

/-! ## Gates for a group -/

lemma getD_update (hj : j < y.size) (k : Nat) :
    (update i j y).getD k 0 = if k = j then (y.getD i 0 + y.getD j 0) % 2 else y.getD k 0 := by
  rw [update]
  by_cases e : j = k
  · subst e
    simp [hj]
  · simp [e, Ne.symm e]

lemma Group.Fit.update (hg : g.Fit n) (hw : j ∈ g.wires) (ht : g.target ≠ some j) : (g.update i j).Fit n := by
  have hj := hg.wires j hw
  refine ⟨hg.wires, hg.below, fun z hz => ?_, fun t htarget z hz => ?_, fun z hz k hk => ?_⟩ <;> obtain ⟨y, hy, rfl⟩ := mem_map.1 hz
  · obtain ⟨hsize, hbits⟩ := hg.bits y hy
    refine ⟨by simpa [ParityNetwork.update] using hsize, fun k => ?_⟩
    rw [getD_update (hsize ▸ hj)]
    split
    · exact Int.emod_two_eq_zero_or_one _
    · exact hbits k
  · have hne : t ≠ j := fun e => ht (e ▸ htarget)
    rw [getD_update ((hg.bits y hy).1 ▸ hj), if_neg hne]
    exact hg.target t htarget y hy
  · rw [getD_update ((hg.bits y hy).1 ▸ hj)] at hk
    split at hk
    · exact .inl (‹k = j› ▸ hw)
    · exact hg.within y hy k hk

lemma Over.update (ho : Over g h) (hg : g.Fit n) (hj : j < n) (ht : h.target ≠ some j) : Over (g.update i j) (h.update i j) := by
  refine ⟨fun t htarget => (ho.1 t htarget).imp_right fun hz z hz' => ?_, ho.2⟩
  obtain ⟨y, hy, rfl⟩ := mem_map.1 hz'
  have hne : t ≠ j := fun e => ht (e ▸ htarget)
  rw [getD_update ((hg.bits y hy).1 ▸ hj), if_neg hne]
  exact hz y hy

lemma Stack.update (hs : Stack n (g :: waiting)) (hne : g.parities ≠ []) (ht : g.target ≠ some j)
    (hall : ∀ y ∈ g.parities, y.getD j 0 ≠ 0) : Stack n (g.update i j :: waiting.map (Group.update i j)) := by
  obtain ⟨y, hy⟩ := exists_mem_of_ne_nil _ hne
  have hg := hs.fit g (by simp)
  have hw := (hg.within y hy j (((hg.bits y hy).2 j).resolve_left (hall y hy))).resolve_right ht
  have htarget : ∀ x ∈ g :: waiting, x.target ≠ some j := by
    refine forall_mem_cons.2 ⟨ht, fun x hx e => ?_⟩
    rcases ((pairwise_cons.1 hs.above).1 x hx).1 j e with h | h
    · exact ht h
    · exact hall y hy (h y hy)
  have hwires : ∀ x ∈ g :: waiting, j ∈ x.wires := forall_mem_cons.2 ⟨hw, fun x hx =>
    (((pairwise_cons.1 hs.above).1 x hx).2 j hw).resolve_right (htarget x (by simp [hx]))⟩
  rw [← map_cons]
  refine ⟨fun x hx => ?_, ?_⟩
  · obtain ⟨x', hx', rfl⟩ := mem_map.1 hx
    exact (hs.fit x' hx').update (hwires x' hx') (htarget x' hx')
  · exact pairwise_map.2 (hs.above.imp_of_mem fun {a b} ha hb h => h.update (hs.fit a ha) (hg.wires j hw) (htarget b hb))

/-! ## What is on the wires -/

def bits (n : Nat) (y : Array Int) : Fin n → ZMod 2 := fun k => (y.getD k 0 : ZMod 2)

lemma bits_update (hy : y.size = n) (h : Inside n j i) : Matrix.vecMul (bits n (update i j y)) (additions n [(j, i)]) = bits n y := by
  obtain ⟨hj, hi, hji⟩ := h
  have get := getD_update (i := i) (hy ▸ hj)
  have e : additions n [(j, i)] = 1 + Matrix.single ⟨i, hi⟩ ⟨j, hj⟩ 1 := by simp [additions, hi, hj, Matrix.transvection]
  have row : ∀ k, Matrix.vecMul (bits n (update i j y)) (Matrix.single ⟨i, hi⟩ ⟨j, hj⟩ 1) k =
      if (⟨j, hj⟩ : Fin n) = k then (y.getD i 0 : ZMod 2) else 0 := fun k => by
    have hi' : bits n (update i j y) ⟨i, hi⟩ = (y.getD i 0 : ZMod 2) := by rw [bits, get, if_neg (Ne.symm hji)]
    rw [← hi']
    simp [Matrix.vecMul, dotProduct, Matrix.single_apply, ite_and]
  rw [e, Matrix.vecMul_add, Matrix.vecMul_one]
  funext k
  rw [Pi.add_apply, row, bits, get, bits]
  by_cases hk : (⟨j, hj⟩ : Fin n) = k
  · subst hk
    rw [if_pos rfl, if_pos rfl, show (2 : ℤ) = (2 : ℕ) from rfl, ZMod.intCast_mod, Int.cast_add, add_right_comm,
      CharTwo.add_self_eq_zero, zero_add]
  · rw [if_neg hk, if_neg fun h => hk (Fin.ext h.symm), add_zero]

/-- Every parity has been on a wire, or the rows of the gates so far add up to it as a group tells. -/
structure Tracks (n : Nat) (vs : List (Array Int)) (groups : List Group) (gates : List (Nat × Nat)) : Prop where
  stack : Stack n groups
  inside : ∀ s ∈ gates, Inside n s.1 s.2
  found : ∀ v ∈ vs, bits n v ≠ 0 → (∃ p, p <+: gates.reverse ∧ ∃ r, additions n p r = bits n v) ∨
    ∃ g ∈ groups, ∃ y ∈ g.parities, Matrix.vecMul (bits n y) (additions n gates.reverse) = bits n v

lemma Tracks.update (h : Tracks n vs (g :: waiting) gates) (hne : g.parities ≠ []) (hin : Inside n j i) (ht : g.target ≠ some j)
    (hall : ∀ y ∈ g.parities, y.getD j 0 ≠ 0) : Tracks n vs (g.update i j :: waiting.map (Group.update i j)) ((j, i) :: gates) where
  stack := h.stack.update hne ht hall
  inside := forall_mem_cons.2 ⟨hin, h.inside⟩
  found v hv h0 := by
    rw [reverse_cons, ← map_cons (f := Group.update i j)]
    refine (h.found v hv h0).imp (fun ⟨p, hp, hr⟩ => ⟨p, hp.trans (prefix_append _ _), hr⟩) fun ⟨x, hx, y, hy, e⟩ =>
      ⟨x.update i j, mem_map_of_mem hx, ParityNetwork.update i j y, mem_map_of_mem hy, ?_⟩
    rw [additions_append, ← Matrix.vecMul_vecMul, bits_update (((h.stack.fit x hx).bits y hy).1) hin, e]

lemma Tracks.drop (h : Tracks n vs (g :: waiting) gates) (he : g.parities = [] ∨ g.wires = []) : Tracks n vs waiting gates where
  stack := ⟨fun x hx => h.stack.fit x (by simp [hx]), (pairwise_cons.1 h.stack.above).2⟩
  inside := h.inside
  found v hv h0 := by
    rcases h.found v hv h0 with hf | ⟨x, hx, y, hy, e⟩
    · exact .inl hf
    rcases mem_cons.1 hx with rfl | hx
    swap
    · exact .inr ⟨x, hx, y, hy, e⟩
    have hfit := h.stack.fit x (by simp)
    have hw := he.resolve_left (ne_nil_of_mem hy)
    have only : ∀ k, y.getD k 0 = 1 → x.target = some k := fun k hk => (hfit.within y hy k hk).resolve_left (by simp [hw])
    obtain ⟨k, hk⟩ : ∃ k, bits n y k ≠ 0 := by
      by_contra hall
      have hz : bits n y = 0 := funext fun k => not_not.1 fun h => hall ⟨k, h⟩
      rw [hz, Matrix.zero_vecMul] at e
      exact h0 e.symm
    have one : y.getD k 0 = 1 := ((hfit.bits y hy).2 k).resolve_left fun h => hk (by simp [bits, h])
    have hbits : bits n y = Pi.single k 1 := by
      funext c
      by_cases hc : c = k
      · rw [hc, bits, one, Pi.single_eq_same, Int.cast_one]
      have hc' : y.getD c 0 = 0 := ((hfit.bits y hy).2 c).resolve_right fun h =>
        hc (Fin.ext (Option.some.inj ((only c h).symm.trans (only k one))))
      rw [bits, hc', Pi.single_eq_of_ne hc, Int.cast_zero]
    rw [hbits, Matrix.single_one_vecMul] at e
    exact .inl ⟨_, prefix_rfl, k, e⟩

def Group.weight (g : Group) : Nat := 2 * g.parities.length * (g.parities.length + g.wires.length) + 1

lemma Group.weight_update (g : Group) (i j : Nat) : (g.update i j).weight = g.weight := by simp [Group.weight, Group.update]

/-- A wire other than the target that all parities of a group hold. -/
def Group.Common (g : Group) (i j : Nat) : Bool := j != i && g.parities.all fun y => y.getD j 0 != 0

lemma Group.Fit.common_update (hg : g.Fit n) (ht : g.target = some i) (hne : g.parities ≠ []) (hj : j < n) (h : g.Common i j)
    {k : Nat} (hk : (g.update i j).Common i k) : k ≠ j ∧ g.Common i k := by
  simp only [Group.Common, Group.update, Bool.and_eq_true, bne_iff_ne, all_eq_true, forall_mem_map] at h hk ⊢
  have get : ∀ y ∈ g.parities, _ := fun y hy => getD_update (i := i) ((hg.bits y hy).1 ▸ hj) k
  obtain ⟨y, hy⟩ := exists_mem_of_ne_nil _ hne
  have hkj : k ≠ j := by
    rintro rfl
    refine hk.2 y hy ?_
    rw [get y hy, if_pos rfl, hg.target i ht y hy, ((hg.bits y hy).2 k).resolve_left (h.2 y hy)]
    rfl
  refine ⟨hkj, hk.1, fun z hz => ?_⟩
  have := hk.2 z hz
  rwa [get z hz, if_neg hkj] at this

/-- A gate leaves fewer wires that all parities of a group hold. -/
lemma Group.Fit.card_common_update (hg : g.Fit n) (ht : g.target = some i) (hne : g.parities ≠ []) (hj : j < n)
    (h : g.Common i j) : ((Finset.range n).filter ((g.update i j).Common i ·)).card < ((Finset.range n).filter (g.Common i ·)).card := by
  have key := fun k => hg.common_update ht hne hj h (k := k)
  refine Finset.card_lt_card ⟨fun k hk => ?_, fun hsub => ?_⟩
  · obtain ⟨hkn, hk⟩ := Finset.mem_filter.1 hk
    exact Finset.mem_filter.2 ⟨hkn, (key k hk).2⟩
  · exact (key j (Finset.mem_filter.1 (hsub (Finset.mem_filter.2 ⟨Finset.mem_range.2 hj, h⟩))).2).1 rfl

/-! ## Splits -/

lemma weight_split {p p0 p1 w w0 w1 : Nat} (hp : 0 < p) (h : p0 + p1 ≤ p) (h0 : p0 + w0 < p + w) (h1 : p1 + w1 < p + w) :
    2 * p0 * (p0 + w0) + 1 + (2 * p1 * (p1 + w1) + 1) < 2 * p * (p + w) + 1 := by
  obtain ⟨t, ht⟩ : ∃ t, p + w = t + 1 := ⟨p + w - 1, by omega⟩
  nlinarith

lemma splitWire_mem {ws : List Nat} (h : splitWire g ws = some j) : j ∈ ws := by
  cases ws with
  | nil => cases h
  | cons k ws =>
    rw [← Option.some.inj h]
    exact foldl_choose_mem (fun best k => agreement g best < agreement g k) ws k

lemma length_zeros_add (hg : g.Fit n) (j : Nat) :
    (zeros g j).parities.length + (g.parities.filter fun y => y.getD j 0 == 1).length = g.parities.length := by
  rw [length_eq_length_filter_add (l := g.parities) fun y => y.getD j 0 == 0]
  congr 2
  exact filter_congr fun y hy => by rcases (hg.bits y hy).2 j with e | e <;> simp [e]

/-- **A split** leaves fewer parities or fewer wires on either side. -/
theorem weight_lt (hg : g.Fit n) (hne : g.parities ≠ []) (hj : j ∈ g.wires) (hc : ∀ i ∈ g.target, ¬ g.Common i j) :
    (zeros g j).weight + (ones g j).weight < g.weight := by
  have hlen := length_zeros_add hg j
  have hpos := length_pos_iff.2 hne
  have hfewer : ∀ {k}, k ∈ g.wires → (g.wires.filter (· != k)).length < g.wires.length := fun {k} hk =>
    length_filter_lt_length_iff_exists.2 ⟨k, hk, by simp⟩
  have hle : ∀ p : Array Int → Bool, (g.parities.filter p).length ≤ g.parities.length := fun p => length_filter_le _ _
  have hzeros : (zeros g j).parities.length + (zeros g j).wires.length < g.parities.length + g.wires.length :=
    Nat.add_lt_add_of_le_of_lt (hle _) (hfewer hj)
  rw [ones]
  refine weight_split hpos hlen.le hzeros ?_
  by_cases e : g.target.getD j = j
  · rw [e]
    exact Nat.add_lt_add_of_le_of_lt (hle _) (hfewer hj)
  -- some parity does not hold the wire
  have hsome : (zeros g j).parities ≠ [] := fun hnil => by
    cases ht : g.target with
    | none => simp [ht] at e
    | some i =>
      have hji : j ≠ i := fun h => e (by simp [ht, h])
      refine hc i ht ?_
      simp only [Group.Common, Bool.and_eq_true, bne_iff_ne]
      exact ⟨hji, by simpa using filter_eq_nil_iff.1 hnil⟩
  have hpos' := length_pos_iff.2 hsome
  have hlt : (g.parities.filter fun y => y.getD j 0 == 1).length < g.parities.length := by omega
  exact Nat.add_lt_add_of_lt_of_le hlt (length_filter_le _ _)

lemma Stack.split (hs : Stack n (g :: waiting)) (hj : j ∈ g.wires) : Stack n (zeros g j :: ones g j :: waiting) := by
  have hg := hs.fit g (by simp)
  obtain ⟨hover, hrest⟩ := pairwise_cons.1 hs.above
  have less : ∀ k, ∀ x ∈ g.wires.filter (· != k), x < n := fun k x hx => hg.wires x (mem_of_mem_filter hx)
  have sub : ∀ {y} {p : Array Int → Bool}, y ∈ g.parities.filter p → y ∈ g.parities := mem_of_mem_filter
  have hzeros : (zeros g j).Fit n := by
    refine ⟨less j, hg.below, fun y hy => hg.bits y (sub hy), fun i hi y hy => hg.target i hi y (sub hy), fun y hy k hk => ?_⟩
    refine (hg.within y (sub hy) k hk).imp_left fun hw => mem_filter.2 ⟨hw, bne_iff_ne.2 ?_⟩
    rintro rfl
    simpa [hk] using (mem_filter.1 hy).2
  rw [ones]
  generalize e : g.target.getD j = i
  have hi : g.target = some i ∨ i = j := by
    cases ht : g.target with
    | none => exact .inr (by rw [← e, ht]; rfl)
    | some k => exact .inl (by rw [← e, ht]; rfl)
  have keep : ∀ {k}, k ∈ g.wires → k ∈ g.wires.filter (· != i) ∨ some i = some k := fun {k} hk => by
    by_cases hki : k = i
    · exact .inr (by rw [hki])
    · exact .inl (mem_filter.2 ⟨hk, bne_iff_ne.2 hki⟩)
  have hones : Group.Fit n ⟨g.parities.filter fun y => y.getD j 0 == 1, g.wires.filter (· != i), some i⟩ := by
    refine ⟨less i, ?_, fun y hy => hg.bits y (sub hy), ?_, fun y hy k hk => (hg.within y (sub hy) k hk).elim keep fun hk =>
      .inr (by rw [← e, hk]; rfl)⟩ <;> rintro _ ⟨⟩
    · rcases hi with h | rfl
      · exact hg.below i h
      · exact hg.wires i hj
    intro y hy
    rcases hi with h | rfl
    · exact hg.target i h y (sub hy)
    · simpa using (mem_filter.1 hy).2
  refine ⟨forall_mem_cons.2 ⟨hzeros, forall_mem_cons.2 ⟨hones, fun x hx => hs.fit x (by simp [hx])⟩⟩, pairwise_cons.2
    ⟨forall_mem_cons.2 ⟨⟨?_, fun k hk => keep (mem_of_mem_filter hk)⟩, fun x hx => ⟨fun t ht => ((hover x hx).1 t ht).imp_right
      fun h y hy => h y (sub hy), fun k hk => (hover x hx).2 k (mem_of_mem_filter hk)⟩⟩, pairwise_cons.2
    ⟨fun x hx => ⟨fun t ht => ((hover x hx).1 t ht).imp (fun h => ?_) fun h y hy => h y (sub hy),
      fun k hk => (hover x hx).2 k (mem_of_mem_filter hk)⟩, hrest⟩⟩⟩
  · rintro _ ⟨⟩
    rcases hi with h | rfl
    · exact .inl h
    · exact .inr fun y hy => by simpa using (mem_filter.1 hy).2
  · rw [← e, h]
    rfl

lemma Tracks.split (h : Tracks n vs (g :: waiting) gates) (hj : j ∈ g.wires) : Tracks n vs (zeros g j :: ones g j :: waiting) gates where
  stack := h.stack.split hj
  inside := h.inside
  found v hv h0 := by
    refine (h.found v hv h0).imp_right fun ⟨x, hx, y, hy, e⟩ => ?_
    rcases mem_cons.1 hx with rfl | hx
    · rcases ((h.stack.fit x (by simp)).bits y hy).2 j with hz | hz
      · exact ⟨zeros x j, by simp, y, mem_filter.2 ⟨hy, by simp [hz]⟩, e⟩
      · exact ⟨ones x j, by simp, y, mem_filter.2 ⟨hy, by simp [hz]⟩, e⟩
    · exact ⟨x, by simp [hx], y, hy, e⟩

end ParityNetwork

end ZXCircuits
