/-
  The loop over the blocks of a circuit.

  In every round the gates done, the block, the Hadamards after it and the gates in the lanes are, in this order, the gates of
  the circuit (`Blocks.reduceLanes_ends`).
-/
import ZXCircuits.Optimise.Blocks
import ZXCircuits.Proofs.Blocks.Reducing

namespace ZXCircuits

open List Function Course PhaseBlock RandomRun

variable {n : ℕ}

namespace Blocks

variable {gs : List Gate}

/-! ## Gates put into lanes -/

def numbered (gs : List Gate) : List Gate := (gs.zip (range gs.length)).map fun p => { p.1 with index := p.2 }

lemma mem_numbered {g : Gate} (h : g ∈ numbered gs) : ∃ k ∈ gs, ∃ i, g = { k with index := i } := by
  obtain ⟨p, hp, rfl⟩ := mem_map.1 h
  exact ⟨p.1, (of_mem_zip hp).1, p.2, rfl⟩

lemma map_fst_zip_range (gs : List Gate) : (gs.zip (range gs.length)).map Prod.fst = gs := map_fst_zip (by simp)

lemma courseOf_numbered (gs : List Gate) : courseOf (numbered gs) = courseOf gs := by
  conv_rhs => rw [← map_fst_zip_range gs]
  simp only [courseOf, numbered, map_map]
  rfl

lemma weightOf_numbered (gs : List Gate) : weightOf (numbered gs) = weightOf gs := by
  conv_rhs => rw [← map_fst_zip_range gs]
  simp only [weightOf, numbered, map_map]
  rfl

lemma ascending_numbered (gs : List Gate) : (numbered gs).Pairwise fun a b => a.index < b.index := by
  have : (numbered gs).map Gate.index = range gs.length := by
    simp only [numbered, map_map]
    exact map_snd_zip (by simp)
  have h : ((numbered gs).map Gate.index).Pairwise (· < ·) := this ▸ pairwise_lt_range
  exact pairwise_map.1 h

variable {lanes : Lanes} {l : List Gate} {g : Gate} {qubits : Int}

lemma onWire_control (hg : g.IsLaid n) (hl : g.isLinked) : OnWire n g.control := hg.onWire ((hg.role_ne_absent_iff _).2 (.inr ⟨hl, rfl⟩))

section

variable (h : Shows n lanes (deal l)) (hg : g.IsLaid n)
include h hg

lemma place_makes : Makes (place lanes g) fun lanes' => Shows n lanes' (deal (l ++ [g])) := by
  rw [place, ← laidOnto_deal]
  have wires := hg.role_ne_absent_iff
  cases hl : g.isLinked with
  | true =>
    obtain ⟨l1, l2, e1, e2, hs⟩ := h.pushTwo (onWire_control hg hl) hg.onWire_target (hg.control_ne_target hl)
      fun v => by rw [wires, hl, or_comm]; simp
    simp only [if_true, e1, hg.onTarget_eq, bind, Except.bind, e2]
    exact .ok hs
  | false =>
    obtain ⟨l2, e2, hs⟩ := h.pushOne hg.onWire_target fun v => by rw [wires, hl]; simp
    simp only [Bool.false_eq_true, if_false, hg.onTarget_eq, bind, Except.bind, pure, Except.pure, e2]
    exact .ok hs

lemma placeBack_makes : Makes (do
      let l ← lanes.push (← g.onTarget) g
      if g.isLinked then l.push g.control g else return l) fun lanes' => Shows n lanes' (deal (l ++ [g])) := by
  rw [← laidOnto_deal]
  have wires := hg.role_ne_absent_iff
  cases hl : g.isLinked with
  | true =>
    obtain ⟨l1, l2, e1, e2, hs⟩ := h.pushTwo hg.onWire_target (onWire_control hg hl) (hg.control_ne_target hl).symm
      fun v => by rw [wires, hl]; simp
    simp only [hg.onTarget_eq, bind, Except.bind, e1, if_true, e2]
    exact .ok hs
  | false =>
    obtain ⟨l1, e1, hs⟩ := h.pushOne hg.onWire_target fun v => by rw [wires, hl]; simp
    simp only [hg.onTarget_eq, bind, Except.bind, e1]
    exact .pure hs

end

lemma placeAll_makes {f : Lanes → Gate × Nat → Attempt Lanes} (hg : ∀ g ∈ gs, g.IsLaid n)
    (step : ∀ lanes l p, Shows n lanes (deal l) → p.1 ∈ gs →
      Makes (f lanes p) fun lanes' => Shows n lanes' (deal (l ++ [{ p.1 with index := p.2 }])))
    (qubits : Int) (hq : qubits.toNat = n) :
    Makes ((gs.zip (range gs.length)).foldlM f (Lanes.empty qubits)) fun lanes => Dealt n lanes (numbered gs) := by
  have start : Shows n (Lanes.empty qubits) (deal []) := hq ▸ .empty qubits
  have all := Makes.foldlM (l := gs.zip (range gs.length)) (d := [])
    (I := fun ps lanes => Shows n lanes (deal (ps.map fun p => { p.1 with index := p.2 })))
    (fun ps lanes p hp h => by simpa using step lanes _ p h (of_mem_zip hp).1) start
  refine all.mono fun lanes h => ⟨h, fun g hgm => ?_, ascending_numbered gs⟩
  obtain ⟨k, hk, i, rfl⟩ := mem_numbered hgm
  exact hg k hk

lemma check_of_lanesOf (qubits : Int) (gs : List Gate) : Gives (lanesOf qubits gs) fun _ => ∀ g ∈ gs, check g = .ok () := by
  have key : ∀ (ps : List (Gate × Nat)) (lanes : Lanes), Gives (ps.foldlM (fun l (x : Gate × Nat) => do
      check x.1
      place l { x.1 with index := x.2 }) lanes) fun _ => ∀ p ∈ ps, check p.1 = .ok () := by
    intro ps
    induction ps with
    | nil => exact fun lanes => .pure (by simp)
    | cons p ps ih =>
      intro lanes
      refine Gives.bind (P := fun _ => check p.1 = .ok ()) ?_ fun lanes' hp => (ih lanes').mono fun _ h => ?_
      · exact (Gives.self (check p.1)).bind fun _ h _ _ => h
      · exact forall_mem_cons.2 ⟨hp, h⟩
  refine (key _ (Lanes.empty qubits)).mono fun _ h g hg => ?_
  rw [← map_fst_zip_range gs] at hg
  obtain ⟨p, hp, rfl⟩ := mem_map.1 hg
  exact h p hp

lemma lanesOf_gives (hg : ∀ g ∈ gs, g.IsLaid n) (hq : qubits.toNat = n) :
    Gives (lanesOf qubits gs) fun lanes => Dealt n lanes (numbered gs) := by
  intro lanes e
  have checked := check_of_lanesOf qubits gs lanes e
  refine (placeAll_makes hg (fun lanes l p h hp => ?_) qubits hq).gives lanes e
  obtain ⟨g, i⟩ := p
  dsimp only
  rw [checked g hp]
  exact place_makes h (hg g hp)

lemma copiesInLanes_makes (hg : ∀ g ∈ gs, g.IsLaid n) (hq : qubits.toNat = n) :
    Makes (copiesInLanes qubits gs) fun lanes => Dealt n lanes (numbered gs) := by
  refine placeAll_makes hg (fun lanes l p h hp => ?_) qubits hq
  obtain ⟨g, i⟩ := p
  have copied : g.copy = .ok g := by
    have laid := hg g hp
    obtain ⟨op, j⟩ := g
    cases op with
    | initAncilla | postSelect => exact laid.elim
    | _ => rfl
  dsimp only
  rw [copied]
  exact place_makes h (hg g hp)

lemma backLanes_makes {block hads : List Gate} (hb : ∀ g ∈ block, g.IsLaid n) (hh : ∀ g ∈ hads, g.IsLaid n) (hq : qubits.toNat = n) :
    Makes (backLanes qubits block hads) fun lanes => Dealt n lanes (numbered (hads ++ block.reverse)) := by
  have hg : ∀ g ∈ hads ++ block.reverse, g.IsLaid n := forall_mem_append.2 ⟨hh, fun g hg => hb g (mem_reverse.1 hg)⟩
  exact placeAll_makes hg (fun lanes l p h hp => placeBack_makes h (hg p.1 hp)) qubits hq

/-! ## What remains in lanes -/

def addDistinct (acc : List Gate) (g : Gate) : List Gate := if acc.any (·.index == g.index) then acc else acc ++ [g]

lemma foldl_distinct (xs acc : List Gate) (ha : acc.Pairwise fun a b => a.index ≠ b.index) :
    (xs.foldl addDistinct acc).Pairwise (fun a b => a.index ≠ b.index) ∧ (∀ g ∈ xs.foldl addDistinct acc, g ∈ acc ∨ g ∈ xs) ∧
      ∀ g, g ∈ acc ∨ g ∈ xs → ∃ k ∈ xs.foldl addDistinct acc, k.index = g.index := by
  induction xs generalizing acc with
  | nil => exact ⟨ha, fun g hg => .inl hg, fun g hg => ⟨g, by simpa using hg, rfl⟩⟩
  | cons x xs ih =>
    rw [foldl_cons, addDistinct]
    split
    · rename_i hx
      obtain ⟨h1, h2, h3⟩ := ih acc ha
      refine ⟨h1, fun g hg => (h2 g hg).imp id (mem_cons_of_mem _), fun g hg => ?_⟩
      rcases hg with hg | hg
      · exact h3 g (.inl hg)
      rcases mem_cons.1 hg with rfl | hg
      · obtain ⟨k, hk, e⟩ := any_eq_true.1 hx
        obtain ⟨k', hk', e'⟩ := h3 k (.inl hk)
        exact ⟨k', hk', e'.trans (by simpa using e)⟩
      · exact h3 g (.inr hg)
    rename_i hx
    have hnew : ∀ a ∈ acc, a.index ≠ x.index := fun a ha e => hx (any_eq_true.2 ⟨a, ha, by simpa using e⟩)
    obtain ⟨h1, h2, h3⟩ := ih (acc ++ [x]) (pairwise_append.2 ⟨ha, by simp, fun a ha b hb => by
      rw [mem_singleton.1 hb]
      exact hnew a ha⟩)
    refine ⟨h1, fun g hg => ?_, fun g hg => h3 g ?_⟩
    · rcases h2 g hg with hg | hg
      · rcases mem_append.1 hg with hg | hg
        · exact .inl hg
        · exact .inr (by simp [mem_singleton.1 hg])
      · exact .inr (mem_cons_of_mem _ hg)
    rcases hg with hg | hg
    · exact .inl (by simp [hg])
    rcases mem_cons.1 hg with rfl | hg
    · exact .inl (by simp)
    · exact .inr hg

lemma nil_of_isEmpty (hd : Dealt n lanes l) (h : lanes.isEmpty) : l = [] := by
  refine eq_nil_iff_forall_not_mem.2 fun g hg => ?_
  obtain ⟨u, hu, hgu⟩ := mem_flatten.1 ((Consume.mem_lanes hd).2 hg)
  have : u = [] := by simpa using all_eq_true.1 h u hu
  rw [this] at hgu
  cases hgu

lemma remaining_eq (hd : Dealt n lanes l) : remaining lanes = l.reverse := by
  rw [show remaining lanes = (lanes.toList.flatten.foldl addDistinct []).mergeSort fun a b => b.index ≤ a.index from rfl]
  obtain ⟨h1, h2, h3⟩ := foldl_distinct lanes.toList.flatten [] List.Pairwise.nil
  revert h1 h2 h3
  generalize lanes.toList.flatten.foldl addDistinct [] = all
  intro h1 h2 h3
  have hmem : ∀ g ∈ all, g ∈ l := fun g hg => (Consume.mem_lanes hd).1 ((h2 g hg).resolve_left (by simp))
  have hperm : all.Perm l := by
    refine (perm_ext_iff_of_nodup (h1.imp fun h e => h (by rw [e])) hd.nodup).2 fun g => ⟨hmem g, fun hg => ?_⟩
    obtain ⟨k, hk, e⟩ := h3 g (.inr ((Consume.mem_lanes hd).2 hg))
    exact hd.eq_of_index (hmem k hk) hg e ▸ hk
  have hsort : (all.mergeSort fun a b => decide (b.index ≤ a.index)).Pairwise fun a b => b.index ≤ a.index := by
    refine (pairwise_mergeSort (fun a b c hab hbc => ?_) (fun a b => ?_) all).imp fun h => by simpa using h
    · simp only [decide_eq_true_eq] at hab hbc ⊢
      omega
    · simp only [Bool.or_eq_true, decide_eq_true_eq]
      omega
  have hrev : l.reverse.Pairwise fun a b => b.index ≤ a.index := pairwise_reverse.2 (hd.ascending.imp fun h => h.le)
  refine Perm.eq_of_pairwise (fun a b ha hb hab hba => ?_) hsort hrev (((mergeSort_perm _ _).trans hperm).trans (reverse_perm l).symm)
  exact hd.eq_of_index (hmem a (mem_mergeSort.1 ha)) (mem_reverse.1 hb) (by omega)

/-- Gates that are put into lanes in this order give the lanes. -/
def IsReading (n : ℕ) (lanes : Lanes) (gs : List Gate) : Prop := (∀ g ∈ gs, g.IsLaid n) ∧ Shows n lanes (deal gs)

/-- **Lanes have one course**, in whatever order they are read. -/
theorem courseOf_reading (hd : Dealt n lanes l) (h : IsReading n lanes gs) : courseOf l = courseOf gs := by
  have e : deal l = deal gs := hd.shows.val.symm.trans h.2.val
  have mem : ∀ {l m : List Gate}, (∀ g ∈ l, g.IsLaid n) → deal l = deal m → ∀ g ∈ l, g ∈ m := fun laid e g hg => by
    have := mem_deal.2 ⟨hg, ((laid g hg).role_ne_absent_iff _).2 (.inl rfl)⟩
    rw [e] at this
    exact (mem_deal.1 this).1
  have nodup : gs.Nodup := nodup_iff_count_le_one.2 fun g => by
    by_cases hg : g ∈ gs
    · have hr := ((h.1 g hg).role_ne_absent_iff _).2 (.inl rfl)
      calc gs.count g = (deal gs g.target).count g := (count_filter (by simpa using hr)).symm
        _ = (deal l g.target).count g := by rw [e]
        _ ≤ 1 := nodup_iff_count_le_one.1 (hd.nodup.filter _) g
    · rw [count_eq_zero_of_not_mem hg]
      exact Nat.zero_le _
  refine courseOf_eq_of_motionOf <| motionOf_eq_of_order hd.nodup nodup (fun g => ⟨mem hd.laid e g, mem h.1 e.symm g⟩) hd.laid fun w a b hc hp => ?_
  have := Consume.precedes_deal hp hc.1 hc.2.1
  rw [e] at this
  exact this.trans filter_sublist

/-! ## Hadamards -/

lemma courseOf_hads_reverse {hads : List Gate} (h : ∀ g ∈ hads, g.isHad) : courseOf hads.reverse = courseOf hads := by
  have comm : ∀ a ∈ hads, ∀ b ∈ hads, Commute (Course.of a.op.motion) (Course.of b.op.motion) := by
    intro a ha b hb
    obtain ⟨oa, ia⟩ := a
    obtain ⟨ob, ib⟩ := b
    have h1 := h _ ha
    have h2 := h _ hb
    cases oa with
    | had s =>
      cases ob with
      | had t => exact commute_h_h s t
      | _ => cases h2
    | _ => cases h1
  refine (Perm.map _ (reverse_perm hads)).prod_eq' ?_
  rw [pairwise_map]
  exact pairwise_of_forall_mem_list fun a ha b hb => comm a (mem_reverse.1 ha) b (mem_reverse.1 hb)

lemma weightOf_hads {hads : List Gate} (h : ∀ g ∈ hads, g.isHad) : weightOf hads = 0 := weightOf_eq_zero fun g hg => by
  have hg := h g hg
  obtain ⟨op, i⟩ := g
  cases op with
  | had => rfl
  | _ => cases hg

/-! ## Rounds -/

lemma isEighths_of_inBlock {g : Gate} (h : Consume.InBlock n l g) (hl : ∀ k ∈ l, k.isZRotation → (k.phase * 4).den = 1) :
    g.IsEighths n := by
  refine ⟨h.1, h.2.1, fun hz => ?_⟩
  rcases h.2.2 with hk | hk
  · obtain ⟨op, i⟩ := g
    cases op with
    | pair k c t => cases hz
    | _ => cases hk
  · exact hl g hk hz

lemma courseOf_taken_back {block hads moved hads' l' : List Gate} (hb : ∀ g ∈ block, g.IsLaid n)
    (hh : ∀ g ∈ hads, g.IsLaid n ∧ g.isHad) (hm : ∀ g ∈ moved, g.IsLaid n)
    (hh' : ∀ g ∈ hads', g.IsLaid n ∧ g.isHad) (hl' : ∀ g ∈ l', g.IsLaid n)
    (hc : courseOf (hads ++ block.reverse) = courseOf moved * courseOf hads' * courseOf l') :
    courseOf block * courseOf hads = courseOf l'.reverse * (courseOf hads' * courseOf moved.reverse) := by
  have symmetric : ∀ {gs : List Gate}, (∀ g ∈ gs, g.IsLaid n) → ∀ g ∈ gs, g.op.IsSymmetric := fun h g hg =>
    (h g hg).isPlain.isSymmetric
  have hleft : ∀ g ∈ hads ++ block.reverse, g.IsLaid n :=
    forall_mem_append.2 ⟨fun g hg => (hh g hg).1, fun g hg => hb g (mem_reverse.1 hg)⟩
  have hright : ∀ g ∈ moved ++ hads' ++ l', g.IsLaid n :=
    forall_mem_append.2 ⟨forall_mem_append.2 ⟨hm, fun g hg => (hh' g hg).1⟩, hl'⟩
  have turned := courseOf_reverse_eq (symmetric hleft) (symmetric hright) (by rw [hc, courseOf_append, courseOf_append])
  simpa only [reverse_append, reverse_reverse, courseOf_append, courseOf_hads_reverse fun g hg => (hh g hg).2,
    courseOf_hads_reverse fun g hg => (hh' g hg).2] using turned

variable {σ : Type} [Random.Source σ]

/-- **The loop over the blocks keeps the course of the gates**, with no more T gates. -/
theorem reduceLanes_ends (verbose : Bool) (fuel : Nat) {lanes : Lanes}
    {l done block hads : List Gate} (hd : Dealt qubits.toNat lanes l) (hl : ∀ k ∈ l, k.isZRotation → (k.phase * 4).den = 1)
    (hb : ∀ g ∈ block, g.IsEighths qubits.toNat) (hh : ∀ g ∈ hads, g.IsLaid qubits.toNat ∧ g.isHad) :
    Ends (reduceLanes qubits verbose fuel lanes done block hads : RandomRun σ (List Gate)) fun out =>
      courseOf out = courseOf done * courseOf block * courseOf hads * courseOf l ∧
        weightOf out ≤ weightOf done + weightOf block + weightOf l ∧ ∀ g ∈ out, g ∈ done ∨ g.isAncilla = false := by
  induction fuel generalizing lanes l done block hads with
  | zero => exact Ends.throw _
  | succ fuel ih =>
    refine Ends.ite (fun he => Ends.pure ?_) fun _ => ?_
    · rw [nil_of_isEmpty hd he, courseOf_append, courseOf_append, courseOf_nil, mul_one, weightOf_append, weightOf_append,
        weightOf_hads fun g hg => (hh g hg).2]
      exact ⟨rfl, le_rfl, forall_mem_append.2 ⟨forall_mem_append.2 ⟨fun g => .inl, fun g hg => .inr (hb g hg).1.isPlain.isAncilla⟩,
        fun g hg => .inr (hh g hg).1.isPlain.isAncilla⟩⟩
    refine Ends.bind (Ends.lift (Run.Ends.sayIf _ _)) fun _ _ => ?_
    refine (Ends.ofExcept (backLanes_makes (fun g hg => (hb g hg).1) (fun g hg => (hh g hg).1) rfl).gives).bind fun back hback => ?_
    refine (Ends.lift (consume_yields hback).ends).bind fun r hr => ?_
    obtain ⟨rest, moved, hads'⟩ := r
    obtain ⟨l', hd', hsub, hmoved, hhads', hc, hw⟩ := hr
    refine Ends.ite (fun _ => Ends.bind (P := fun _ => False) (Ends.throw _) fun _ h => h.elim) fun _ => ?_
    refine (Ends.lift (consume_yields hd).ends).bind fun r hr => ?_
    obtain ⟨lanes2, new, hads2⟩ := r
    obtain ⟨l2, hd2, hsub2, hnew, hhads2, hc2, hw2⟩ := hr
    have hback' : ∀ k ∈ numbered (hads ++ block.reverse), k.isZRotation → (k.phase * 4).den = 1 := by
      intro k hk hz
      obtain ⟨k', hk', i, rfl⟩ := mem_numbered hk
      rcases mem_append.1 hk' with hk' | hk'
      · have := (hh k' hk').2
        obtain ⟨op, j⟩ := k'
        cases op with
        | had t => cases hz
        | _ => cases this
      · exact (hb k' (mem_reverse.1 hk')).2.2 hz
    have heighths : ∀ g ∈ moved.reverse ++ new, g.IsEighths qubits.toNat := forall_mem_append.2
      ⟨fun g hg => isEighths_of_inBlock (hmoved g (mem_reverse.1 hg)) hback', fun g hg => isEighths_of_inBlock (hnew g hg) hl⟩
    refine (Todd.reduceBlock_ends heighths verbose).bind fun block2 hblock2 => ?_
    refine (ih hd2 (fun k hk => hl k (hsub2 k hk)) hblock2.1.1 fun g hg =>
      ⟨hd.laid g (hhads2 g hg).1, (hhads2 g hg).2⟩).mono fun out hout => ?_
    rw [courseOf_numbered] at hc
    have hturn := courseOf_taken_back (fun g hg => (hb g hg).1) hh (fun g hg => (hmoved g hg).1)
      (fun g hg => ⟨hback.laid g (hhads' g hg).1, (hhads' g hg).2⟩) (fun g hg => hback.laid g (hsub g hg)) hc
    obtain ⟨hout, hwout, hmem⟩ := hout
    have light : weightOf out ≤ weightOf done + weightOf block + weightOf l := by
      have hw' := hblock2.1.2
      simp only [remaining_eq hd', weightOf_append, weightOf_reverse, weightOf_numbered, weightOf_hads fun g hg => (hh g hg).2,
        weightOf_hads fun g hg => (hhads' g hg).2] at hw hw2 hw' hwout
      omega
    have unitary : ∀ g ∈ out, g ∈ done ∨ g.isAncilla = false := fun g hg => by
      rcases hmem g hg with hg | hg
      · rw [remaining_eq hd', mem_append, mem_append] at hg
        rcases hg with (hg | hg) | hg
        · exact .inl hg
        · exact .inr (hd'.laid g (mem_reverse.1 hg)).isPlain.isAncilla
        · exact .inr (hback.laid g (hhads' g hg).1).isPlain.isAncilla
      · exact .inr hg
    refine ⟨?_, light, unitary⟩
    rw [hout, remaining_eq hd', courseOf_append, courseOf_append, hblock2.2, courseOf_append, hc2]
    calc courseOf done * courseOf l'.reverse * courseOf hads' * (courseOf moved.reverse * courseOf new) * courseOf hads2 * courseOf l2
        = courseOf done * (courseOf l'.reverse * (courseOf hads' * courseOf moved.reverse)) *
            (courseOf new * courseOf hads2 * courseOf l2) := by simp [mul_assoc]
      _ = courseOf done * (courseOf block * courseOf hads) * (courseOf new * courseOf hads2 * courseOf l2) := by rw [hturn]
      _ = _ := by simp [mul_assoc]

end Blocks

/-- **What is consumed comes before the rest.**  A block can be consumed; the block, then its Hadamards, then the gates that remain,
    in any order that gives the lanes, have the matrix of the circuit up to a factor other than zero. -/
theorem Circuit.consume_unitary (c : Circuit) (hc : ∀ g ∈ c.gates, g.IsLaid c.qubits.toNat) :
    ∃ lanes left block hads, Blocks.copiesInLanes c.qubits c.gates = .ok lanes ∧ (consume lanes).result = .ok (left, block, hads) ∧
      Blocks.IsReading c.qubits.toNat left (Blocks.remaining left).reverse ∧
      ∀ rest, Blocks.IsReading c.qubits.toNat left rest →
        ∃ s : ℂ, s ≠ 0 ∧ matrixOn c.qubits.toNat (block ++ hads ++ rest) = s • c.unitary := by
  obtain ⟨lanes, e, hd⟩ := Blocks.copiesInLanes_makes hc rfl
  obtain ⟨⟨left, block, hads⟩, er, l', hd', -, -, -, course, -⟩ := (consume_yields hd).result
  refine ⟨lanes, left, block, hads, e, er, ?_, fun rest hrest => matrixOn_eq_smul ?_ _⟩
  · rw [Blocks.remaining_eq hd', reverse_reverse]
    exact ⟨hd'.laid, hd'.shows⟩
  · rw [courseOf_append, courseOf_append, ← Blocks.courseOf_reading hd' hrest, ← course, Blocks.courseOf_numbered]

theorem Circuit.consume_unitary_two_wires :
    let c : Circuit := { qubits := 2, gates := [.t 0 false, .had 1, .cnot 0 1, .had 0, .cnot 0 1, .s 1 true] }
    ∃ lanes left block hads, Blocks.copiesInLanes 2 c.gates = .ok lanes ∧ (consume lanes).result = .ok (left, block, hads) ∧
      ∃ s : ℂ, s ≠ 0 ∧ matrixOn 2 (block ++ hads ++ (Blocks.remaining left).reverse) = s • c.unitary := by
  intro c
  have hc : ∀ g ∈ c.gates, g.IsLaid 2 := by simp [c, Gate.IsLaid, Gate.t, Gate.s, Gate.had, Gate.cnot, Rotation.isZ]
  obtain ⟨lanes, left, block, hads, el, er, hr, h⟩ := Circuit.consume_unitary c hc
  exact ⟨lanes, left, block, hads, el, er, h _ hr⟩

end ZXCircuits
