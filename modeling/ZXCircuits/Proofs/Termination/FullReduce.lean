/-
  The main simplification comes to an end.

  A strategy halts if all large numbers of rounds give the same outcome, and that is not the failure of a loop that was cut short
  (`Run.Halts`).  Nothing but a loop fails in that way (`Definite`), so that a rule which is repeated halts if every round with places
  lowers a measure (`Rule.exhaustWithin_halts`).

  All loops but two lower the burden of the diagram.  The one at the boundary lowers the number of loose vertices without a phase, and
  the Clifford strategy goes round again only if there are fewer heavy vertices or a quarter turn has come away from the boundary, which
  the interior has to use up (`unrest`).
-/
import ZXCircuits.Proofs.Termination.Interior
import ZXCircuits.Proofs.Termination.Stalks
import ZXCircuits.Proofs.Strategy.NormalForm

namespace ZXCircuits

variable {α β σ : Type}

/-! ## Computations without a bound -/

def Definite (x : Attempt α) : Prop := x ≠ .error .stepLimit

namespace Definite

variable {x y : Attempt α} {f : α → Attempt β}

lemma ok (a : α) : Definite (.ok a : Attempt α) := by rintro ⟨⟩

lemma pure (a : α) : Definite (pure a : Attempt α) := ok a

lemma error {e : Failure} (he : e ≠ .stepLimit) : Definite (.error e : Attempt α) := fun c => he (Except.error.inj c)

lemma bind (hx : Definite x) (hf : ∀ a, Definite (f a)) : Definite (x >>= f) := by
  cases x with
  | error e => exact error fun c => hx (c ▸ rfl)
  | ok a => exact hf a

lemma ite {c : Prop} [Decidable c] (hx : Definite x) (hy : Definite y) : Definite (if c then x else y) := by
  split
  · exact hx
  · exact hy

lemma foldlM {f : σ → β → Attempt σ} (hf : ∀ s b, Definite (f s b)) (l : List β) : ∀ s : σ, Definite (l.foldlM f s) := by
  induction l with
  | nil => exact pure
  | cons b l ih =>
    intro s
    exact bind (hf s b) ih

lemma orAbsent (o : Option α) : Definite (orAbsent o) := by
  cases o with
  | none => exact error (by decide)
  | some a => exact ok a

lemma scan {μ : Type} [Ord α] {look : σ → α → Attempt (Option (Sighting σ α μ))} (hl : ∀ s a, Definite (look s a))
    (l : List α) (limit : Limit) : ∀ s gone found, Definite (scan look l limit s gone found) := by
  induction l generalizing limit with
  | nil => exact fun s gone found => pure _
  | cons a rest ih =>
    intro s gone found
    refine ite (pure _) (ite (ih _ _ _ _) (bind (hl s a) fun o => ?_))
    cases o with
    | none => exact ih _ _ _ _
    | some w => exact ih _ _ _ _

end Definite

namespace Diagram

variable (g : Diagram)

lemma setHalf_definite (v w : Vertex) (k : EdgeKind) : Definite (g.setHalf v w k) := .bind (.orAbsent _) fun _ => .pure _

lemma setEdgeKind_definite (e : Edge) (k : EdgeKind) : Definite (g.setEdgeKind e k) :=
  .bind (setHalf_definite g _ _ _) fun _ => setHalf_definite _ _ _ _

lemma addEdges_definite (es : List Edge) (k : EdgeKind) : Definite (g.addEdges es k) :=
  .foldlM (fun h e => .bind (setEdgeKind_definite h e k) fun _ => .pure _) es g

lemma dropHalf_definite (v w : Vertex) : Definite (g.dropHalf v w) :=
  .bind (.orAbsent _) fun _ => .bind (.ite (.ok _) (.error (by decide))) fun _ => .pure _

lemma removeEdge_definite (e : Edge) : Definite (g.removeEdge e) :=
  .bind (dropHalf_definite g _ _) fun _ => .bind (dropHalf_definite _ _ _) fun _ => .pure _

lemma neighbours_definite (v : Vertex) : Definite (g.neighbours v) := .bind (.orAbsent _) fun _ => .pure _

lemma removeVertices_definite (vs : List Vertex) : Definite (g.removeVertices vs) := by
  refine .foldlM (fun h v => .bind (neighbours_definite h v) fun ws => ?_) vs g
  exact .bind (.foldlM (fun k w => removeEdge_definite k _) ws h) fun _ => .pure _

lemma mergeEntry_definite (c : EdgeChanges) (entry : Edge × (Int × Int)) : Definite (mergeEntry c entry) := by
  refine .bind (.orAbsent _) fun k1 => .bind (.orAbsent _) fun k2 => ?_
  refine .ite (.ite (.pure _) (.pure _)) (.ite (.ite (.pure _) (.pure _)) (.ite (.pure _) ?_))
  exact .bind (setEdgeKind_definite _ _ _) fun _ => .pure _

lemma applyEffect_definite (e : Effect) : Definite (g.applyEffect e) := by
  have table : Definite (g.addEdgeTable e.table) :=
    .bind (.foldlM mergeEntry_definite e.table _) fun c => .bind (.foldlM removeEdge_definite _ _) fun _ =>
      .bind (addEdges_definite _ _ _) fun _ => addEdges_definite _ _ _
  refine .bind table fun _ => .bind (.foldlM removeEdge_definite e.edges _) fun _ => .bind (removeVertices_definite _ _) fun _ => ?_
  exact .ite (removeVertices_definite _ _) (.pure _)

lemma toGreen_definite : Definite g.toGreen := by
  refine .foldlM (fun h v => .ite (.pure _) (.bind (.bind (neighbours_definite h v) fun _ => .pure _) fun es => ?_)) _ g
  refine .foldlM (fun k e => ?_) es _
  unfold exchangeEdge
  split
  · exact setEdgeKind_definite k e _
  · exact setEdgeKind_definite k e _
  · exact .ok k

lemma swapPhaseIndex_definite (v w : Vertex) : Definite (g.swapPhaseIndex v w) :=
  .ite (.pure _) (.bind (.orAbsent _) fun _ => .bind (.orAbsent _) fun _ => .pure _)

lemma negatePhase_definite (v : Vertex) : Definite (g.negatePhase v) := by
  unfold negatePhase
  split
  · exact .pure _
  · exact .bind (.orAbsent _) fun _ => .pure _

lemma combine_definite (m : PhaseMaster) (a b : Fused) : Definite (g.combine m a b) := .ite (.error (by decide)) (.pure _)

lemma fuseInMaster_definite (m : PhaseMaster) (i j : Nat) : Definite (g.fuseInMaster m i j) := by
  unfold fuseInMaster
  split
  · refine .bind (.orAbsent _) fun _ => .bind (.orAbsent _) fun _ => ?_
    dsimp only
    split
    · exact .pure _
    split
    · split
      · exact .bind (.orAbsent _) fun _ => combine_definite _ _ _ _
      · exact .pure _
    · exact combine_definite _ _ _ _
  · exact .pure _

lemma fusePhases_definite (v w : Vertex) : Definite (g.fusePhases v w) := by
  unfold fusePhases
  split
  · split
    · exact .bind (fuseInMaster_definite g _ _ _) fun _ => .pure _
    · exact .pure _
  · exact .pure _

end Diagram

namespace Rule

open Diagram

variable {μ : Type}

structure Decides (r : Rule μ) : Prop where
  find : ∀ g, Definite (r.find g)
  effect : ∀ g ps, Definite (r.effect g ps)

lemma countEdge_definite (t : EdgeTable) (e : Edge) (k : EdgeKind) : Definite (Fusion.countEdge t e k) := by
  unfold Fusion.countEdge
  split
  · exact .ok _
  · exact .ok _
  · exact .ok _
  · exact .ok _
  · exact .error (by decide)

lemma fusion_decides (accept : Edge → Bool) : (fusion accept).Decides where
  find _ := .ok _
  effect g ps := by
    refine .bind (.foldlM (fun acc p => .bind (.ite (fusePhases_definite _ _ _) (.ok _)) fun h => ?_) ps _) fun _ => .pure _
    refine .bind (.bind (neighbours_definite _ _) fun ws => .foldlM (fun t w => ?_) ws _) fun _ => .pure _
    exact .ite (.pure _) (countEdge_definite _ _ _)

variable (accept : Vertex → Bool)

lemma identity_decides : (identity accept).Decides where
  find _ := .ok _
  effect _ ps := .bind (.bind (.foldlM (fun t _ => countEdge_definite t _ _) ps _) fun _ => .pure _) fun _ => .pure _

lemma localComplement_decides : (localComplement accept).Decides where
  find _ := .ok _
  effect _ _ := .ok _

lemma pivotEffect_definite (g : Diagram) (ps : List Pivot.Place) : Definite (Pivot.effect g ps) := by
  have without : ∀ v vs, Definite (Pivot.without v vs) := fun v vs => .ite (.ok _) (.error (by decide))
  have side : ∀ g v other bs, Definite (Pivot.sideOf g v other bs) := by
    intro g v other bs
    refine .bind (neighbours_definite g v) fun ns => .bind (without _ _) fun ms => ?_
    split
    · exact without _ _
    · exact .pure _
  refine .bind (.foldlM (fun c p => ?_) ps _) fun _ => .pure _
  exact .bind (swapPhaseIndex_definite _ _ _) fun _ => .bind (side _ _ _ _) fun _ => .bind (side _ _ _ _) fun _ => .pure _

lemma pivot_decides (accept : Edge → Bool) : (pivot accept).Decides := ⟨fun _ => .ok _, pivotEffect_definite⟩

lemma pivotBoundary_decides : (pivotBoundary accept).Decides where
  find g := by
    refine .bind (.scan (fun s v => .ite (.pure _) ?_) _ _ _ _ _) fun _ => .bind (addEdges_definite _ _ _) fun _ => .pure _
    dsimp only
    split
    · exact .pure _
    · exact .bind (.orAbsent _) fun _ => .bind (swapPhaseIndex_definite _ _ _) fun _ => .pure _
  effect := pivotEffect_definite

lemma pivotGadget_decides (accept : Edge → Bool) : (pivotGadget accept).Decides where
  find g := by
    refine .bind (.scan (fun s e => .ite (.pure _) ?_) _ _ _ _ _) fun _ => .bind (addEdges_definite _ _ _) fun _ => .pure _
    dsimp only
    split
    · exact .pure _
    · exact .ite (.pure _) (.bind (.orAbsent _) fun _ => .bind (swapPhaseIndex_definite _ _ _) fun _ => .pure _)
  effect := pivotEffect_definite

lemma gadget_decides : gadget.Decides where
  find g := by
    refine .foldlM (fun acc axles => ?_) _ _
    unfold Gadget.collect
    dsimp only
    split
    · exact .ite (.pure _) (.bind (negatePhase_definite _ _) fun _ => .pure _)
    refine .bind (.foldlM (fun h n => .ite (.pure _) (negatePhase_definite _ _)) _ _) fun _ => ?_
    split
    · exact .pure _
    · exact .pure _
  effect g ps := .bind (.foldlM (fun h p => .foldlM (fun k w => fusePhases_definite _ _ _) _ _) ps g) fun _ => .pure _

end Rule

/-! ## Runs with a bound -/

/-- The number of rounds that a strategy allows for a diagram, and the number left to the loop in question. -/
abbrev Allowance := (Diagram → Nat) × Nat

def Allowance.Ample (n : Nat) (i : Allowance) : Prop := (∀ h, n ≤ i.1 h) ∧ n ≤ i.2

lemma Allowance.Ample.mono {m n : Nat} {i : Allowance} (h : Ample n i) (hm : m ≤ n) : Ample m i :=
  ⟨fun g => hm.trans (h.1 g), hm.trans h.2⟩

namespace Run

open Allowance

/-- All large numbers of rounds give the same outcome, and no loop is cut short. -/
def Halts (f : Allowance → Run α) : Prop := ∀ text, ∃ n out, out.1 ≠ .error .stepLimit ∧ ∀ i, Ample n i → (ExceptT.run (f i)).run text = out

namespace Halts

variable {f : Allowance → Run α} {k : Allowance → α → Run β} {P : α → Prop}

lemma pure (a : α) : Halts fun _ => (pure a : Run α) := fun text => ⟨0, (.ok a, text), by rintro ⟨⟩, fun _ _ => rfl⟩

lemma lift {x : Attempt α} (hx : Definite x) : Halts fun _ => (liftM x : Run α) := by
  intro text
  cases x with
  | error e => exact ⟨0, (.error e, text), hx, fun _ _ => rfl⟩
  | ok a => exact ⟨0, (.ok a, text), by rintro ⟨⟩, fun _ _ => rfl⟩

lemma sayIf (verbose : Bool) (s : String) : Halts fun _ => Run.sayIf verbose s := by
  intro text
  refine ⟨0, (ExceptT.run (Run.sayIf verbose s)).run text, ?_, fun _ _ => rfl⟩
  cases verbose <;> rintro ⟨⟩

lemma bind (hf : Halts f) (he : ∀ i, Ends (f i) P) (hk : ∀ a, P a → Halts fun i => k i a) : Halts fun i => f i >>= k i := by
  intro text
  obtain ⟨n, ⟨o, text'⟩, ho, hn⟩ := hf text
  cases o with
  | error e =>
    refine ⟨n, (.error e, text'), fun c => ho (by cases c; rfl), fun i hi => ?_⟩
    rw [ExceptT.run_bind, StateT.run_bind, hn i hi]
    rfl
  | ok a =>
    have ha : P a := he (fun _ => n, n) text a text' (hn _ ⟨fun _ => le_rfl, le_rfl⟩)
    obtain ⟨m, out, ho', hm⟩ := hk a ha text'
    refine ⟨max n m, out, ho', fun i hi => ?_⟩
    rw [ExceptT.run_bind, StateT.run_bind, hn i (hi.mono (le_max_left _ _))]
    exact hm i (hi.mono (le_max_right _ _))

lemma within (hf : Halts f) (g : Diagram) : Halts fun i => f (i.1, i.1 g) := by
  intro text
  obtain ⟨n, out, ho, hn⟩ := hf text
  exact ⟨n, out, ho, fun i hi => hn _ ⟨hi.1, hi.1 g⟩⟩

lemma succ (hf : Halts fun i => f (i.1, i.2 + 1)) : Halts f := by
  intro text
  obtain ⟨n, out, ho, hn⟩ := hf text
  refine ⟨n + 1, out, ho, ?_⟩
  rintro ⟨bound, fuel⟩ hi
  obtain ⟨fuel, rfl⟩ := Nat.exists_eq_add_of_le' (Nat.le_of_add_left_le hi.2)
  exact hn (bound, fuel) ⟨fun h => (Nat.le_succ n).trans (hi.1 h), Nat.le_of_succ_le_succ hi.2⟩

end Halts

end Run

/-! ## Repeating a rule -/

namespace Rule

open Run

variable {μ γ : Type} [Preorder γ] [WellFoundedLT γ] {r : Rule μ} {P : Diagram → Prop} {R : Diagram → Diagram → Prop}
  {m : Diagram → γ}

variable (hd : r.Decides) (hr : r.Descends P R)
include hd hr

lemma repeatFrom_halts (hm : ∀ {g h}, R g h → m h < m g) (verbose : Bool) :
    ∀ (done : Nat) (g : Diagram), P g → Halts fun i => r.repeatFrom verbose i.2 done g := by
  suffices h : ∀ c : γ, ∀ done g, P g → m g = c → Halts fun i => r.repeatFrom verbose i.2 done g from
    fun done g hg => h _ done g hg rfl
  intro c
  induction c using WellFoundedLT.induction with
  | ind c ih =>
    rintro done g hg rfl
    refine .succ ?_
    refine .bind (.lift (hd.find g)) (fun _ => .lift (.self _)) ?_
    rintro ⟨h, ps⟩ hf
    by_cases he : ps = []
    · simp only [he, List.isEmpty_nil]
      exact .pure _
    simp only [List.isEmpty_iff, he]
    refine .bind (.sayIf _ _) (fun _ => .sayIf _ _) fun _ _ => ?_
    refine .bind (.sayIf _ _) (fun _ => .sayIf _ _) fun _ _ => ?_
    refine .bind (.lift (hd.effect h ps)) (fun _ => .lift (.self _)) ?_
    rintro ⟨k, e⟩ hke
    refine .bind (.lift (Diagram.applyEffect_definite k e)) (fun _ => .lift (.self _)) fun k' hk' => ?_
    refine .bind (.sayIf _ _) (fun _ => .sayIf _ _) fun _ _ => ?_
    obtain ⟨hP, hR⟩ := hr g hg _ (round_of_places hf he hke hk') (by simpa using he)
    exact ih _ (hm hR) _ k' hP rfl

lemma exhaustWithin_halts (hm : ∀ {g h}, R g h → m h < m g) (verbose : Bool)
    {g : Diagram} (hg : P g) : Halts fun i => r.exhaustWithin i.1 verbose g :=
  .bind ((repeatFrom_halts hd hr hm verbose 0 g hg).within g) (fun _ _ _ _ _ => trivial) fun _ _ =>
    .bind (.sayIf _ _) (fun _ => .sayIf _ _) fun _ _ => .pure _

end Rule

open List Finset Gadget Exact

namespace Gadget

open Diagram

variable {g h : Diagram} {ps : List Place} {v : Vertex}

lemma zero_whole : (ratio (Rat.modTwo (int 0).toRat)).Whole := (whole_int 0).modTwo

lemma Collects.merges {y : Diagram × List Place} (hc : Collects g y) (hm : Merges y.1 ps h) : Merges g ps h :=
  ⟨hc.rephased.trans hm.rephased, fun u => phase_congr hc.phases u ▸ hm.phase u⟩

lemma Merges.neat (hg : g.Neat) (found : ∀ p ∈ ps, Found g p) (hm : Merges g ps h) : h.Neat := by
  refine hg.rephased hm.rephased (fun u hu => ?_) fun b hk hw => ?_
  · rcases hm.phase u with e | ⟨_, _, _, e⟩ | ⟨_, _, _, e⟩ <;> rw [e]
    · exact hu
    · exact ⟨Rat.modTwo_nonneg _, Rat.modTwo_lt_two _⟩
    · exact ⟨Rat.modTwo_nonneg _, Rat.modTwo_lt_two _⟩
  rcases hm.phase b with e | ⟨_, _, _, e⟩ | ⟨p, hp, rfl, -⟩
  · rw [e]; exact hw
  · rw [e]; exact zero_whole
  · exact absurd hw.quarters (mem_nonClifford.1 (found p hp).leaf).2

lemma tCount_lt_of_applied {e : Effect} (hm : Merges g ps h) (found : ∀ p ∈ ps, Found g p) {k : Diagram} (ha : Applied h e k)
    {p : Place} (hp : p ∈ ps) (hv : v ∈ p.otherLeaves) (he : v ∈ e.vertices) : k.tCount < g.tCount := by
  rw [tCount_eq_card, tCount_eq_card]
  refine card_lt_card ⟨fun u hu => ?_, fun c => ?_⟩
  · exact hm.nonClifford (fun p hp => (found p hp).leaf) (Finset.mem_filter.1 (ha.nonClifford hu)).1
  · exact (Finset.mem_filter.1 (ha.nonClifford (c ((found p hp).others v hv)))).2 he

section Single

variable (hg : g.Neat) (found : ∀ p ∈ ps, Found g p) (single : ∀ p ∈ ps, p.otherLeaves = []) (hm : Merges g ps h)

include hg found single hm

/-- **Single gadgets** make nothing heavy: a leaf that has lost its phase is the axle of the vertex it hangs on. -/
theorem Merges.heavy (hv : h.Heavy v) : g.Heavy v := by
  have hr := hm.rephased
  have vertex : g.has v := (hr.has v).symm.trans hv.1
  by_cases hq : (h.phase v).Quarters
  swap
  · obtain ⟨h1, h2⟩ := mem_nonClifford.1 (hm.nonClifford (fun p hp => (found p hp).leaf) (mem_nonClifford.2 ⟨hv.1, hq⟩))
    exact heavy_of_phase h1 h2
  have hl := hv.2 hq
  by_cases ha : g.Axle v
  · obtain ⟨l, hlv, hw⟩ := ha
    have hw' : (h.phase l).Whole := by
      by_contra hw'
      exact hl.axle ⟨l, fun y => hr.joined.trans (hlv y), hw'⟩
    rcases hm.phase l with e | ⟨p, hp, rfl, -⟩ | ⟨p, hp, rfl, e⟩
    · exact absurd (e ▸ hw') hw
    · obtain ⟨-, -, -, hangs⟩ := (found p hp).single (single p hp)
      obtain rfl := (hlv _).1 (hg.coherent.back hangs.joined)
      exact heavy_of_phase vertex (mem_nonClifford.1 (found p hp).leaf).2
    · rw [e] at hw'
      exact absurd (quarters_modTwo_iff.1 hw'.quarters) ((found p hp).single (single p hp)).2.2.1
  · obtain ⟨y, hy⟩ := hl.joined
    refine Loose.heavy ⟨⟨vertex, ?_, fun b hb hk => ?_⟩, ⟨y, hr.joined.1 hy⟩, ha⟩
    · rw [← hr.kindD]; exact hl.inland.inner
    · exact hl.inland.away b (hr.joined.2 hb) ((hr.kindD b).trans hk)

lemma Merges.phased_card_lt (last : ∃ p ∈ ps, h.phase p.axle = .ratio (Rat.modTwo (int 0).toRat)) : h.phased.card < g.phased.card := by
  have mem : ∀ (d : Diagram) u, u ∈ d.phased ↔ d.has u ∧ (d.phase u).isZero = false := fun d u => by
    rw [phased, Finset.mem_filter, mem_support, Bool.not_eq_true]
  have zero : (ratio (Rat.modTwo (int 0).toRat)).isZero := by decide +kernel
  refine card_lt_card ⟨fun u hu => ?_, fun c => ?_⟩
  · rw [mem, hm.rephased.has] at hu
    rw [mem]
    refine ⟨hu.1, ?_⟩
    rcases hm.phase u with e | ⟨p, -, -, e⟩ | ⟨p, hp, rfl, -⟩
    · exact e ▸ hu.2
    · rw [e, zero] at hu; cases hu.2
    · refine Bool.eq_false_iff.2 fun hz => (mem_nonClifford.1 (found p hp).leaf).2 ⟨0, ?_⟩
      simpa [isZero] using hz
  obtain ⟨p, hp, e⟩ := last
  obtain ⟨-, hz, -, hangs⟩ := (found p hp).single (single p hp)
  have := ((mem h p.axle).1 (c ((mem g p.axle).2 ⟨hg.coherent.vertex hangs.joined, hz⟩))).2
  rw [e, zero] at this
  cases this

end Single

end Gadget

namespace Rule

open Diagram

lemma gadget_neat : gadget.Keeps Neat := by
  intro g hg
  refine round_gives fun y hy => ?_
  have hf := find_spec g y hy
  refine ⟨fun hn => find_nil g y hy hn ▸ hg, fun _ => (effect_spec y.1 y.2).mono fun z ⟨hm, he⟩ => ?_⟩
  have hn := (hf.merges hm).neat hg hf.found
  refine (applyEffect_spec hn.coherent z.2).mono fun h ha => hn.applied ha ?_ (fun _ _ _ => False) ?_ (by tauto)
  · rw [he]
    rintro f ⟨⟩
  rintro b x - ⟨f, hf, -⟩
  rw [he] at hf
  cases hf

lemma gadget_lightens : gadget.Descends Neat fun g h => h.burden < g.burden := by
  refine gadget_neat.descends_of fun g hg y hy hne => ?_
  have hf := find_spec g y hy
  refine ((effect_spec y.1 y.2).and (effect_last hne)).mono fun z ⟨⟨hm, he⟩, last⟩ => ?_
  have hm := hf.merges hm
  have hn := hm.neat hg hf.found
  by_cases single : ∀ p ∈ y.2, p.otherLeaves = []
  · -- nothing is taken away, and so the diagram is the one with the phases merged
    have none : (y.2.flatMap fun p => p.otherAxles ++ p.otherLeaves) = [] := flatMap_eq_nil_iff.2 fun p hp => by
      rw [single p hp, ((hf.found p hp).single (single p hp)).1]; rfl
    rw [he, none]
    refine .ok (burden_lt_of_le ?_ (.inr ⟨?_, hm.phased_card_lt hg hf.found single last⟩))
    · refine cost_le (tCount_le_of_subset (hm.nonClifford fun p hp => (hf.found p hp).leaf)) (card_le_card fun v hv => ?_)
      exact mem_heavy.2 (hm.heavy hg hf.found single (mem_heavy.1 hv))
    · refine congrArg card (ext fun v => ?_)
      rw [mem_support, mem_support, hm.rephased.has]
  obtain ⟨p, hp, hw⟩ := not_forall₂.1 single
  obtain ⟨w, hw⟩ := exists_mem_of_ne_nil _ hw
  refine (applyEffect_spec hn.coherent z.2).mono fun h ha => burden_lt_of_cost (Prod.Lex.lt_iff.2 (.inl ?_))
  refine Gadget.tCount_lt_of_applied hm hf.found ha hp hw ?_
  rw [he]
  exact mem_flatMap.2 ⟨p, hp, mem_append_right _ hw⟩

end Rule

namespace Diagram

variable {g h : Diagram}

/-! ## Colours -/

lemma Recoloured.lower (hr : Recoloured g h) : Lower g h := by
  have boundary : ∀ x, h.kindD x = .boundary ↔ g.kindD x = .boundary := by
    intro x
    rcases hr.kind x with e | ⟨e, e'⟩
    · rw [e]
    · rw [e, e']; decide
  have inland : ∀ x, h.Inland x → g.Inland x := fun x hx =>
    ⟨(hr.vertex x).symm.trans hx.vertex, fun c => hx.inner ((boundary x).2 c), fun b hb hk =>
      hx.away b ((hr.joined x b).2 hb) ((boundary b).2 hk)⟩
  refine .of_loose (fun x hx => (hr.vertex x).symm.trans hx) (fun x _ => hr.phase x ▸ .refl _) inland fun x hx => ⟨inland x hx.inland, ?_, ?_⟩
  · obtain ⟨y, hy⟩ := hx.joined
    exact ⟨y, (hr.joined x y).1 hy⟩
  · rintro ⟨l, hl, hw⟩
    exact hx.axle ⟨l, fun y => (hr.joined l y).trans (hl y), hr.phase l ▸ hw⟩

lemma Recoloured.burden_le (hr : Recoloured g h) : h.burden ≤ g.burden := by
  have support : h.support = g.support := Finset.ext fun v => by rw [mem_support, mem_support, hr.vertex]
  have phased : h.phased = g.phased := by
    rw [Diagram.phased, support]
    exact Finset.filter_congr fun v _ => by rw [hr.phase]
  rcases hr.lower.cost_le.lt_or_eq with hc | hc
  · exact (burden_lt_of_cost hc).le
  · rw [burden, burden, hc, support, phased]

/-- Twice the number of heavy vertices, and one more if no quarter turn is waiting away from the boundary. -/
noncomputable def unrest (g : Diagram) : ℕ := open Classical in 2 * g.heavy.card + if g.Restless then 0 else 1

lemma unrest_lt (hs : h.heavy.card ≤ g.heavy.card) (hr : h.heavy.card = g.heavy.card → h.Restless ∧ ¬ g.Restless) :
    h.unrest < g.unrest := by
  unfold unrest
  rcases hs.lt_or_eq with hs | hs
  · split <;> split <;> omega
  · rw [if_pos (hr hs).1, if_neg (hr hs).2]
    omega

end Diagram

namespace Strategy

open Diagram Rule Run Finset

variable {g h : Diagram} {k : Diagram} {μ : Type}

/-! ## Where the rules for the interior are stuck -/

section

variable (hg : g.Neat) (hs : InteriorStuck g) (hgr : g.Green)
include hg hs hgr

lemma even_of_stuck : g.Even := by
  intro v hv ho
  have spider : g.Spider v := ⟨hv.vertex, (hg.kinds v hv.vertex).resolve_left hv.inner⟩
  obtain ⟨h1, h3⟩ := quarter_of_stuck hs hgr spider fun w hw =>
    spider_of_neighbour hg (mem_nearby.1 hw) (hv.away w (mem_nearby.1 hw))
  obtain ⟨n, hn⟩ := Exact.odd_iff.1 ho
  have hr := hg.reduced v hv.vertex
  rw [hn] at h1 h3
  have h0 : -1 < n := by exact_mod_cast (by linarith [hr.1] : (-1 : ℚ) < n)
  have h2 : n < 2 := by exact_mod_cast (by linarith [hr.2] : (n : ℚ) < 2)
  obtain rfl | rfl : n = 0 ∨ n = 1 := by omega
  · exact h1 (by norm_num)
  · exact h3 (by norm_num)

lemma paired_of_stuck : g.Paired := by
  intro v w hv hwv hj hww
  have hw := hg.coherent.vertex hj
  have spider : g.Spider v := ⟨hv.vertex, (hg.kinds v hv.vertex).resolve_left hv.inner⟩
  have spider' := spider_of_neighbour hg hj (hv.away w hj)
  have two := pauli_of_stuck hg hs hgr spider spider' hj (Pivot.isPauli_of_whole (hg.reduced v hv.vertex) hwv)
    (Pivot.isPauli_of_whole (hg.reduced w hw) hww)
  have none : (g.borderOf v).toFinset = ∅ := by
    rw [eq_empty_iff_forall_notMem]
    intro b hb
    rw [List.mem_toFinset, mem_borderOf] at hb
    exact hv.away b hb.1 hb.2
  rw [none, empty_union] at two
  obtain ⟨b, hb, b', hb', hne⟩ := one_lt_card.1 two
  rw [List.mem_toFinset, mem_borderOf] at hb hb'
  exact ⟨b, b', hne, hb, hb'⟩

end

/-! ## The interior -/

/-- What the rules for the interior keep, from a diagram on. -/
structure Below (g h : Diagram) : Prop where
  neat : h.Neat
  lower : Lower g h
  burden : h.burden ≤ g.burden

lemma Below.refl (hg : g.Neat) : Below g g := ⟨hg, .refl g, le_rfl⟩

lemma Below.trans (h1 : Below g h) (h2 : Below h k) : Below g k := ⟨h2.neat, h1.lower.trans h2.lower, h2.burden.trans h1.burden⟩

lemma below_keeps {r : Rule μ} (hd : r.Descends Neat Sinks) (hs : r.Settles) : r.Keeps (Below g) := by
  have := hd.keeps (Q := fun h => Lower g h ∧ h.burden ≤ g.burden) hs fun h k _ hq hr =>
    ⟨hq.1.trans hr.toLower, hr.burden_lt.le.trans hq.2⟩
  exact fun h hh => (this h ⟨hh.neat, hh.lower, hh.burden⟩).mono fun x hx => ⟨hx.1, hx.2.1, hx.2.2⟩

lemma interiorKeeps_below (g : Diagram) : InteriorKeeps (Below g) where
  coherent _ hh := hh.neat.coherent
  identity := below_keeps (identity_sinks _) (identity_settles _)
  fusion := below_keeps (fusion_sinks _) (fusion_settles _)
  pivot := below_keeps (pivot_sinks _) (pivot_settles _)
  localComplement := below_keeps (localComplement_sinks _) (localComplement_settles _)
  green _ _ hh hr := hh.trans ⟨hh.neat.recoloured hr, hr.lower, hr.burden_le⟩

variable (bound : Diagram → Nat) (verbose : Bool)

lemma interiorClifford_below (hg : g.Neat) :
    Ends (interiorCliffordWithin bound verbose g) fun x => Below g x.1 ∧ x.1.Even ∧ x.1.Paired :=
  (interiorClifford_ends (interiorKeeps_below g) bound verbose (.refl hg)).mono fun _ ⟨hb, hs, hgr⟩ =>
    ⟨hb, even_of_stuck hb.neat hs hgr, paired_of_stuck hb.neat hs hgr⟩

lemma sinks_halts {r : Rule μ} (hc : r.Decides) (hd : r.Descends Neat Sinks) (verbose : Bool) (hg : g.Neat) :
    Halts fun i => r.exhaustWithin i.1 verbose g := exhaustWithin_halts hc hd (fun hs => hs.burden_lt) verbose hg

lemma sinks_ends {r : Rule μ} (hd : r.Descends Neat Sinks) (hs : r.Settles) (bound : Diagram → Nat) (verbose : Bool)
    (hg : g.Neat) : Ends (r.exhaustWithin bound verbose g) fun x => x.1.Neat ∧ Steps Sinks g x :=
  (exhaustWithin_descends hd Sinks.trans hs bound verbose hg).mono fun _ hx => ⟨hx.1, hx.2.2⟩

lemma interiorRound_sinks (hg : g.Neat) :
    Ends (interiorRound bound verbose g) fun x => x.1.Neat ∧ Steps Sinks g x := by
  refine .bind (sinks_ends (identity_sinks _) (identity_settles _) bound verbose hg) ?_
  rintro ⟨g1, i1⟩ ⟨h1, s1⟩
  refine .bind (sinks_ends (fusion_sinks _) (fusion_settles _) bound verbose h1) ?_
  rintro ⟨g2, i2⟩ ⟨h2, s2⟩
  refine .bind (sinks_ends (pivot_sinks _) (pivot_settles _) bound verbose h2) ?_
  rintro ⟨g3, i3⟩ ⟨h3, s3⟩
  refine .bind (sinks_ends (localComplement_sinks _) (localComplement_settles _) bound verbose h3) ?_
  rintro ⟨g4, i4⟩ ⟨h4, s4⟩
  exact .pure ⟨h4, ((s1.add s2 Sinks.trans).add s3 Sinks.trans).add s4 Sinks.trans⟩

lemma interiorRound_halts (hg : g.Neat) : Halts fun i => interiorRound i.1 verbose g := by
  refine .bind (sinks_halts (identity_decides _) (identity_sinks _) verbose hg)
    (fun i => sinks_ends (identity_sinks _) (identity_settles _) i.1 verbose hg) ?_
  rintro ⟨g1, i1⟩ ⟨h1, -⟩
  refine .bind (sinks_halts (fusion_decides _) (fusion_sinks _) verbose h1)
    (fun i => sinks_ends (fusion_sinks _) (fusion_settles _) i.1 verbose h1) ?_
  rintro ⟨g2, i2⟩ ⟨h2, -⟩
  refine .bind (sinks_halts (pivot_decides _) (pivot_sinks _) verbose h2)
    (fun i => sinks_ends (pivot_sinks _) (pivot_settles _) i.1 verbose h2) ?_
  rintro ⟨g3, i3⟩ ⟨h3, -⟩
  refine .bind (sinks_halts (localComplement_decides _) (localComplement_sinks _) verbose h3)
    (fun i => sinks_ends (localComplement_sinks _) (localComplement_settles _) i.1 verbose h3) fun _ _ => .pure _

lemma interiorRounds_halts (done : Nat) (hg : g.Neat) : Halts fun i => interiorRounds i.1 verbose i.2 done g := by
  suffices h : ∀ c, ∀ g : Diagram, g.Neat → g.burden = c → ∀ done, Halts fun i => interiorRounds i.1 verbose i.2 done g from
    h _ g hg rfl done
  intro c
  induction c using WellFoundedLT.induction with
  | ind c ih =>
    rintro g hg rfl done
    refine .succ ?_
    refine .bind (interiorRound_halts verbose hg) (fun i => interiorRound_sinks i.1 verbose hg) ?_
    rintro ⟨h, changed⟩ ⟨hh, hs⟩
    by_cases hc : changed = 0
    · simp only [hc]
      exact .pure _
    simp only [hc]
    have hs : Sinks g h := (hs.resolve_left fun c => hc c.1).2
    exact ih _ hs.burden_lt h hh rfl _

lemma interiorClifford_halts (hg : g.Neat) : Halts fun i => interiorCliffordWithin i.1 verbose g := by
  refine .bind (sinks_halts (fusion_decides _) (fusion_sinks _) verbose hg)
    (fun i => sinks_ends (fusion_sinks _) (fusion_settles _) i.1 verbose hg) ?_
  rintro ⟨g1, _⟩ ⟨h1, -⟩
  have green : Gives g1.toGreen Neat := (toGreen_spec h1.coherent).mono fun h hr => h1.recoloured hr.1
  exact .bind (.lift (toGreen_definite g1)) (fun _ => .lift green) fun g2 h2 => (interiorRounds_halts verbose 0 h2).within g2

/-! ## The boundary -/

lemma pivotBoundary_ends (hg : g.Neat) (hp : g.Paired) :
    Ends ((pivotBoundary anything).exhaustWithin bound verbose g) fun x => x.1.Neat ∧ Steps Stirs g x :=
  (exhaustWithin_descends (pivotBoundary_stirs _) Stirs.trans (pivotBoundary_settles _) bound verbose ⟨hg, hp⟩).mono fun _ hx =>
    ⟨hx.1.1, hx.2.2⟩

lemma pivotBoundary_halts (hg : g.Neat) (hp : g.Paired) :
    Halts fun i => (pivotBoundary anything).exhaustWithin i.1 verbose g :=
  exhaustWithin_halts (pivotBoundary_decides _) (pivotBoundary_stirs _) (fun hs => hs.idle) verbose ⟨hg, hp⟩

lemma heavy_lt_of_stirs (he : g.Even) (hs : Stirs g h) (hl : Lower h k) (hk : k.Even) : k.heavy.card < g.heavy.card := by
  refine (hl.heavy.trans hs.heavy).lt_of_ne fun hc => ?_
  have hh : h.heavy.card = g.heavy.card := le_antisymm hs.heavy (hc.ge.trans hl.heavy)
  exact (hl.restless (hc.trans hh.symm) (hs.restless hh he.calm)).not_even hk

lemma unrest_lt_of_stirs (hl : Lower g h) (he : h.Even) (hs : Stirs h k) : k.unrest < g.unrest := by
  refine unrest_lt (hs.heavy.trans hl.heavy) fun hc => ?_
  have hh : h.heavy.card = g.heavy.card := le_antisymm hl.heavy (hc.ge.trans hs.heavy)
  exact ⟨hs.restless (hc.trans hh.symm) he.calm, fun hr => (hl.restless hh hr).not_even he⟩

lemma cliffordRounds_below (fuel : Nat) (hg : g.Neat) :
    Ends (cliffordRounds bound verbose fuel g) fun h => Below g h ∧ h.Even := by
  induction fuel generalizing g with
  | zero => exact .throw _
  | succ fuel ih =>
    refine .bind (interiorClifford_below bound verbose hg) ?_
    rintro ⟨g1, _⟩ ⟨h1, he, hp⟩
    refine .bind (pivotBoundary_ends bound verbose h1.neat hp) ?_
    rintro ⟨g2, i⟩ ⟨h2, hs⟩
    by_cases hi : i = 0
    · obtain rfl : g2 = g1 := (hs.resolve_right fun c => c.1.ne' hi).2
      simp only [hi]
      exact .pure ⟨h1, he⟩
    have hs : Stirs g1 g2 := (hs.resolve_left fun c => hi c.1).2
    simp only [hi]
    refine (ih h2).mono fun h ⟨hb, hh⟩ => ⟨⟨hb.neat, (h1.lower.trans hs.lower).trans hb.lower, ?_⟩, hh⟩
    have lt : h.burden < g1.burden :=
      burden_lt_of_cost (cost_lt_of_heavy (hb.lower.tCount.trans hs.tCount) (heavy_lt_of_stirs he hs hb.lower hh))
    exact lt.le.trans h1.burden

lemma cliffordRounds_halts (hg : g.Neat) : Halts fun i => cliffordRounds i.1 verbose i.2 g := by
  suffices h : ∀ c, ∀ g : Diagram, g.Neat → g.unrest = c → Halts fun i => cliffordRounds i.1 verbose i.2 g from h _ g hg rfl
  intro c
  induction c using Nat.strong_induction_on with
  | h c ih =>
    rintro g hg rfl
    refine .succ ?_
    refine .bind (interiorClifford_halts verbose hg) (fun i => interiorClifford_below i.1 verbose hg) ?_
    rintro ⟨g1, _⟩ ⟨h1, he, hp⟩
    refine .bind (pivotBoundary_halts verbose h1.neat hp) (fun i => pivotBoundary_ends i.1 verbose h1.neat hp) ?_
    rintro ⟨g2, j⟩ ⟨h2, hs⟩
    by_cases hj : j = 0
    · simp only [hj]
      exact .pure _
    simp only [hj]
    have hs : Stirs g1 g2 := (hs.resolve_left fun c => hj c.1).2
    exact ih _ (unrest_lt_of_stirs h1.lower he hs) g2 h2 rfl

lemma clifford_halts (hg : g.Neat) : Halts fun i => cliffordWithin i.1 verbose g :=
  (cliffordRounds_halts verbose hg).within g

/-! ## Gadgets -/

lemma pivotGadget_ends (hg : g.Neat) (he : g.Even) :
    Ends ((pivotGadget anything).exhaustWithin bound verbose g) fun x => x.1.Neat ∧ Steps Falls g x :=
  (exhaustWithin_descends (pivotGadget_falls _) Falls.trans (pivotGadget_settles _) bound verbose ⟨hg, he⟩).mono fun _ hx =>
    ⟨hx.1.1, hx.2.2⟩

lemma pivotGadget_halts (hg : g.Neat) (he : g.Even) :
    Halts fun i => (pivotGadget anything).exhaustWithin i.1 verbose g :=
  exhaustWithin_halts (pivotGadget_decides _) (pivotGadget_falls _) (fun hf => hf.burden_lt) verbose ⟨hg, he⟩

lemma gadget_ends (hg : g.Neat) :
    Ends (gadget.exhaustWithin bound verbose g) fun x => x.1.Neat ∧ Steps (fun g h => h.burden < g.burden) g x :=
  (exhaustWithin_descends gadget_lightens (fun h1 h2 => h2.trans h1) gadget_settles bound verbose hg).mono fun _ hx =>
    ⟨hx.1, hx.2.2⟩

lemma gadget_halts (hg : g.Neat) : Halts fun i => gadget.exhaustWithin i.1 verbose g :=
  exhaustWithin_halts gadget_decides gadget_lightens (fun hl => hl) verbose hg

lemma reduceRounds_halts (hg : g.Neat) : Halts fun i => reduceRounds i.1 verbose i.2 g := by
  suffices h : ∀ c, ∀ g : Diagram, g.Neat → g.burden = c → Halts fun i => reduceRounds i.1 verbose i.2 g from h _ g hg rfl
  intro c
  induction c using WellFoundedLT.induction with
  | ind c ih =>
    rintro g hg rfl
    refine .succ ?_
    refine .bind (clifford_halts verbose hg) (fun i => cliffordRounds_below i.1 verbose (i.1 g) hg) ?_
    rintro g1 ⟨h1, -⟩
    refine .bind (gadget_halts verbose h1.neat) (fun i => gadget_ends i.1 verbose h1.neat) ?_
    rintro ⟨g2, j⟩ ⟨h2, hj⟩
    refine .bind (interiorClifford_halts verbose h2) (fun i => interiorClifford_below i.1 verbose h2) ?_
    rintro ⟨g3, _⟩ ⟨h3, he, -⟩
    refine .bind (pivotGadget_halts verbose h3.neat he) (fun i => pivotGadget_ends i.1 verbose h3.neat he) ?_
    rintro ⟨g4, k⟩ ⟨h4, hk⟩
    by_cases hn : j + k = 0
    · simp only [hn]
      exact .pure _
    simp only [hn]
    refine ih _ ?_ g4 h4 rfl
    have second : Steps (fun g h => h.burden < g.burden) g3 (g4, k) := hk.imp_right fun c => ⟨c.1, c.2.burden_lt⟩
    rcases hj with ⟨rfl, rfl⟩ | ⟨-, hj⟩
    · have : g4.burden < g3.burden := (second.resolve_left fun c => hn (by simpa using c.1)).2
      exact this.trans_le (h3.burden.trans h1.burden)
    have : g4.burden ≤ g3.burden := by
      rcases second with ⟨-, rfl⟩ | ⟨-, c⟩
      · exact le_rfl
      · exact c.le
    exact ((this.trans h3.burden).trans_lt hj).trans_le h1.burden

/-- **The main simplification comes to an end**: for every well-formed diagram all bounds on the rounds of the loops, if only they are
    large, give the same outcome, and none of the loops is cut short. -/
theorem fullReduce_halts (hg : g.WellFormed) (verbose : Bool) : ∃ n out, out.1 ≠ .error .stepLimit ∧
    ∀ bound : Diagram → Nat, (∀ h, n ≤ bound h) → (fullReduceWithin bound verbose g).outcome = out := by
  have halts : Halts fun i => fullReduceWithin i.1 verbose g := by
    refine .bind (interiorClifford_halts verbose hg.neat) (fun i => interiorClifford_below i.1 verbose hg.neat) ?_
    rintro ⟨g₁, _⟩ ⟨h₁, he, -⟩
    refine .bind (pivotGadget_halts verbose h₁.neat he) (fun i => pivotGadget_ends i.1 verbose h₁.neat he) ?_
    rintro ⟨g₂, _⟩ ⟨h₂, -⟩
    exact (reduceRounds_halts verbose h₂).within g₂
  obtain ⟨n, out, ho, hn⟩ := halts ""
  exact ⟨n, out, ho, fun bound hb => hn (bound, n) ⟨hb, le_rfl⟩⟩

/-- Two gadgets that are merged, so that the Clifford strategy has a second turn. -/
theorem fullReduce_halts_twinGadgets : twinGadgets.WellFormed ∧ ∃ n out, out.1 ≠ .error .stepLimit ∧
    ∀ bound : Diagram → Nat, (∀ h, n ≤ bound h) → (fullReduceWithin bound true twinGadgets).outcome = out := by
  have hg : twinGadgets.WellFormed :=
    by constructor <;> decide +kernel
  exact ⟨hg, fullReduce_halts hg true⟩

end Strategy

end ZXCircuits
