/-
  Strategies end where their rules are stuck.

  The loops of a strategy end after a round in which no rule found anything.  Such a round has left the diagram as it was, so all
  its rules are stuck in what is returned (`clifford_ends`, `fullReduce_ends`).  Where they are stuck, nothing is written and
  nothing changes (`clifford_quiet`, `fullReduce_quiet`).
-/
import ZXCircuits.Proofs.Strategy.Rounds
import ZXCircuits.Proofs.Diagram.Colour

namespace ZXCircuits

open Diagram Run

/-! ## Rules that find nothing -/

namespace Rule

variable {g h : Diagram} (accept : Vertex → Bool)

lemma identity_settles : (identity accept).Settles := fun _ => .ok fun _ => rfl

lemma fusion_settles (accept : Edge → Bool) : (fusion accept).Settles := fun _ => .ok fun _ => rfl

lemma bialgebra_settles : bialgebra.Settles := fun _ => .ok fun _ => rfl

lemma pivot_settles (accept : Edge → Bool) : (pivot accept).Settles := fun _ => .ok fun _ => rfl

lemma localComplement_settles : (localComplement accept).Settles := fun _ => .ok fun _ => rfl

lemma pivotBoundary_settles : (pivotBoundary accept).Settles := fun g =>
  (Pivot.findBoundary_nil g accept).mono fun _ hx hn => (hx hn).1

lemma pivotGadget_settles (accept : Edge → Bool) : (pivotGadget accept).Settles := fun g => Pivot.findGadget_nil g accept

lemma gadget_settles : gadget.Settles := Gadget.find_nil

/-! ## Colours -/

lemma green_of_applied {k : Diagram} {e : Effect} (hg : g.Green) (hr : Rephased g k) (ha : Applied k e h) : h.Green := by
  intro v hv
  rw [ha.kind v hv, hr.kindD]
  exact hg v ((hr.has v).symm.trans (ha.vertex v hv).1)

lemma fusion_green (accept : Edge → Bool) : (fusion accept).Keeps fun g => g.Coherent ∧ g.Green := by
  rintro g ⟨hg, hgr⟩
  refine (fusion_round hg accept).mono fun x hx => ?_
  cases hx with
  | idle => exact ⟨hg, hgr⟩
  | applied _ _ fused _ ha => exact ⟨ha.coherent, green_of_applied hgr fused.rephased ha⟩

lemma identity_green : (identity accept).Keeps fun g => g.Coherent ∧ g.Green := by
  rintro g ⟨hg, hgr⟩
  refine (identity_round hg accept).mono fun x hx => ?_
  cases hx with
  | idle => exact ⟨hg, hgr⟩
  | applied _ _ _ ha => exact ⟨ha.coherent, green_of_applied hgr (.refl _) ha⟩

lemma localComplement_green : (localComplement accept).Keeps fun g => g.Coherent ∧ g.Green := by
  rintro g ⟨hg, hgr⟩
  refine (localComplement_round hg accept).mono fun x hx => ?_
  cases hx with
  | idle => exact ⟨hg, hgr⟩
  | applied _ spread _ ha => exact ⟨ha.coherent, green_of_applied hgr spread.rephased ha⟩

lemma pivot_green (accept : Edge → Bool) : (pivot accept).Keeps fun g => g.Coherent ∧ g.Green := by
  rintro g ⟨hg, hgr⟩
  refine (pivot_round hg accept).mono fun x hx => ?_
  rcases hx with hx | hx
  · rw [hx]; exact ⟨hg, hgr⟩
  · cases hx with
    | applied _ _ _ collects ha => exact ⟨ha.coherent, green_of_applied hgr collects.rephased ha⟩

end Rule

/-! ## Strategies -/

namespace Strategy

open Rule

variable {P : Diagram → Prop} {g : Diagram}

/-- The rules for the interior find nothing. -/
structure InteriorStuck (g : Diagram) : Prop where
  identity : (identity anything).Stuck g
  fusion : (fusion anything).Stuck g
  pivot : (pivot anything).Stuck g
  localComplement : (localComplement anything).Stuck g

/-- The rules for the interior and the boundary find nothing, and there is one colour. -/
structure CliffordStuck (g : Diagram) : Prop extends InteriorStuck g where
  green : g.Green
  pivotBoundary : (pivotBoundary anything).Stuck g

/-- No rule finds anything, and there is one colour. -/
structure ReduceStuck (g : Diagram) : Prop extends CliffordStuck g where
  gadget : gadget.Stuck g
  pivotGadget : (pivotGadget anything).Stuck g

/-- A property of coherent diagrams that the rules for the interior keep. -/
structure InteriorKeeps (P : Diagram → Prop) : Prop where
  coherent : ∀ g, P g → g.Coherent
  identity : (identity anything).Keeps P
  fusion : (fusion anything).Keeps P
  pivot : (pivot anything).Keeps P
  localComplement : (localComplement anything).Keeps P
  green : ∀ g h, P g → Recoloured g h → P h

/-- The rules for the boundary keep it too. -/
structure CliffordKeeps (P : Diagram → Prop) : Prop extends InteriorKeeps P where
  pivotBoundary : (pivotBoundary anything).Keeps P

/-- All rules keep it. -/
structure ReduceKeeps (P : Diagram → Prop) : Prop extends CliffordKeeps P where
  gadget : gadget.Keeps P
  pivotGadget : (pivotGadget anything).Keeps P

section

variable (hi : (identity anything).Keeps P) (hf : (fusion anything).Keeps P) (hp : (pivot anything).Keeps P)
  (hl : (localComplement anything).Keeps P) (bound : Diagram → Nat) (verbose : Bool)
include hi hf hp hl

lemma interiorRound_ends (hg : P g) : Ends (interiorRound bound verbose g) fun x => P x.1 ∧ (x.2 = 0 → InteriorStuck x.1) := by
  refine .bind (exhaustWithin_ends hi (identity_settles _) bound verbose hg) ?_
  rintro ⟨g1, i1⟩ ⟨h1, s1, -⟩
  refine .bind (exhaustWithin_ends hf (fusion_settles _) bound verbose h1) ?_
  rintro ⟨g2, i2⟩ ⟨h2, s2, e2⟩
  refine .bind (exhaustWithin_ends hp (pivot_settles _) bound verbose h2) ?_
  rintro ⟨g3, i3⟩ ⟨h3, s3, e3⟩
  refine .bind (exhaustWithin_ends hl (localComplement_settles _) bound verbose h3) ?_
  rintro ⟨g4, i4⟩ ⟨h4, s4, e4⟩
  refine .pure ⟨h4, fun hz => ?_⟩
  -- the last rules have changed nothing, so that the first ones are stuck still
  have z : i2 = 0 ∧ i3 = 0 ∧ i4 = 0 := by omega
  obtain rfl : g2 = g1 := e2 z.1
  obtain rfl : g3 = g2 := e3 z.2.1
  obtain rfl : g4 = g3 := e4 z.2.2
  exact ⟨s1, s2, s3, s4⟩

lemma interiorRounds_ends (fuel : Nat) : ∀ {done : Nat} {g : Diagram}, P g →
      Ends (interiorRounds bound verbose fuel done g) fun x => P x.1 ∧ InteriorStuck x.1 := by
  induction fuel with
  | zero => exact fun _ => .throw _
  | succ fuel ih =>
    intro done g hg
    refine .bind (interiorRound_ends hi hf hp hl bound verbose hg) ?_
    rintro ⟨h, changed⟩ ⟨hh, hs⟩
    dsimp only
    split
    · exact .pure ⟨hh, hs ‹_›⟩
    · exact ih hh

end

/-- **The interior** ends with one colour where its rules are stuck. -/
theorem interiorClifford_ends (hP : InteriorKeeps P) (bound : Diagram → Nat) (verbose : Bool) (hg : P g) :
    Ends (interiorCliffordWithin bound verbose g) fun x => P x.1 ∧ InteriorStuck x.1 ∧ x.1.Green := by
  refine .bind (exhaustWithin_ends hP.fusion (fusion_settles _) bound verbose hg) ?_
  rintro ⟨g1, _⟩ ⟨h1, -, -⟩
  have green : Gives g1.toGreen fun h => P h ∧ h.Coherent ∧ h.Green :=
    (toGreen_spec (hP.coherent g1 h1)).mono fun h ⟨hr, hgr⟩ => ⟨hP.green g1 h h1 hr, hr.coherent, hgr⟩
  refine .bind (.lift green) fun g2 h2 => ?_
  refine (interiorRounds_ends (hP.identity.and (identity_green _)) (hP.fusion.and (fusion_green _))
    (hP.pivot.and (pivot_green _)) (hP.localComplement.and (localComplement_green _)) bound verbose _ h2).mono ?_
  exact fun x ⟨hx, hs⟩ => ⟨hx.1, hs, hx.2.2⟩

section

variable (hP : CliffordKeeps P) (bound : Diagram → Nat) (verbose : Bool)
include hP

lemma cliffordRounds_ends (fuel : Nat) : ∀ {g : Diagram}, P g →
    Ends (cliffordRounds bound verbose fuel g) fun h => P h ∧ CliffordStuck h := by
  induction fuel with
  | zero => exact fun _ => .throw _
  | succ fuel ih =>
    intro g hg
    refine .bind (interiorClifford_ends hP.toInteriorKeeps bound verbose hg) ?_
    rintro ⟨g1, _⟩ ⟨h1, s1, gr1⟩
    refine .bind (exhaustWithin_ends hP.pivotBoundary (pivotBoundary_settles _) bound verbose h1) ?_
    rintro ⟨g2, i⟩ ⟨h2, s2, e2⟩
    dsimp only
    split
    · obtain rfl : g2 = g1 := e2 ‹_›
      exact .pure ⟨h2, s1, gr1, s2⟩
    · exact ih h2

/-- **The Clifford strategy** ends with one colour where its rules are stuck. -/
theorem clifford_ends (hg : P g) : Ends (cliffordWithin bound verbose g) fun h => P h ∧ CliffordStuck h :=
  cliffordRounds_ends hP bound verbose _ hg

end

/-! ## Nothing happens -/

variable {bound : Diagram → Nat}

lemma interiorClifford_quiet (hs : InteriorStuck g) (hgr : g.Green) (hb : 0 < bound g) (verbose : Bool) :
    Quiet (interiorCliffordWithin bound verbose g) (g, 0) := by
  obtain ⟨n, hn⟩ := Nat.exists_eq_add_one.2 hb
  refine .bind (exhaustWithin_quiet hs.fusion hb verbose) ?_
  refine .bind (.lift (toGreen_of_green hgr)) ?_
  have round : Quiet (interiorRound bound verbose g) (g, 0) :=
    .bind (exhaustWithin_quiet hs.identity hb verbose) <| .bind (exhaustWithin_quiet hs.fusion hb verbose) <|
      .bind (exhaustWithin_quiet hs.pivot hb verbose) <|
      .bind (exhaustWithin_quiet hs.localComplement hb verbose) (.pure _)
  rw [hn, interiorRounds]
  exact .bind round (.pure _)

lemma clifford_quiet (hs : CliffordStuck g) (hb : 0 < bound g) (verbose : Bool) : Quiet (cliffordWithin bound verbose g) g := by
  obtain ⟨n, hn⟩ := Nat.exists_eq_add_one.2 hb
  rw [cliffordWithin, hn, cliffordRounds]
  refine .bind (interiorClifford_quiet hs.toInteriorStuck hs.green hb verbose) ?_
  exact .bind (exhaustWithin_quiet hs.pivotBoundary hb verbose) (.pure _)

lemma fullReduce_quiet (hs : ReduceStuck g) (hb : 0 < bound g) (verbose : Bool) : Quiet (fullReduceWithin bound verbose g) g := by
  obtain ⟨n, hn⟩ := Nat.exists_eq_add_one.2 hb
  have interior := interiorClifford_quiet hs.toInteriorStuck hs.green hb verbose
  have pivots := exhaustWithin_quiet hs.pivotGadget hb verbose
  refine .bind interior (.bind pivots ?_)
  dsimp only
  rw [hn, reduceRounds]
  refine .bind (clifford_quiet hs.toCliffordStuck hb verbose) ?_
  refine .bind (exhaustWithin_quiet hs.gadget hb verbose) ?_
  exact .bind interior (.bind pivots (.pure _))

lemma interiorClifford_of_stuck (hs : InteriorStuck g) (hgr : g.Green) (bound : Diagram → Nat) (verbose : Bool) :
    Ends (interiorCliffordWithin bound verbose g) fun x => x.1 = g := by
  rcases Nat.eq_zero_or_pos (bound g) with hb | hb
  · refine .bind (P := fun _ => False) ?_ fun _ h => h.elim
    rw [exhaustWithin, hb, repeatFrom]
    exact .bind (.throw (P := fun _ => False) _) fun _ h => h.elim
  · exact (interiorClifford_quiet hs hgr hb verbose).ends rfl

variable (hP : ReduceKeeps P) (bound : Diagram → Nat) (verbose : Bool)
include hP

lemma reduceRounds_ends (fuel : Nat) : ∀ {g : Diagram}, P g → Ends (reduceRounds bound verbose fuel g) fun h => P h ∧ ReduceStuck h := by
  induction fuel with
  | zero => exact fun _ => .throw _
  | succ fuel ih =>
    intro g hg
    refine .bind (clifford_ends hP.toCliffordKeeps bound verbose hg) ?_
    rintro g1 ⟨h1, s1⟩
    refine .bind (exhaustWithin_ends hP.gadget gadget_settles bound verbose h1) ?_
    rintro ⟨g2, i⟩ ⟨h2, s2, e2⟩
    -- if the gadgets were left alone the rules for the interior have nothing to do
    have interior : Ends (interiorCliffordWithin bound verbose g2) fun x => P x.1 ∧ (i = 0 → x.1 = g1) := by
      by_cases hi : i = 0
      · obtain rfl : g2 = g1 := e2 hi
        exact (interiorClifford_of_stuck s1.toInteriorStuck s1.green bound verbose).mono fun x hx => ⟨hx ▸ h2, fun _ => hx⟩
      · exact (interiorClifford_ends hP.toInteriorKeeps bound verbose h2).mono fun x hx => ⟨hx.1, fun c => absurd c hi⟩
    refine .bind interior ?_
    rintro ⟨g3, _⟩ ⟨h3, e3⟩
    refine .bind (exhaustWithin_ends hP.pivotGadget (pivotGadget_settles _) bound verbose h3) ?_
    rintro ⟨g4, j⟩ ⟨h4, s4, e4⟩
    dsimp only
    split
    · obtain rfl : g2 = g1 := e2 (by omega)
      obtain rfl : g3 = g2 := e3 (by omega)
      obtain rfl : g4 = g3 := e4 (by omega)
      exact .pure ⟨h4, s1, s2, s4⟩
    · exact ih h4

/-- **The main simplification** ends with one colour where all its rules are stuck. -/
theorem fullReduce_ends (hg : P g) : Ends (fullReduceWithin bound verbose g) fun h => P h ∧ ReduceStuck h := by
  refine .bind (interiorClifford_ends hP.toInteriorKeeps bound verbose hg) ?_
  rintro ⟨g1, _⟩ ⟨h1, -⟩
  refine .bind (exhaustWithin_ends hP.pivotGadget (pivotGadget_settles _) bound verbose h1) ?_
  rintro ⟨g2, _⟩ ⟨h2, -⟩
  exact reduceRounds_ends hP bound verbose _ h2

end Strategy

end ZXCircuits
