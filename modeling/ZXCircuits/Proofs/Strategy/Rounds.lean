/-
  Rules repeated until they find nothing.

  What one round keeps, its repetition keeps; if that ends, the rule is stuck (`Rule.exhaustWithin_ends`), and where a rule is
  stuck nothing happens (`Rule.exhaustWithin_quiet`).  For each rule one lemma says all that a round can do
  (`Rule.fusion_round` and so on).
-/
import ZXCircuits.Strategy.Reduce
import ZXCircuits.Proofs.Rule.Fusion
import ZXCircuits.Proofs.Rule.Moving
import ZXCircuits.Proofs.Rule.Gadget

namespace ZXCircuits

open List Diagram Pivot

/-! ## One rule -/

namespace Rule

variable {μ : Type} {r : Rule μ} {P Q : Diagram → Prop} {g : Diagram}

/-- The rule finds no place in the diagram. -/
def Stuck (r : Rule μ) (g : Diagram) : Prop := r.find g = .ok (g, [])

def Settles (r : Rule μ) : Prop := ∀ g, Gives (r.find g) fun x => x.2 = [] → x.1 = g

/-- What one round of the rule keeps. -/
def Keeps (r : Rule μ) (P : Diagram → Prop) : Prop := ∀ g, P g → Gives (r.round g) fun x => P x.1

lemma Keeps.and (hp : r.Keeps P) (hq : r.Keeps Q) : r.Keeps fun g => P g ∧ Q g := fun g hg x e => ⟨hp g hg.1 x e, hq g hg.2 x e⟩

lemma round_gives (h : Gives (r.find g) fun x => (x.2 = [] → P x.1) ∧
    (x.2 ≠ [] → Gives (r.effect x.1 x.2) fun y => Gives (y.1.applyEffect y.2) P)) : Gives (r.round g) fun x => P x.1 := by
  refine .bind h fun x hx => .ite (fun he => ?_) fun he => ?_
  · exact .pure (hx.1 (isEmpty_iff.1 he))
  · refine .bind (hx.2 fun c => he (by simp [c])) fun y hy => .bind hy fun k hk => .pure hk

lemma round_changes {Q : Diagram → Prop} (h : Gives (r.find g) fun x => x.2 ≠ [] →
    Gives (r.effect x.1 x.2) fun y => Gives (y.1.applyEffect y.2) Q) : Gives (r.round g) fun x => x.2 ≠ 0 → Q x.1 := by
  refine .bind h fun x hx => .ite (fun _ => .pure fun c => absurd rfl c) fun he => ?_
  exact .bind (hx fun c => he (by simp [c])) fun y hy => .bind hy fun k hk => .pure fun _ => hk

/-- What a round changes, for diagrams with a property that rounds keep. -/
lemma round_changes_of {P Q : Diagram → Prop} (hp : Gives (r.round g) fun x => P x.1) (h : Gives (r.find g) fun x => x.2 ≠ [] →
    Gives (r.effect x.1 x.2) fun y => Gives (y.1.applyEffect y.2) fun k => P k → Q k) : Gives (r.round g) fun x => x.2 ≠ 0 → Q x.1 :=
  (hp.and (round_changes h)).mono fun _ hx hn => hx.2 hn hx.1

lemma round_of_places {h k k' : Diagram} {ps : List μ} {e : Effect} (hf : r.find g = .ok (h, ps)) (hp : ps ≠ [])
    (he : r.effect h ps = .ok (k, e)) (ha : k.applyEffect e = .ok k') : r.round g = .ok (k', ps.length) := by
  cases ps with
  | nil => exact absurd rfl hp
  | cons p ps =>
    rw [round, hf]
    show (r.effect h (p :: ps) >>= _) = _
    rw [he]
    show (k.applyEffect e >>= _) = _
    rw [ha]
    rfl

def Descends (r : Rule μ) (P : Diagram → Prop) (R : Diagram → Diagram → Prop) : Prop :=
  ∀ g, P g → Gives (r.round g) fun x => x.2 ≠ 0 → P x.1 ∧ R g x.1

lemma Keeps.descends_of {R : Diagram → Diagram → Prop} (hp : r.Keeps P) (h : ∀ g, P g → Gives (r.find g) fun x => x.2 ≠ [] →
    Gives (r.effect x.1 x.2) fun y => Gives (y.1.applyEffect y.2) (R g)) : r.Descends P R := fun g hg =>
  ((hp g hg).and (round_changes (h g hg))).mono fun _ hx hn => ⟨hx.1, hx.2 hn⟩

/-- Without rounds the diagram is as it was, and with rounds it has gone down. -/
def Steps (R : Diagram → Diagram → Prop) (g : Diagram) (x : Diagram × Nat) : Prop := (x.2 = 0 ∧ x.1 = g) ∨ (0 < x.2 ∧ R g x.1)

variable {R : Diagram → Diagram → Prop}

lemma Steps.add {h k : Diagram} {i j : Nat} (h1 : Steps R g (h, i)) (h2 : Steps R h (k, j))
    (trans : ∀ {a b c}, R a b → R b c → R a c) : Steps R g (k, i + j) := by
  rcases h1 with ⟨rfl, rfl⟩ | ⟨p1, r1⟩ <;> rcases h2 with ⟨rfl, rfl⟩ | ⟨p2, r2⟩
  · exact .inl ⟨rfl, rfl⟩
  · exact .inr ⟨by omega, r2⟩
  · exact .inr ⟨p1, r1⟩
  · exact .inr ⟨by omega, trans r1 r2⟩

lemma Descends.keeps (hd : r.Descends P R) (hs : r.Settles) (hQ : ∀ g h, P g → Q g → R g h → Q h) : r.Keeps fun g => P g ∧ Q g := by
  intro g ⟨hp, hq⟩
  have idle : Gives (r.round g) fun x => x.2 = 0 → x.1 = g := by
    refine .bind ((hs g).and (.self _)) fun x hx => .ite (fun he => .pure fun _ => ?_) fun he => ?_
    · exact hx.1 (isEmpty_iff.1 he)
    · refine .bind (.self _) fun y _ => .bind (.self _) fun k _ => .pure fun c => ?_
      exact absurd (isEmpty_iff.2 (length_eq_zero_iff.1 c)) he
  refine ((hd g hp).and idle).mono fun x ⟨hx, hi⟩ => ?_
  by_cases hz : x.2 = 0
  · rw [hi hz]; exact ⟨hp, hq⟩
  · exact ⟨(hx hz).1, hQ g x.1 hp hq (hx hz).2⟩

lemma Keeps.descends (hk : r.Keeps P) : r.Descends P fun _ _ => True := fun g hg => (hk g hg).mono fun _ hx _ => ⟨hx, trivial⟩

section

variable (hd : r.Descends P R) (trans : ∀ {a b c}, R a b → R b c → R a c) (hs : r.Settles)
include hd trans hs

lemma repeatFrom_descends (verbose : Bool) (fuel : Nat) : ∀ {done : Nat} {g : Diagram}, P g →
      Run.Ends (r.repeatFrom verbose fuel done g) fun x =>
        P x.1 ∧ r.Stuck x.1 ∧ ((x.2 = done ∧ x.1 = g) ∨ (done < x.2 ∧ R g x.1)) := by
  induction fuel with
  | zero => exact fun _ => .throw _
  | succ fuel ih =>
    intro done g hg
    refine .bind (.lift (.self _)) ?_
    rintro ⟨h, ps⟩ hf
    dsimp only
    split
    · rename_i he
      rw [isEmpty_iff.1 he] at hf
      obtain rfl : h = g := hs g _ hf rfl
      exact .pure ⟨hg, hf, .inl ⟨rfl, rfl⟩⟩
    rename_i he
    refine .bind (.sayIf _ _) fun _ _ => .bind (.sayIf _ _) fun _ _ => ?_
    refine .bind (.lift (.self _)) ?_
    rintro ⟨k, e⟩ hke
    refine .bind (.lift (.self _)) fun k' hk' => .bind (.sayIf _ _) fun _ _ => ?_
    have he : ps ≠ [] := fun c => he (by simp [c])
    obtain ⟨hP, hR⟩ := hd g hg _ (round_of_places hf he hke hk') (by simpa using he)
    refine (ih hP).mono fun x ⟨h1, h2, h3⟩ => ⟨h1, h2, .inr ?_⟩
    rcases h3 with ⟨e, rfl⟩ | ⟨hlt, hR'⟩
    · exact ⟨by omega, hR⟩
    · exact ⟨by omega, trans hR hR'⟩

lemma exhaustWithin_descends (bound : Diagram → Nat) (verbose : Bool) (hg : P g) : Run.Ends (r.exhaustWithin bound verbose g)
    fun x => P x.1 ∧ r.Stuck x.1 ∧ Steps R g x := by
  refine .bind (repeatFrom_descends hd trans hs verbose (bound g) hg) fun x hx => ?_
  exact .bind (.sayIf _ _) fun _ _ => .pure hx

end

lemma exhaustWithin_ends (hk : r.Keeps P) (hs : r.Settles) (bound : Diagram → Nat) (verbose : Bool) (hg : P g) :
    Run.Ends (r.exhaustWithin bound verbose g) fun x => P x.1 ∧ r.Stuck x.1 ∧ (x.2 = 0 → x.1 = g) := by
  refine (exhaustWithin_descends hk.descends (fun _ _ => trivial) hs bound verbose hg).mono fun x ⟨h1, h2, h3⟩ => ⟨h1, h2, fun hz => ?_⟩
  rcases h3 with ⟨-, e⟩ | ⟨hlt, -⟩
  · exact e
  · omega

lemma exhaustWithin_quiet (hs : r.Stuck g) {bound : Diagram → Nat} (hb : 0 < bound g) (verbose : Bool) :
    Run.Quiet (r.exhaustWithin bound verbose g) (g, 0) := by
  obtain ⟨n, hn⟩ := Nat.exists_eq_add_one.2 hb
  have again : Run.Quiet (r.repeatFrom verbose (bound g) 0 g) (g, 0) := by
    rw [hn, repeatFrom]
    exact .bind (.lift hs) (.pure _)
  refine .bind again (.bind (a := ()) ?_ (.pure _))
  intro text
  simp only [Run.sayIf, Nat.lt_irrefl, decide_false, Bool.and_false]
  rfl

/-! ## What a round can do -/

/-- A round of the bialgebra rule. -/
inductive BialgebraRound (g : Diagram) : Diagram → Prop
  | idle : BialgebraRound g g
  | applied {e : Effect} {h : Diagram} : Applied g e h → BialgebraRound g h

variable (hg : g.Coherent)
include hg

lemma bialgebra_round : Gives (bialgebra.round g) fun x => BialgebraRound g x.1 := by
  refine round_gives (.ok ⟨fun _ => .idle, fun _ => .ok ?_⟩)
  exact (applyEffect_spec hg _).mono fun h ha => .applied ha

/-- A round of fusion. -/
inductive FusionRound (g : Diagram) : Diagram → Prop
  | idle : FusionRound g g
  | applied {ps : List Fusion.Place} {k h : Diagram} {e : Effect} (fits : ∀ p ∈ ps, Fusion.Fits g p)
      (apart : ps.Pairwise Fusion.Apart) (fused : Fusion.Fused g ps k e)
      (card : (k.nonClifford.filter (· ∉ e.vertices)).card ≤ g.nonClifford.card) (ha : Applied k e h) : FusionRound g h

lemma fusion_round (accept : Edge → Bool) : Gives ((fusion accept).round g) fun x => FusionRound g x.1 := by
  refine round_gives (.ok ⟨fun _ => .idle, fun _ y hy => ?_⟩)
  obtain ⟨hf, hp⟩ := Fusion.find_spec hg accept none
  have hc := Fusion.effect_card_le (fun p h => (hg.back (hf p h).joined).has) hp y hy
  have he := Fusion.effect_spec _ _ y hy
  exact (applyEffect_spec (he.rephased.coherent hg) _).mono fun h ha => .applied hf hp he hc ha

/-- A round of the removal of identities. -/
inductive IdentityRound (g : Diagram) : Diagram → Prop
  | idle : IdentityRound g g
  | applied {ps : List Identity.Place} {h : Diagram} {e : Effect} (fits : ∀ p ∈ ps, Identity.Fits g p)
      (vertices : e.vertices = ps.map (·.vertex)) (table : ∀ f ∈ Table.keys e.table, ∃ p ∈ ps, f = (p.first, p.second))
      (ha : Applied g e h) : IdentityRound g h

lemma identity_round (accept : Vertex → Bool) : Gives ((identity accept).round g) fun x => IdentityRound g x.1 := by
  refine round_gives (.ok ⟨fun _ => .idle, fun _ => ?_⟩)
  refine .bind (Identity.effect_spec _) fun e ⟨hv, _, ht⟩ => .pure ?_
  exact (applyEffect_spec hg e).mono fun h ha => .applied (Identity.find_spec g accept none) hv ht ha

/-- A round of local complementation. -/
inductive ComplementRound (g : Diagram) : Diagram → Prop
  | idle : ComplementRound g g
  | applied {ps : List LocalComplement.Place} {k h : Diagram} {e : Effect} (fits : ∀ p ∈ ps, LocalComplement.Fits g p)
      (spread : LocalComplement.Spread g ps k)
      (table : ∀ f ∈ Table.keys e.table, f.1 ≠ f.2 ∧ ∃ p ∈ ps, f.1 ∈ p.neighbours ∧ f.2 ∈ p.neighbours)
      (ha : Applied k e h) : ComplementRound g h

lemma localComplement_round (accept : Vertex → Bool) :
    Gives ((localComplement accept).round g) fun x => ComplementRound g x.1 := by
  refine round_gives (.ok ⟨fun _ => .idle, fun _ => .ok ?_⟩)
  have hf := LocalComplement.find_spec g accept false
  obtain ⟨hs, -, -, ht⟩ := LocalComplement.effect_spec hg hf
  exact (applyEffect_spec (hs.rephased.coherent hg) _).mono fun h ha => .applied hf hs ht ha

/-- A round of pivoting at places in the second diagram. -/
inductive PivotRound (g : Diagram) : Diagram → Prop
  | applied {ps : List Place} {k h : Diagram} {e : Effect} (phaseless : ∀ p ∈ ps, Phaseless g p)
      (fits : ∀ p ∈ ps, Fits g p) (apart : ps.Pairwise Pivot.Apart)
      (collects : Collects g ps { diagram := k, table := e.table, vertices := e.vertices, edges := e.edges })
      (ha : Applied k e h) : PivotRound g h

lemma pivot_effect {ps : List Place} (hf : ∀ p ∈ ps, Fits g p ∧ Phaseless g p)
    (hp : ps.Pairwise Pivot.Apart) : Gives (Pivot.effect g ps) fun y => Gives (y.1.applyEffect y.2) (PivotRound g) := by
  refine (effect_spec fun p h => (hf p h).2).mono fun y hc => ?_
  exact (applyEffect_spec (hc.rephased.coherent hg) y.2).mono fun h ha =>
    .applied (fun p hp => (hf p hp).2) (fun p hp => (hf p hp).1) hp hc ha

lemma pivot_round (accept : Edge → Bool) : Gives ((pivot accept).round g) fun x => x.1 = g ∨ PivotRound g x.1 := by
  refine round_gives (P := fun h => h = g ∨ PivotRound g h) (.ok ⟨fun _ => .inl rfl, fun _ => ?_⟩)
  obtain ⟨hf, hp⟩ := find_spec hg accept none false
  exact (pivot_effect hg (fun p hm => ⟨(hf p hm).1, (hf p hm).2.1⟩) hp).mono fun y hy => hy.mono fun h => .inr

/-- The diagram is left as it was, or it is pivoted in after phases have been moved to new vertices. -/
def PreparedRound (g h : Diagram) : Prop := h = g ∨ ∃ d, Grows g d ∧ d.tCount ≤ g.tCount ∧ PivotRound d h

omit hg in
lemma prepared_effect {ts : List Stalk} {x : Diagram × List Place} (hx : Prepared g ts x) (fits : ∀ t ∈ ts, Fits x.1 t.place)
    (first : ∀ t ∈ ts, g.has t.place.first ∧ (g.phase t.place.first).Whole) :
    Gives (Pivot.effect x.1 x.2) fun y => Gives (y.1.applyEffect y.2) (PreparedRound g) := by
  have hf : ∀ p ∈ x.2, Fits x.1 p ∧ Phaseless x.1 p := by
    intro p hm
    obtain ⟨t, ht, rfl⟩ := hx.stalk hm
    exact ⟨fits t ht, hx.phaseless fits ht (first t ht).1 (first t ht).2⟩
  refine (pivot_effect hx.budded.grows.coherent hf hx.pairwise).mono fun y hy => hy.mono fun h hh => .inr ?_
  exact ⟨x.1, hx.budded.grows, hx.budded.tCount, hh⟩

lemma pivotBoundary_round (accept : Vertex → Bool) : Gives ((pivotBoundary accept).round g) fun x => PreparedRound g x.1 := by
  refine round_gives fun x hx => ⟨fun hn => .inl ((findBoundary_nil g accept x hx hn).1), fun _ => ?_⟩
  obtain ⟨ts, hp, ht⟩ := findBoundary_spec hg accept none x hx
  exact prepared_effect hp (fun t hm => (ht t hm).fits.budded hg hp.budded) fun t hm =>
    ⟨(ht t hm).fits.joined.has, (ht t hm).whole⟩

lemma pivotGadget_round (accept : Edge → Bool) : Gives ((pivotGadget accept).round g) fun x => PreparedRound g x.1 := by
  refine round_gives fun x hx => ⟨fun hn => .inl (findGadget_nil g accept x hx hn), fun _ => ?_⟩
  obtain ⟨ts, hp, ht⟩ := findGadget_spec hg accept none x hx
  exact prepared_effect hp (fun t hm => Lifts.fits hg hp.budded ht hm) fun t hm => ⟨(ht t hm).joined.has, (ht t hm).whole⟩

lemma gadget_round : Gives (gadget.round g) fun x => x.1.Coherent ∧ x.1.tCount ≤ g.tCount := by
  refine round_gives (P := fun h => h.Coherent ∧ h.tCount ≤ g.tCount) fun y hy => ?_
  have hf := Gadget.find_spec g y hy
  have same : y.1.nonClifford = g.nonClifford := hf.rephased.nonClifford fun u => by rw [phase_congr hf.phases]
  have hc := hf.rephased.coherent hg
  refine ⟨fun _ => ⟨hc, tCount_le_of_subset (same ▸ Finset.Subset.refl _)⟩, fun _ => ?_⟩
  refine (Gadget.effect_spec y.1 y.2).mono fun z ⟨hm, _⟩ => ?_
  refine (applyEffect_spec (hm.rephased.coherent hc) z.2).mono fun h ha => ⟨ha.coherent, ha.tCount_le.trans ?_⟩
  exact tCount_le_of_subset (same ▸ hm.nonClifford fun p hp => same ▸ (hf.found p hp).leaf)

end Rule

end ZXCircuits
