/-
  Merging gadgets.

  Every axle of a survey has a leaf with a phase that is no multiple of a quarter turn (`Gadget.survey_spec`).  New phases
  come on such leaves only, and axles lose theirs (`Gadget.effect_spec`).
-/
import ZXCircuits.Rule.Gadget
import ZXCircuits.Proofs.Diagram.Effect

namespace ZXCircuits.Gadget

open List Diagram Exact

variable {g h : Diagram} {s : Survey} {p : Place} {ps : List Place} {v n : Vertex} {x : Diagram × List Place}

/-- Every axle has a leaf with a phase of its own. -/
structure Surveyed (g : Diagram) (s : Survey) : Prop where
  leaves : ∀ n v, s.leaves.get? n = some v → v ∈ g.nonClifford ∧ g.Hangs v n
  axles : ∀ ns ∈ Table.values s.groups, ∀ n ∈ ns, (s.leaves.get? n).isSome

lemma note_spec (hs : Surveyed g s) (hv : g.has v) : Surveyed g (note g s v) := by
  unfold note
  split
  · rename_i n hn
    split
    · rename_i hp
      have hmem : v ∈ g.nonClifford := by
        rw [mem_nonClifford, ← den_le_two_iff, not_le]
        exact ⟨hv, hp⟩
      have hangs : g.Hangs v n := fun y => by rw [← mem_nearby, hn, mem_singleton]
      refine ⟨fun m w hm => ?_, fun ns hns m hm => ?_⟩
      · simp only [get?_insert_vertex] at hm
        split at hm
        · rename_i hmn
          cases hm
          exact ⟨hmem, hmn ▸ hangs⟩
        · exact hs.leaves m w hm
      simp only [get?_insert_vertex]
      split
      · rfl
      rename_i hne
      rcases Table.mem_values_insert hns with rfl | hns
      · rcases mem_append.1 hm with hm | hm
        · -- the axle was in the group before
          cases hf : s.groups.find? (ascending ((g.nearby n).filter (· != v))) with
          | none => rw [hf] at hm; cases hm
          | some ms =>
            rw [hf] at hm
            exact hs.axles ms (Table.mem_values_of_find? hf) m hm
        · exact absurd (mem_singleton.1 hm) hne
      · exact hs.axles ns hns m hm
    · exact hs
  · exact hs

/-- **A survey** has a leaf with a phase of its own for every axle. -/
theorem survey_spec (g : Diagram) : Surveyed g (surveyOf g) := by
  refine List.foldlRecOn g.vertices (note g) ⟨fun n v hn => ?_, fun ns hns => ?_⟩ ?_
  · simp at hn
  · cases hns
  · exact fun s hs v hv => note_spec hs (mem_vertices.1 hv)

lemma Surveyed.leaf (hs : Surveyed g s) (hn : (s.leaves.get? n).isSome) : s.leaf n ∈ g.nonClifford ∧ g.Hangs (s.leaf n) n := by
  obtain ⟨v, hv⟩ := Option.isSome_iff_exists.1 hn
  rw [Survey.leaf, hv]
  exact hs.leaves n v hv

/-- The leaves of a place have phases of their own; if it is a single gadget, its axle has a phase and its new one is of the same
    sort. -/
structure Found (g : Diagram) (p : Place) : Prop where
  leaf : p.leaf ∈ g.nonClifford
  others : ∀ w ∈ p.otherLeaves, w ∈ g.nonClifford
  single : p.otherLeaves = [] → p.otherAxles = [] ∧ (g.phase p.axle).isZero = false ∧ ¬ p.phase.Quarters ∧ g.Hangs p.leaf p.axle

/-- What has been collected from some groups of gadgets. -/
structure Collects (g : Diagram) (x : Diagram × List Place) : Prop where
  rephased : Rephased g x.1
  phases : x.1.phases = g.phases
  found : ∀ p ∈ x.2, Found g p

lemma Collects.add (hx : Collects g x) (hr : Rephased x.1 h) (hp : h.phases = x.1.phases)
    (hf : Found g p) : Collects g (h, x.2 ++ [p]) := by
  refine ⟨hx.rephased.trans hr, hp.trans hx.phases, fun q hq => ?_⟩
  rcases mem_append.1 hq with hq | hq
  · exact hx.found q hq
  · rw [mem_singleton.1 hq]
    exact hf

lemma collect_spec (hs : Surveyed g s) (hx : Collects g x) {axles : List Vertex}
    (ha : ∀ n ∈ axles, (s.leaves.get? n).isSome) : Gives (collect s x axles) (Collects g) := by
  unfold collect
  dsimp only
  split
  · rename_i n
    obtain ⟨hl, hh⟩ := hs.leaf (ha n (by simp))
    refine .ite (fun _ => .pure hx) fun hz => ?_
    refine .bind (negatePhase_spec _ _) fun h ⟨hr, hp⟩ => .pure (hx.add hr hp ⟨hl, by simp, fun _ => ⟨rfl, ?_, ?_, hh⟩⟩)
    · rw [← phase_congr hx.phases]
      exact Bool.eq_false_iff.2 hz
    -- a phase is a multiple of a quarter turn if its negative is
    rw [phase_congr hx.phases]
    intro hq
    have := hq.neg
    simp only [Quarters, toRat_neg, neg_neg] at this
    exact (mem_nonClifford.1 hl).2 this
  · rename_i hsingle
    have negated : Gives (axles.foldlM (fun h n => if (x.1.phase n).isZero then pure h else h.negatePhase (s.leaf n)) x.1)
        fun h => Rephased x.1 h ∧ h.phases = x.1.phases := by
      refine .foldlM ⟨.refl _, rfl⟩ fun h n _ ⟨hr, hp⟩ => ?_
      refine .ite (fun _ => .pure ⟨hr, hp⟩) fun _ => ?_
      exact (negatePhase_spec h _).mono fun h' ⟨hr', hp'⟩ => ⟨hr.trans hr', hp'.trans hp⟩
    refine .bind negated fun h ⟨hr, hp⟩ => ?_
    split
    · exact .pure ⟨hx.rephased.trans hr, hp.trans hx.phases, hx.found⟩
    rename_i n hn
    refine .pure (hx.add hr hp ⟨(hs.leaf (ha n (mem_of_getLast? hn))).1, fun w hw => ?_, fun hnil => ?_⟩)
    · obtain ⟨m, hm, rfl⟩ := mem_map.1 hw
      exact (hs.leaf (ha m (dropLast_subset _ hm))).1
    -- a group with no other axles is a single one
    have hnil := map_eq_nil_iff.1 hnil
    refine absurd ?_ (hsingle n)
    rw [← dropLast_append_getLast? n hn, hnil]
    rfl

lemma find_spec (g : Diagram) : Gives (find g) (Collects g) := by
  have hs := survey_spec g
  refine .foldlM ⟨.refl g, rfl, by simp⟩ fun x axles ha hx => ?_
  exact collect_spec hs hx fun n hn => hs.axles axles ha n hn

lemma find_nil (g : Diagram) : Gives (find g) fun x => x.2 = [] → x.1 = g := by
  refine .foldlM (fun _ => rfl) fun x axles _ hx => ?_
  unfold collect
  dsimp only
  split
  · refine .ite (fun _ => .pure hx) fun _ => ?_
    exact .bind (.self _) fun h _ => .pure fun c => by simp at c
  cases axles with
  | nil => exact .pure hx
  | cons n rest =>
    refine .bind (.self _) fun h _ => ?_
    exact .pure fun c => by simp at c

/-- **One place** gives its leaf a phase and takes that of its axle. -/
theorem merge_spec (g : Diagram) (p : Place) : Gives (merge g p) fun h => Rephased g h ∧ ∀ u, h.phase u =
    if u = p.axle then .ratio (Rat.modTwo (int 0).toRat)
    else if u = p.leaf then .ratio (Rat.modTwo p.phase.toRat) else g.phase u := by
  set g1 := (g.setPhase p.leaf p.phase).setPhase p.axle (.int 0)
  have noted : Gives (merge g p) fun h => Rephased g1 h ∧ h.phases = g1.phases := by
    refine .foldlM ⟨.refl _, rfl⟩ fun h w _ ⟨hr, hp⟩ => ?_
    exact (fusePhases_spec h _ _).mono fun h' ⟨hr', hp'⟩ => ⟨hr.trans hr', hp'.trans hp⟩
  refine noted.mono fun h ⟨hr, hp⟩ => ⟨?_, fun u => ?_⟩
  · exact ((setPhase_rephased g _ _).trans (setPhase_rephased _ _ _)).trans hr
  · rw [phase_congr hp, phase_setPhase, phase_setPhase]

/-- What merging makes of a diagram before vertices are taken away. -/
structure Merges (g : Diagram) (ps : List Place) (h : Diagram) : Prop where
  rephased : Rephased g h
  phase : ∀ u, h.phase u = g.phase u ∨ (∃ p ∈ ps, u = p.axle ∧ h.phase u = .ratio (Rat.modTwo (int 0).toRat)) ∨
    ∃ p ∈ ps, u = p.leaf ∧ h.phase u = .ratio (Rat.modTwo p.phase.toRat)

/-- **The effect of the rule**: phases come on leaves only, and axles lose theirs. -/
theorem effect_spec (g : Diagram) (ps : List Place) : Gives (effect g ps) fun x => Merges g ps x.1 ∧
    x.2 = { vertices := ps.flatMap fun p => p.otherAxles ++ p.otherLeaves, sweep := false } := by
  refine .bind ?_ fun h hh => .pure ⟨hh, rfl⟩
  refine .foldlM ⟨.refl g, fun u => .inl rfl⟩ fun h p hm hh => ?_
  refine (merge_spec h p).mono fun h' ⟨hr', hq⟩ => ⟨hh.rephased.trans hr', fun u => ?_⟩
  rw [hq]
  split
  · exact .inr (.inl ⟨p, hm, ‹_›, rfl⟩)
  split
  · exact .inr (.inr ⟨p, hm, ‹_›, rfl⟩)
  · exact hh.phase u

lemma effect_last (hn : ps ≠ []) : Gives (effect g ps) fun x =>
    ∃ p ∈ ps, x.1.phase p.axle = .ratio (Rat.modTwo (int 0).toRat) := by
  have fold : ∀ (ps : List Place) (g : Diagram), ps ≠ [] → Gives (ps.foldlM merge g) fun h =>
      ∃ p ∈ ps, h.phase p.axle = .ratio (Rat.modTwo (int 0).toRat) := by
    intro ps
    induction ps with
    | nil => exact fun _ c => absurd rfl c
    | cons p ps ih =>
      intro g _
      refine .bind (merge_spec g p) fun h ⟨_, hq⟩ => ?_
      by_cases hps : ps = []
      · subst hps
        exact .pure ⟨p, by simp, by rw [hq, if_pos rfl]⟩
      · exact (ih h hps).mono fun k ⟨q, hm, e⟩ => ⟨q, by simp [hm], e⟩
  exact .bind (fold ps g hn) fun h hh => .pure hh

lemma Merges.nonClifford (hm : Merges g ps h) (hp : ∀ p ∈ ps, p.leaf ∈ g.nonClifford) : h.nonClifford ⊆ g.nonClifford := by
  intro u hu
  rcases hm.phase u with e | ⟨p, -, -, e⟩ | ⟨p, hpm, rfl, -⟩
  · rw [mem_nonClifford, hm.rephased.has, e] at hu
    exact mem_nonClifford.2 hu
  · rw [mem_nonClifford, e] at hu
    exact absurd (whole_int 0).modTwo.quarters hu.2
  · exact hp p hpm

end ZXCircuits.Gadget
