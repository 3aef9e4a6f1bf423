/-
  What a matcher collects.

  `scan_spec` is the induction over a search: what every sighting keeps, the whole search keeps.  A search without a limit
  that collects nothing has seen nothing at any candidate (`scan_nil`).
-/
import ZXCircuits.Proofs.Diagram.View

namespace ZXCircuits

open List Std

instance : TransOrd Edge :=
  inferInstanceAs (TransCmp (compareLex (compareOn (·.1)) (compareOn (·.2)) : Vertex × Vertex → Vertex × Vertex → Ordering))

instance : LawfulEqOrd Edge where
  eq_of_compare {e f} h := by
    have h : compareLex (compareOn (·.1)) (compareOn (·.2)) e f = .eq := h
    simp only [compareLex, compareOn, Ordering.then_eq_eq, Nat.compare_eq_eq] at h
    exact Prod.ext h.1 h.2

section Scan

variable {σ α μ : Type} [Ord α] {look : σ → α → Attempt (Option (Sighting σ α μ))}

lemma contains_insertMany_iff [TransOrd α] [LawfulEqOrd α] {t : TreeSet α} {l : List α} {a : α} :
    (t.insertMany l).contains a ↔ t.contains a ∨ a ∈ l := by
  classical
  rw [TreeSet.contains_insertMany_list, Bool.or_eq_true, contains_iff_mem]

lemma scan_spec {I : σ → TreeSet α → List μ → Prop} (l : List α) (limit : Limit) :
    ∀ {s : σ} {gone : TreeSet α} {found : List μ}, I s gone found →
      (∀ s gone found, ∀ a ∈ l, gone.contains a = false → I s gone found →
        Gives (look s a) fun o => ∀ w, o = some w → I w.state (gone.insertMany w.touched) (w.place :: found)) →
      Gives (scan look l limit s gone found) fun r => ∃ gone', I r.1 gone' r.2.reverse := by
  induction l generalizing limit with
  | nil =>
    intro s gone found h _
    exact .pure ⟨gone, by simpa using h⟩
  | cons a rest ih =>
    intro s gone found h step
    have next : ∀ s gone found, ∀ b ∈ rest, gone.contains b = false → I s gone found →
        Gives (look s b) fun o => ∀ w, o = some w → I w.state (gone.insertMany w.touched) (w.place :: found) :=
      fun s gone found b hb => step s gone found b (by simp [hb])
    rw [scan]
    refine .ite (fun _ => .pure ⟨gone, by simpa using h⟩) fun _ => ?_
    refine .ite (fun _ => ih limit h next) fun ha => ?_
    refine .bind (step s gone found a (by simp) (Bool.eq_false_iff.2 ha) h) fun o ho => ?_
    cases o with
    | none => exact ih limit h next
    | some w => exact ih _ (ho w rfl) next

lemma scan_found (l : List α) (limit : Limit) : ∀ {s : σ} {gone : TreeSet α} {found : List μ},
    found ≠ [] → Gives (scan look l limit s gone found) fun r => r.2 ≠ [] := by
  induction l generalizing limit with
  | nil =>
    intro s gone found h
    exact .pure (by simpa using h)
  | cons a rest ih =>
    intro s gone found h
    rw [scan]
    refine .ite (fun _ => .pure (by simpa using h)) fun _ => ?_
    refine .ite (fun _ => ih limit h) fun _ => .bind (.self _) fun o _ => ?_
    cases o with
    | none => exact ih limit h
    | some w => exact ih _ (by simp)

lemma scan_nil (l : List α) (s : σ) : Gives (scan look l none s (∅ : TreeSet α) ([] : List μ)) fun r =>
      r.2 = [] → r.1 = s ∧ ∀ a ∈ l, look s a = .ok none := by
  induction l with
  | nil => exact .pure fun _ => ⟨rfl, by simp⟩
  | cons a rest ih =>
    rw [scan]
    refine .ite (fun h => by cases h) fun _ => .ite (fun h => by simp at h) fun _ => ?_
    refine .bind (.self _) fun o ho => ?_
    cases o with
    | none =>
      exact ih.mono fun r hr h => ⟨(hr h).1, forall_mem_cons.2 ⟨ho, (hr h).2⟩⟩
    | some w => exact (scan_found rest _ (by simp)).mono fun r hr h => absurd h hr

def surely (look : α → Option (Sighting Unit α μ)) (_ : Unit) (a : α) : Attempt (Option (Sighting Unit α μ)) := .ok (look a)

lemma scan_surely (look : α → Option (Sighting Unit α μ)) (l : List α) (limit : Limit) :
    ∀ (s : Unit) (gone : TreeSet α) (found : List μ), scan (surely look) l limit s gone found =
      .ok ((scan (fun _ a => look a : Unit → α → Id (Option (Sighting Unit α μ))) l limit s gone found : Id _)) := by
  induction l generalizing limit with
  | nil => exact fun _ _ _ => rfl
  | cons a rest ih =>
    intro s gone found
    rw [scan, scan]
    split
    · rfl
    split
    · exact ih _ _ _ _
    rw [surely]
    cases look a with
    | none => exact ih _ _ _ _
    | some w => exact ih _ _ _ _

abbrev placesOf (look : α → Option (Sighting Unit α μ)) (l : List α) (limit : Limit) : List μ :=
  (scan (fun _ a => look a : Unit → α → Id (Option (Sighting Unit α μ))) l limit () ∅ [] : Id _).2

lemma placesOf_spec [TransOrd α] [LawfulEqOrd α] (look : α → Option (Sighting Unit α μ)) (l : List α) (limit : Limit) :
    ∃ ws : List (α × Sighting Unit α μ), placesOf look l limit = ws.map (·.2.place) ∧
      (∀ w ∈ ws, w.1 ∈ l ∧ look w.1 = some w.2) ∧ ws.Pairwise fun w w' => w'.1 ∉ w.2.touched := by
  -- the newest place comes first while the search goes on
  let I (_ : Unit) (gone : TreeSet α) (found : List μ) : Prop := ∃ ws : List (α × Sighting Unit α μ),
    found = ws.map (·.2.place) ∧ (∀ w ∈ ws, w.1 ∈ l ∧ look w.1 = some w.2) ∧
      ws.Pairwise (fun w' w => w'.1 ∉ w.2.touched) ∧ ∀ w ∈ ws, ∀ a ∈ w.2.touched, gone.contains a
  have run : Gives (scan (surely look) l limit () ∅ []) fun r => ∃ gone, I r.1 gone r.2.reverse := by
    refine scan_spec l limit ⟨[], rfl, by simp, .nil, by simp⟩ ?_
    rintro s gone _ a ha hgone ⟨ws, rfl, hws, hp, ht⟩
    refine .ok fun w hw => ⟨(a, w) :: ws, rfl, ?_, ?_, ?_⟩
    · exact forall_mem_cons.2 ⟨⟨ha, hw⟩, hws⟩
    · refine pairwise_cons.2 ⟨fun x hx hax => ?_, hp⟩
      rw [ht x hx a hax] at hgone
      cases hgone
    · intro x hx b hb
      rw [contains_insertMany_iff]
      rcases mem_cons.1 hx with rfl | hx
      · exact .inr hb
      · exact .inl (ht x hx b hb)
  obtain ⟨gone, ws, e, hws, hp, -⟩ := run _ (scan_surely look l limit () ∅ [])
  refine ⟨ws.reverse, ?_, fun w hw => hws w (by simpa using hw), pairwise_reverse.2 hp⟩
  rw [map_reverse, ← e, reverse_reverse]

lemma placesOf_nil {look : α → Option (Sighting Unit α μ)} {l : List α} (h : placesOf look l none = []) : ∀ a ∈ l, look a = none := by
  intro a ha
  have := (scan_nil l () _ (scan_surely look l none () ∅ []) h).2 a ha
  exact Except.ok.inj this

end Scan

namespace Diagram

variable {g : Diagram} {e : Edge} {v : Vertex}

lemma mem_edgeCandidates {accept : Edge → Bool} : e ∈ g.edgeCandidates accept ↔ e ∈ g.edges ∧ accept e := by
  rw [edgeCandidates, mem_mergeSort, mem_filter]

lemma mem_vertexCandidates {accept : Vertex → Bool} : v ∈ g.vertexCandidates accept ↔ g.has v ∧ accept v := by
  rw [vertexCandidates, mem_filter, mem_vertices]

lemma ends_of_not_mem_edgesAt (hg : g.Coherent) {vs : List Vertex} (he : e ∈ g.edges) (h : e ∉ g.edgesAt vs) : e.1 ∉ vs ∧ e.2 ∉ vs := by
  obtain ⟨hlt, hj⟩ := mem_edges.1 he
  refine ⟨fun hv => h ?_, fun hv => h ?_⟩
  · refine mem_flatMap.2 ⟨e.1, hv, mem_map.2 ⟨e.2, mem_nearby.2 hj, ?_⟩⟩
    rw [if_pos hlt]
  · refine mem_flatMap.2 ⟨e.2, hv, mem_map.2 ⟨e.1, mem_nearby.2 (hg.back hj), ?_⟩⟩
    rw [if_neg (Nat.lt_asymm hlt)]

/-- An edge away from the neighbours of both ends of another one shares no end with it. -/
lemma edges_apart (hg : g.Coherent) {f : Edge} (he : e ∈ g.edges) (hf : f ∈ g.edges)
    (hn : f ∉ g.edgesAt (g.nearby e.1) ++ g.edgesAt (g.nearby e.2)) :
    e.1 ≠ f.1 ∧ e.1 ≠ f.2 ∧ e.2 ≠ f.1 ∧ e.2 ≠ f.2 := by
  obtain ⟨-, hj⟩ := mem_edges.1 he
  rw [mem_append, not_or] at hn
  have h1 := ends_of_not_mem_edgesAt hg hf hn.1
  have h2 := ends_of_not_mem_edgesAt hg hf hn.2
  have first : e.1 ∈ g.nearby e.2 := mem_nearby.2 (hg.back hj)
  have second : e.2 ∈ g.nearby e.1 := mem_nearby.2 hj
  exact ⟨fun c => h2.1 (c ▸ first), fun c => h2.2 (c ▸ first), fun c => h1.1 (c ▸ second), fun c => h1.2 (c ▸ second)⟩

end Diagram

end ZXCircuits
