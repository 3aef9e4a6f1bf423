/-
  Where ancillas lie.

  A new ancilla is put on the position after as many wires as are open.  That position is free if the wires that are open lie on the
  first positions, which stays so as long as the wire that was opened last is closed first (`Nested`).  Then the wires
  lie on the positions 0, 1, 2, … at every moment (`positions_lined`), and so do the outputs (`Circuit.outputs_lined`).
-/
import ZXCircuits.Proofs.Layout.Weaving
import Mathlib.Data.List.Infix

namespace ZXCircuits

open List Table Diagram

namespace Table

variable {κ α β : Type} [DecidableEq κ] {t : Table κ α} {k : κ}

lemma map_insert {a b : α} (hf : find? t k = some b) {f : α → β} (hab : f a = f b) :
    (insert t k a).map (fun q => (q.1, f q.2)) = t.map fun q => (q.1, f q.2) := by
  induction t with
  | nil => cases hf
  | cons q t ih =>
    rw [find?] at hf
    rw [insert]
    split at hf
    · rename_i hk
      rw [if_pos hk, map_cons, map_cons, Option.some.inj hf, hk, hab]
    · rename_i hk
      rw [if_neg hk, map_cons, map_cons, ih hf]

lemma erase_concat (hk : k ∉ keys t) (a : α) : erase (t ++ [(k, a)]) k = t := by
  induction t with
  | nil => simp [erase]
  | cons q t ih =>
    simp only [keys, map_cons, mem_cons, not_or] at hk
    rw [cons_append, erase, if_neg (Ne.symm hk.1), ih hk.2]

end Table

namespace Weaving

variable {w : Weaving} {l : ℤ} {live : List ℤ} {gs : List Gate}

def places (w : Weaving) : List (ℤ × ℤ) := w.wires.map fun q => (q.1, q.2.position)

/-- Nothing is opened, closed or moved. -/
structure Stays (w w' : Weaving) : Prop where
  places : w'.places = w.places
  outputs : w'.diagram.outputs = w.diagram.outputs

namespace Stays

lemma refl (w : Weaving) : Stays w w := ⟨rfl, rfl⟩

lemma trans {w w' w'' : Weaving} (h1 : Stays w w') (h2 : Stays w' w'') : Stays w w'' :=
  ⟨h2.places.trans h1.places, h2.outputs.trans h1.outputs⟩

end Stays

lemma gives_wire (w : Weaving) (l : ℤ) : Gives (w.wire l) fun e => w.wires.find? l = some e := gives_orAbsent _

lemma addEdge_outputs (g : Diagram) (e : Edge) (k : EdgeKind) : Gives (g.addEdge e k) fun h => h.outputs = g.outputs ∧ h.qubits = g.qubits ∧
    h.next = g.next := (addEdge_spec g e k).mono fun h added => by rw [added.1.beside]; exact ⟨rfl, rfl, rfl⟩

lemma addNode_stays (w : Weaving) (l : ℤ) (k : VertexKind) (row : ℤ) (p : Rat) (e : EdgeKind) :
    Gives (w.addNode l k row p e) fun x => Stays w x.1 := by
  refine .bind (gives_wire w l) fun wire hw => .bind (addEdge_outputs _ _ _) fun g hg => .pure ⟨?_, ?_⟩
  · exact Table.map_insert hw rfl
  · exact hg.1.trans (addVertex_inputs _ _ _ _ _).2

lemma setRow_stays (w : Weaving) (l row : ℤ) : Gives (w.setRow l row) (Stays w) :=
  .bind (gives_wire w l) fun _ hw => .pure ⟨Table.map_insert hw rfl, rfl⟩

lemma levelTo_stays (w : Weaving) (row : ℤ) : Stays w (w.levelTo row) := ⟨by simp only [places, levelTo, map_map]; rfl, rfl⟩

lemma align_stays (compress : Bool) (w : Weaving) : Gives (w.align compress) (Stays w) :=
  .ite (fun _ => .pure (.refl w)) fun _ => .bind (.self _) fun row _ => .pure (levelTo_stays w row)

section

variable (w : Weaving)

lemma single_stays (l : ℤ) (k : VertexKind) (p : Rat) (e : EdgeKind) : Gives (w.single l k p e) (Stays w) :=
  .bind (.self _) fun _ _ => .bind (addNode_stays w _ _ _ _ _) fun x hx => (setRow_stays x.1 _ _).mono fun _ h => hx.trans h

lemma pair_stays (c t : ℤ) (kc kt : VertexKind) (e : EdgeKind) : Gives (w.pair c t kc kt e) (Stays w) := by
  refine .bind (.self _) fun _ _ => .bind (.self _) fun _ _ => ?_
  refine .bind (addNode_stays w _ _ _ _ _) fun x hx => .bind (addNode_stays x.1 _ _ _ _ _) fun y hy => ?_
  refine .bind (addEdge_outputs _ _ _) fun g hg => ?_
  have joined : Stays y.1 { y.1 with diagram := g } := ⟨rfl, hg.1⟩
  exact .bind (setRow_stays _ _ _) fun z hz => (setRow_stays z _ _).mono fun _ h => ((hx.trans hy).trans (joined.trans hz)).trans h

lemma basic_stays (g : Gate) : Gives (w.basic g) (Stays w) := by
  unfold basic
  split
  · exact single_stays _ _ _ _ _
  · exact single_stays _ _ _ _ _
  · exact pair_stays _ _ _ _ _ _
  · exact pair_stays _ _ _ _ _ _
  · exact pair_stays _ _ _ _ _ _
  · exact .error _

/-! ## Ancillas -/

lemma keys_eq_places : Table.keys w.wires = w.places.map Prod.fst := by
  rw [places, map_map]
  rfl

lemma positions_eq_places : (values w.wires).map (·.position) = w.places.map Prod.snd := by
  rw [places, values, map_map, map_map]
  rfl

end

/-- The open wires lie on the positions 0, 1, 2, …, in the order of their labels. -/
structure Lined (live : List ℤ) (w : Weaving) : Prop where
  nodup : live.Nodup
  keys : Table.keys w.wires = live
  positions : (Table.values w.wires).map (·.position) = (range live.length).map Int.ofNat
  outputs : w.diagram.outputs = []

namespace Lined

lemma stays {w' : Weaving} (hl : Lined live w) (hs : Stays w w') : Lined live w' where
  nodup := hl.nodup
  keys := by rw [keys_eq_places, hs.places, ← keys_eq_places, hl.keys]
  positions := by rw [positions_eq_places, hs.places, ← positions_eq_places, hl.positions]
  outputs := hs.outputs.trans hl.outputs

lemma length (hl : Lined live w) : w.wires.length = live.length := by
  rw [← hl.keys, Table.keys, length_map]

lemma openAncilla (hl : Lined live w) (l : ℤ) : Gives (w.openAncilla l) (Lined (live ++ [l])) := by
  unfold Weaving.openAncilla
  refine .ite (fun _ => .thrown _) fun hn => .bind (.self _) fun row _ => .pure ?_
  have hl' := hl.stays (levelTo_stays w row)
  have fresh : l ∉ Table.keys (w.levelTo row).wires := fun c => by
    rw [hl'.keys, ← hl.keys, ← Table.has_iff] at c
    exact hn c
  have wires := insert_of_not_mem fresh ⟨w.wires.length, (w.levelTo row).diagram.next, row + 1⟩
  refine ⟨nodup_append.2 ⟨hl.nodup, nodup_singleton l, fun a ha b hb c => ?_⟩, ?_, ?_, ?_⟩
  · rw [hl'.keys] at fresh
    exact fresh (mem_singleton.1 hb ▸ c ▸ ha)
  · exact (congrArg Table.keys wires).trans (by rw [Table.keys, map_append, ← Table.keys, hl'.keys]; rfl)
  · refine (congrArg (fun t => (values t).map (·.position)) wires).trans ?_
    rw [values, map_append, map_append, ← values, hl'.positions, length_append, length_singleton,
      range_succ, map_append, map_singleton, map_singleton, map_singleton, hl.length]
    rfl
  · exact (addVertex_inputs _ _ _ _ _).2.trans hl'.outputs

/-- **The wire that was opened last** leaves the others in line. -/
theorem closeAncilla (hl : Lined (live ++ [l]) w) : Gives (w.closeAncilla l) (Lined live) := by
  unfold Weaving.closeAncilla
  split
  · exact .throw _
  refine .bind (addEdge_outputs _ _ _) fun g hg => .bind (.self _) fun row _ => .pure ?_
  have hl' := hl.stays (levelTo_stays w (row + 1))
  obtain ⟨nodup, -, apart⟩ := nodup_append.1 hl.nodup
  -- the last entry is the one of the label
  obtain ⟨t, t', split, ht, ht'⟩ := map_eq_append_iff.1 hl'.keys
  obtain ⟨⟨k, e⟩, rfl, hk⟩ := map_eq_singleton_iff.1 ht'
  subst hk
  have out : k ∉ Table.keys t := fun c => apart k (ht ▸ c) k (by simp) rfl
  have rest : Table.erase (w.levelTo (row + 1)).wires k = t := by rw [split, Table.erase_concat out]
  have positions : (t.map fun q => q.2.position) ++ [e.position] = (range live.length).map Int.ofNat ++ [Int.ofNat live.length] := by
    have h := hl'.positions
    rwa [split, values, map_append, map_append, map_map, length_append, length_singleton, range_succ,
      map_append, map_singleton, map_singleton, map_singleton] at h
  refine ⟨nodup, (congrArg Table.keys rest).trans ht, ?_, ?_⟩
  · refine (congrArg (fun t => (values t).map (·.position)) rest).trans ?_
    rw [values, map_map]
    exact append_inj_left' positions rfl
  · exact hg.1.trans ((addVertex_inputs _ _ _ _ _).2.trans hl.outputs)

end Lined

/-- The wire that was opened last is closed first. -/
def Nested : List ℤ → List Gate → Prop
  | _, [] => True
  | live, g :: gs =>
    match g.op with
    | .initAncilla l => Nested (live ++ [l]) gs
    | .postSelect l => live.getLast? = some l ∧ Nested live.dropLast gs
    | _ => Nested live gs

lemma Nested.of_append {gs gs' : List Gate} : ∀ {live : List ℤ}, Nested live (gs ++ gs') → Nested live gs := by
  induction gs with
  | nil => exact fun _ => trivial
  | cons g gs ih =>
    intro live h
    rw [cons_append, Nested] at h
    rw [Nested]
    split
    · rename_i e
      rw [e] at h
      exact ih h
    · rename_i e
      rw [e] at h
      exact ⟨h.1, ih h.2⟩
    · rename_i h1 h2
      split at h
      · exact absurd ‹_› (h1 _)
      · exact absurd ‹_› (h2 _)
      · exact ih h

/-- **One gate** leaves the open wires in line, if it closes no other wire than the last. -/
theorem Lined.gate (compress : Bool) {g : Gate} (hl : Lined live w) (hn : Nested live (g :: gs)) :
    Gives (w.gate compress g) fun w' => ∃ live', Lined live' w' ∧ Nested live' gs := by
  unfold Weaving.gate
  cases e : g.op with
  | initAncilla l =>
    rw [Nested, e] at hn
    exact (hl.openAncilla l).mono fun w' h => ⟨_, h, hn⟩
  | postSelect l =>
    rw [Nested, e] at hn
    obtain ⟨hlast, hn⟩ := hn
    have split := dropLast_append_getLast? l hlast
    rw [← split] at hl
    exact hl.closeAncilla.mono fun w' h => ⟨_, h, hn⟩
  | had | rotation | pair | triple | parity =>
    rw [Nested, e] at hn
    refine .bind (align_stays compress w) fun w1 s1 => .bind (.self _) fun es _ => ?_
    have fold : Gives (es.foldlM Weaving.basic w1) (Stays w1) :=
      .foldlM (.refl w1) fun w' g _ h => (basic_stays w' g).mono fun w'' h' => h.trans h'
    exact .bind fold fun w2 s2 => (align_stays compress w2).mono fun w3 s3 => ⟨live, hl.stays ((s1.trans s2).trans s3), hn⟩

lemma foldlM_gate_lined (compress : Bool) (gs : List Gate) : ∀ {live : List ℤ} {w : Weaving}, Lined live w → Nested live gs →
    Gives (gs.foldlM (Weaving.gate compress) w) fun w' => ∃ live', Lined live' w' := by
  induction gs with
  | nil => exact fun hl _ => .pure ⟨_, hl⟩
  | cons g gs ih =>
    intro live w hl hn
    refine .bind (hl.gate compress hn) fun w' found => ?_
    obtain ⟨live', hl', hn'⟩ := found
    exact ih hl' hn'

lemma start_lined (n : ℕ) : Lined ((range n).map Int.ofNat) (start ((range n).map Int.ofNat)) := by
  obtain ⟨-, -, outputs, wires⟩ := start_shows n
  refine ⟨nodup_wires, keys_start n, ?_, outputs⟩
  rw [wires, values, map_map, map_map, length_map, length_range]
  rfl

/-! ## Outputs -/

lemma addVertex_qubits (g : Diagram) (k : VertexKind) {q : ℤ} (hq : q ≠ -1) (r : Coord) (p : Exact) (v : Vertex) :
    (g.addVertex k (.int q) r p).1.qubits.get? v = if v = g.next then some (.int q) else g.qubits.get? v := by
  have hq : (Coord.int q).same unset = false := by simpa [Coord.same, unset] using hq
  simp only [addVertex, startTracking, hq, Bool.false_eq_true, if_false]
  split_ifs <;> simp only [Diagram.setKind, Diagram.setQubit, Diagram.setRow, Diagram.setPhase, Diagram.addBare, get?_insert_vertex, *] <;> rfl

lemma finish_qubits (hw : w.diagram.outputs = []) (hp : ∀ e ∈ values w.wires, 0 ≤ e.position) :
    Gives w.finish fun g => g.outputs.map g.qubit = (values w.wires).map fun e => .int e.position := by
  suffices ∀ (row : ℤ) (es : List WireEnd) (g : Diagram), (∀ v ∈ g.outputs, v < g.next) → (∀ e ∈ es, 0 ≤ e.position) →
      Gives (es.foldlM (addOutput row) g) fun h => h.outputs.map h.qubit = g.outputs.map g.qubit ++ es.map fun e => .int e.position by
    refine .bind (.self _) fun row _ => (this row _ w.diagram (by simp [hw]) hp).mono fun g hg => ?_
    rw [hg, hw]
    rfl
  intro row es
  induction es with
  | nil => exact fun g _ _ => .pure (by simp)
  | cons e es ih =>
    intro g hb hp
    obtain ⟨-, grown⟩ := addVertex_spec g .boundary (.int e.position) (.int row) (.int 0)
    have old := (addVertex_inputs g .boundary (.int e.position) (.int row) (.int 0)).2
    have qubits := addVertex_qubits g .boundary (q := e.position) (by have := hp e (by simp); omega) (.int row) (.int 0)
    refine .bind (addEdge_outputs _ _ _) fun g1 found => ?_
    obtain ⟨h1, h2, h3⟩ := found
    have outputs : g1.outputs = g.outputs ++ [g.next] := h1.trans (congrArg (· ++ [g.next]) old)
    have next : g1.next = g.next + 1 := h3.trans grown.next
    have qubit : ∀ v, g1.qubit v = if v = g.next then .int e.position else g.qubit v := fun v => by
      have h := congrArg (fun m : Std.TreeMap Vertex Coord => m.get? v) h2
      rw [Diagram.qubit, h.trans (qubits v)]
      split
      · rfl
      · rfl
    refine (ih g1 (fun v hv => ?_) (forall_mem_cons.1 hp).2).mono fun h hh => ?_
    · rw [outputs, mem_append, mem_singleton] at hv
      rw [next]
      rcases hv with hv | rfl
      · exact Nat.lt_succ_of_lt (hb v hv)
      · exact Nat.lt_succ_self _
    have before : g.outputs.map g1.qubit = g.outputs.map g.qubit := map_congr_left fun v hv => by
      rw [qubit, if_neg (Nat.ne_of_lt (hb v hv))]
    rw [hh, outputs, map_append, before, map_singleton, qubit, if_pos rfl, map_cons, append_assoc]
    rfl

/-- **At every moment** the open wires lie on the positions 0, 1, 2, …, if ancillas are nested. -/
theorem positions_lined {c : Circuit} (compress : Bool) (hn : Nested c.wires c.gates) (hgs : gs <+: c.gates) :
    Gives (gs.foldlM (Weaving.gate compress) (start c.wires)) fun w =>
      (Table.values w.wires).map (·.position) = (range w.wires.length).map Int.ofNat := by
  obtain ⟨gs', e⟩ := hgs
  rw [← e] at hn
  refine (foldlM_gate_lined compress gs (start_lined _) hn.of_append).mono fun w found => ?_
  obtain ⟨live, hl⟩ := found
  rw [hl.positions, hl.length]

end Weaving

/-- **The outputs of a diagram** lie on the positions 0, 1, 2, …, if ancillas are nested. -/
theorem Circuit.outputs_lined {c : Circuit} (compress : Bool) (hn : Weaving.Nested c.wires c.gates) :
    Gives (c.toDiagram compress) fun g => g.outputs.map g.qubit = (range g.outputs.length).map fun i => .int i := by
  refine .bind (Weaving.foldlM_gate_lined compress c.gates (Weaving.start_lined _) hn) fun w found => ?_
  obtain ⟨live, hl⟩ := found
  have position : ∀ e ∈ Table.values w.wires, 0 ≤ e.position := fun e he => by
    have hm : e.position ∈ (range live.length).map Int.ofNat := hl.positions ▸ mem_map_of_mem he
    obtain ⟨i, -, hi⟩ := mem_map.1 hm
    rw [← hi]
    exact Int.natCast_nonneg i
  refine (Weaving.finish_qubits hl.outputs position).mono fun g hg => ?_
  have length : g.outputs.length = live.length := by
    have h := congrArg length hg
    rw [length_map, length_map] at h
    rw [h, ← hl.length, Table.values, length_map]
  have positions := congrArg (map Coord.int) hl.positions
  rw [map_map, map_map] at positions
  rw [hg, length]
  exact positions

end ZXCircuits
