/-
  What the effect of a rule leaves of a diagram.

  An edge table changes links between its pairs only, and phases by half turns only (`addEdgeTable_spec`).  An effect then
  takes edges and vertices away; what is left has the kinds it had (`applyEffect_spec`).

  `Diagram.nonClifford` is the set that `Diagram.tCount` counts.  An effect adds nothing to it.
-/
import ZXCircuits.Proofs.Diagram.View
import Mathlib.Algebra.Field.Rat
import Mathlib.Data.Rat.Floor
import Mathlib.Tactic.Linarith
import Mathlib.Data.Finset.Card

namespace ZXCircuits

open List

/-! ## Phases -/

lemma Rat.modTwo_eq (q : ℚ) : Rat.modTwo q = q + ((-2 * (q / 2).floor : ℤ) : ℚ) := by
  unfold Rat.modTwo
  push_cast
  ring

lemma Rat.modTwo_nonneg (q : ℚ) : 0 ≤ Rat.modTwo q := by
  have h := Rat.floor_le (q / 2)
  unfold Rat.modTwo
  linarith

lemma Rat.modTwo_lt_two (q : ℚ) : Rat.modTwo q < 2 := by
  have h := Rat.lt_floor_add_one (q / 2)
  push_cast at h
  unfold Rat.modTwo
  linarith

namespace Exact

variable {p q r : Exact}

def Reduced (p : Exact) : Prop := 0 ≤ p.toRat ∧ p.toRat < 2

def Whole (p : Exact) : Prop := ∃ n : ℤ, p.toRat = n

/-- The number is a whole number of quarter turns. -/
def Quarters (p : Exact) : Prop := ∃ n : ℤ, p.toRat = n / 2

lemma Whole.quarters (h : p.Whole) : p.Quarters := by
  obtain ⟨n, hn⟩ := h
  exact ⟨2 * n, by rw [hn]; push_cast; ring⟩

lemma modTwo_eq (p : Exact) : ∃ n : ℤ, p.modTwo.toRat = p.toRat + n := by
  cases p with
  | int m =>
    refine ⟨-(2 * (m / 2)), ?_⟩
    have h : m % 2 = m + -(2 * (m / 2)) := by omega
    simp only [modTwo, toRat, h]
    push_cast
    ring
  | ratio q => exact ⟨_, Rat.modTwo_eq q⟩

lemma modTwo_reduced (p : Exact) : p.modTwo.Reduced := by
  cases p with
  | int m =>
    have h0 : 0 ≤ m % 2 := by omega
    have h2 : m % 2 < 2 := by omega
    exact ⟨by simp only [modTwo, toRat]; exact_mod_cast h0, by simp only [modTwo, toRat]; exact_mod_cast h2⟩
  | ratio q => exact ⟨Rat.modTwo_nonneg q, Rat.modTwo_lt_two q⟩

lemma Quarters.add (hp : p.Quarters) (hq : q.Quarters) (h : ∃ n : ℤ, r.toRat = p.toRat + q.toRat + n) : r.Quarters := by
  obtain ⟨m, hm⟩ := hp
  obtain ⟨k, hk⟩ := hq
  obtain ⟨n, hn⟩ := h
  refine ⟨m + k + 2 * n, ?_⟩
  rw [hn, hm, hk]
  push_cast
  ring

lemma Quarters.neg (hp : p.Quarters) : p.neg.Quarters := by
  obtain ⟨n, hn⟩ := hp
  refine ⟨-n, ?_⟩
  rw [toRat_neg, hn]
  push_cast
  ring

lemma Quarters.add_iff (hq : q.Quarters) : (p.add q).modTwo.Quarters ↔ p.Quarters := by
  obtain ⟨m, hm⟩ := modTwo_eq (p.add q)
  rw [toRat_add] at hm
  refine ⟨fun hs => ?_, fun hp => hp.add hq ⟨m, hm⟩⟩
  refine hs.add hq.neg ⟨-m, ?_⟩
  rw [hm, toRat_neg]
  push_cast
  ring

lemma den_le_two_iff : p.den ≤ 2 ↔ p.Quarters := by
  unfold den Quarters
  constructor
  · intro h
    have h0 := p.toRat.den_pos
    have hq := Rat.num_div_den p.toRat
    obtain h1 | h2 : p.toRat.den = 1 ∨ p.toRat.den = 2 := by omega
    · refine ⟨2 * p.toRat.num, ?_⟩
      rw [h1] at hq
      push_cast at hq ⊢
      linarith
    · refine ⟨p.toRat.num, ?_⟩
      rw [h2] at hq
      exact hq.symm
  · rintro ⟨n, hn⟩
    have h : p.toRat.den ∣ 2 := by
      have := Rat.den_dvd n 2
      rw [Rat.divInt_eq_div] at this
      push_cast at this
      rw [← hn] at this
      exact_mod_cast this
    exact Nat.le_of_dvd (by norm_num) h

/-- The second phase is the first one and some half turns. -/
structure HalfTurns (p q : Exact) : Prop where
  whole : ∃ n : ℤ, q.toRat = p.toRat + n
  reduced : p.Reduced → q.Reduced

namespace HalfTurns

lemma refl (p : Exact) : HalfTurns p p := ⟨⟨0, by simp⟩, id⟩

lemma trans (h1 : HalfTurns p q) (h2 : HalfTurns q r) : HalfTurns p r := by
  obtain ⟨m, hm⟩ := h1.whole
  obtain ⟨n, hn⟩ := h2.whole
  exact ⟨⟨m + n, by rw [hn, hm]; push_cast; ring⟩, h2.reduced ∘ h1.reduced⟩

lemma add_whole (p : Exact) (hq : q.Whole) : HalfTurns p (p.add q).modTwo := by
  obtain ⟨m, hm⟩ := hq
  obtain ⟨n, hn⟩ := modTwo_eq (p.add q)
  refine ⟨⟨m + n, ?_⟩, fun _ => modTwo_reduced _⟩
  rw [hn, toRat_add, hm]
  push_cast
  ring

lemma quarters_iff (h : HalfTurns p q) : q.Quarters ↔ p.Quarters := by
  obtain ⟨n, hn⟩ := h.whole
  constructor
  · rintro ⟨m, hm⟩
    exact ⟨m - 2 * n, by push_cast; linarith⟩
  · rintro ⟨m, hm⟩
    exact ⟨m + 2 * n, by push_cast; linarith⟩

lemma isWhole (h : HalfTurns p q) (hp : p.Whole) : q.Whole := by
  obtain ⟨n, hn⟩ := h.whole
  obtain ⟨m, hm⟩ := hp
  exact ⟨m + n, by push_cast; linarith⟩

end HalfTurns

lemma Whole.modTwo (h : p.Whole) : (ratio (Rat.modTwo p.toRat)).Whole := by
  obtain ⟨n, hn⟩ := h
  exact ⟨n + -2 * (p.toRat / 2).floor, by rw [toRat, Rat.modTwo_eq, hn]; push_cast; ring⟩

lemma HalfTurns.of_modTwo (h : q.toRat = Rat.modTwo p.toRat) : HalfTurns p q :=
  ⟨⟨_, h.trans (Rat.modTwo_eq _)⟩, fun _ => by rw [Reduced, h]; exact ⟨Rat.modTwo_nonneg _, Rat.modTwo_lt_two _⟩⟩

lemma quarters_modTwo_iff : (ratio (Rat.modTwo p.toRat)).Quarters ↔ p.Quarters := (HalfTurns.of_modTwo rfl).quarters_iff

lemma whole_int (n : ℤ) : (int n).Whole := ⟨n, rfl⟩

end Exact

namespace Diagram

variable {g h k : Diagram} {a b u v w : Vertex} {e : Edge} {n : Int × Int} {es : List Edge} {es fs : List Edge} {c : EdgeChanges}
  {p : Exact}

lemma phase_setPhase (g : Diagram) (v u : Vertex) (p : Exact) :
    (g.setPhase v p).phase u = if u = v then .ratio (Rat.modTwo p.toRat) else g.phase u := by
  unfold phase setPhase
  simp only [get?_insert_vertex]
  split <;> rfl

lemma phase_addToPhase (g : Diagram) (v u : Vertex) (p : Exact) :
    (g.addToPhase v p).phase u = if u = v then ((g.phase v).add p).modTwo else g.phase u := by
  unfold phase addToPhase
  simp only [get?_insert_vertex]
  split <;> rfl

lemma halfTurns_addToPhase (hp : p.Whole) (g : Diagram) (v u : Vertex) : Exact.HalfTurns (g.phase u) ((g.addToPhase v p).phase u) := by
  rw [phase_addToPhase]
  split
  · rename_i hu
    subst hu
    exact Exact.HalfTurns.add_whole _ hp
  · exact Exact.HalfTurns.refl _

/-! ## Edge tables -/

/-- The same vertices of the same kinds, with phases that differ by half turns. -/
structure Kept (g h : Diagram) : Prop where
  vertex : ∀ v, h.has v = g.has v
  kinds : h.kinds = g.kinds
  next : h.next = g.next
  phase : ∀ v, Exact.HalfTurns (g.phase v) (h.phase v)

namespace Kept

lemma refl (g : Diagram) : Kept g g := ⟨fun _ => rfl, rfl, rfl, fun _ => Exact.HalfTurns.refl _⟩

lemma trans (h1 : Kept g h) (h2 : Kept h k) : Kept g k :=
  ⟨fun v => (h2.vertex v).trans (h1.vertex v), h2.kinds.trans h1.kinds, h2.next.trans h1.next, fun v => (h1.phase v).trans (h2.phase v)⟩

lemma kindD (hk : Kept g h) (v : Vertex) : h.kindD v = g.kindD v := by
  rw [Diagram.kindD, hk.kinds]; rfl

end Kept

lemma Relinked.kept (r : Relinked g h) : Kept g h := ⟨r.vertex, r.kinds, r.next, fun v => by rw [r.phase v]; exact Exact.HalfTurns.refl _⟩

def Plain (g : Diagram) : Prop := ∀ v w k, g.link v w = some k → k = .regular ∨ k = .hadamard

/-- Two vertices are a pair of an edge table. -/
def Spanned (es : List Edge) (a b : Vertex) : Prop := ∃ e ∈ es, Between e a b

lemma Spanned.cons {e : Edge} (hn : ¬ Between e a b) : Spanned (e :: es) a b ↔ Spanned es a b := by
  constructor
  · rintro ⟨f, hf, hb⟩
    rcases mem_cons.1 hf with rfl | hf
    · exact absurd hb hn
    · exact ⟨f, hf, hb⟩
  · rintro ⟨f, hf, hb⟩
    exact ⟨f, mem_cons_of_mem e hf, hb⟩

lemma Spanned.mono (hs : ∀ e ∈ es, e ∈ fs) (h : Spanned es a b) : Spanned fs a b := h.imp fun e he => ⟨hs e he.1, he.2⟩

/-- What the diagram becomes when links are changed between the pairs of a list only. -/
structure Merged (g : Diagram) (es : List Edge) (h : Diagram) : Prop where
  kept : Kept g h
  coherent : h.Coherent
  link : ∀ a b, ¬ Spanned es a b → h.link a b = g.link a b
  plain : g.Plain → h.Plain

namespace Merged

variable {es fs : List Edge}

lemma refl (hg : g.Coherent) (es : List Edge) : Merged g es g := ⟨.refl g, hg, fun _ _ _ => rfl, id⟩

lemma trans (h1 : Merged g es h) (h2 : Merged h es k) : Merged g es k :=
  ⟨h1.kept.trans h2.kept, h2.coherent, fun a b hab => (h2.link a b hab).trans (h1.link a b hab), h2.plain ∘ h1.plain⟩

lemma joined (hm : Merged g es h) (hj : h.Joined a b) : g.Joined a b ∨ Spanned es a b := by
  by_cases hab : Spanned es a b
  · exact .inr hab
  left
  rw [Joined, ← hm.link a b hab]
  exact hj

end Merged

lemma addToPhase_merged (hg : g.Coherent) (es : List Edge) (hp : p.Whole) (v : Vertex) : Merged g es (g.addToPhase v p) :=
  ⟨⟨fun _ => rfl, rfl, rfl, halfTurns_addToPhase hp g v⟩, ⟨hg.nodup, hg.symm, hg.below⟩, fun _ _ _ => rfl, id⟩

lemma setEdgeKind_merged (hg : g.Coherent) {k : EdgeKind} (hk : k = .regular ∨ k = .hadamard)
    (he : ∀ a b, Between e a b → Spanned es a b) : Gives (g.setEdgeKind e k) (Merged g es) := by
  refine (setEdgeKind_spec g e k).mono fun h ⟨r, l, c⟩ => ⟨r.kept, c hg, fun a b hab => ?_, fun hp v w k' hk' => ?_⟩
  · rw [l, if_neg fun hb => hab (he a b hb)]
  rw [l] at hk'
  split at hk'
  · cases hk'; exact hk
  · exact hp v w k' hk'

lemma addEdges_merged (hg : g.Coherent) {k : EdgeKind} (hk : k = .regular ∨ k = .hadamard)
    (he : ∀ e ∈ fs, ∀ a b, Between e a b → Spanned es a b) : Gives (g.addEdges fs k) (Merged g es) := by
  refine .foldlM (Merged.refl hg es) fun h e hf hm => ?_
  refine .bind (setEdgeKind_merged hm.coherent hk (he e hf)) fun h' hm' => .pure ?_
  have := hm.trans hm'
  exact ⟨⟨this.kept.vertex, this.kept.kinds, this.kept.next, this.kept.phase⟩,
    ⟨this.coherent.nodup, this.coherent.symm, this.coherent.below⟩, this.link, this.plain⟩

lemma addEdges_link (fs : List Edge) (k : EdgeKind) : ∀ g : Diagram, Gives (g.addEdges fs k) fun h => Relinked g h ∧
    ∀ a b, (Spanned fs a b → h.link a b = some k) ∧ (¬ Spanned fs a b → h.link a b = g.link a b) := by
  induction fs with
  | nil =>
    refine fun g => .pure ⟨.refl g, fun a b => ⟨?_, fun _ => rfl⟩⟩
    rintro ⟨e, he, -⟩
    cases he
  | cons f fs ih =>
    intro g
    refine .bind (addEdge_spec g f k) fun h1 first => (ih h1).mono fun h2 rest => ⟨first.1.trans rest.1, fun a b => ?_⟩
    obtain ⟨-, l1, -⟩ := first
    obtain ⟨-, l2⟩ := rest
    by_cases hs : Spanned fs a b
    · exact ⟨fun _ => (l2 a b).1 hs, absurd (hs.mono fun e he => mem_cons_of_mem f he)⟩
    rw [(l2 a b).2 hs, l1]
    by_cases hb : Between f a b
    · exact ⟨fun _ => if_pos hb, absurd ⟨f, mem_cons_self, hb⟩⟩
    · rw [if_neg hb, Spanned.cons hb]
      exact ⟨fun c => absurd c hs, fun _ => rfl⟩

lemma addEdges_joined (fs : List Edge) (k : EdgeKind) (g : Diagram) : Gives (g.addEdges fs k) fun h =>
    ∀ a b, g.Joined a b ∨ Spanned fs a b → h.Joined a b := by
  refine (addEdges_link fs k g).mono fun h ⟨_, link⟩ a b hab => ?_
  by_cases hs : Spanned fs a b
  · rw [Joined, (link a b).1 hs]
    rfl
  · rw [Joined, (link a b).2 hs]
    exact hab.resolve_right hs

lemma removeEdges_merged (hg : g.Coherent)
    (he : ∀ e ∈ fs, ∀ a b, Between e a b → Spanned es a b) : Gives (g.removeEdges fs) (Merged g es) := by
  refine (removeEdges_spec hg fs).mono fun h ⟨r, c, l⟩ => ⟨r.kept, c, fun a b hab => ?_, fun hp v w k hk => ?_⟩
  · rw [l, if_neg]
    rintro ⟨e, hf, hb⟩
    exact hab (he e hf a b hb)
  rw [l] at hk
  split at hk
  · cases hk
  · exact hp v w k hk

lemma mergedEdge_plain (sameKind : Bool) (m n : Int) :
    (mergedEdge sameKind m n).1 = .absent ∨ (mergedEdge sameKind m n).1 = .regular ∨ (mergedEdge sameKind m n).1 = .hadamard := by
  unfold mergedEdge
  generalize (if sameKind then m != 0 else m % 2 != 0) = regular
  generalize (if sameKind then n % 2 != 0 else n != 0) = hadamard
  cases regular <;> cases hadamard <;> cases sameKind <;> simp

lemma gives_kind (g : Diagram) (v : Vertex) : Gives (g.kind v) fun k => k = g.kindD v :=
  (gives_orAbsent _).mono fun k hk => by rw [kindD, hk]; rfl

lemma edgeKind_edge_eq (hg : g.Coherent) (e : Edge) : g.edgeKind (edge e.1 e.2) = g.edgeKind e := by
  rw [edgeKind_eq, edgeKind_eq]
  unfold edge
  split
  · rfl
  · rw [hg.symm]

/-- What an entry of a table makes of the edge between its vertices, and whether half a turn is added. -/
def mergedAt (g : Diagram) (entry : Edge × (Int × Int)) : EdgeKind × Bool :=
  mergedEdge (g.kindD entry.1.1 == g.kindD entry.1.2) (if g.edgeKind entry.1 = .regular then entry.2.1 + 1 else entry.2.1)
    (if g.edgeKind entry.1 = .hadamard then entry.2.2 + 1 else entry.2.2)

def halved (g : Diagram) (entry : Edge × (Int × Int)) : Diagram :=
  if (g.mergedAt entry).2 then g.addToPhase entry.1.1 (.int 1) else g

lemma halved_rephased (g : Diagram) (entry : Edge × (Int × Int)) : Rephased g (g.halved entry) := by
  unfold halved
  split
  · exact addToPhase_rephased g _ _
  · exact .refl g

lemma halved_merged (hg : g.Coherent) (es : List Edge) (entry : Edge × (Int × Int)) : Merged g es (g.halved entry) := by
  unfold halved
  split
  · exact addToPhase_merged hg es (Exact.whole_int 1) _
  · exact .refl hg es

namespace EdgeChanges

variable {c c' : EdgeChanges} {entry : Edge × (Int × Int)}

/-- What one entry does: the half turn is made, and the edge is left, noted to be taken away or added, or changed at once. -/
inductive Records (c : EdgeChanges) (entry : Edge × (Int × Int)) : EdgeChanges → Prop
  | keep : (c.diagram.mergedAt entry).1 = c.diagram.edgeKind entry.1 → Records c entry { c with diagram := c.diagram.halved entry }
  | remove : c.diagram.edgeKind entry.1 ≠ .absent → (c.diagram.mergedAt entry).1 = .absent →
    Records c entry { c with diagram := c.diagram.halved entry, remove := edge entry.1.1 entry.1.2 :: c.remove }
  | regular : c.diagram.edgeKind entry.1 = .absent → (c.diagram.mergedAt entry).1 = .regular →
    Records c entry { c with diagram := c.diagram.halved entry, regular := entry.1 :: c.regular }
  | hadamard : c.diagram.edgeKind entry.1 = .absent → (c.diagram.mergedAt entry).1 = .hadamard →
    Records c entry { c with diagram := c.diagram.halved entry, hadamard := entry.1 :: c.hadamard }
  | change {d : Diagram} : c.diagram.edgeKind entry.1 ≠ .absent → (c.diagram.mergedAt entry).1 ≠ .absent →
    (c.diagram.halved entry).setEdgeKind (edge entry.1.1 entry.1.2) (c.diagram.mergedAt entry).1 = .ok d →
    Records c entry { c with diagram := d }

lemma mergeEntry_records (hc : c.diagram.Coherent) (entry : Edge × (Int × Int)) : Gives (mergeEntry c entry) (Records c entry) := by
  have plain : (c.diagram.mergedAt entry).1 = .absent ∨ (c.diagram.mergedAt entry).1 = .regular ∨ (c.diagram.mergedAt entry).1 = .hadamard :=
    mergedEdge_plain _ _ _
  refine .bind (gives_kind _ _) ?_
  rintro _ rfl
  refine .bind (gives_kind _ _) ?_
  rintro _ rfl
  rw [edgeKind_edge_eq hc]
  refine .ite (fun none => .ite (fun old => .pure (.keep (none.trans old.symm))) fun old => .pure (.remove old none)) fun some => ?_
  refine .ite (fun old => .ite (fun new => .pure (.regular old new)) fun new => .pure (.hadamard old ?_)) fun old => ?_
  · exact (plain.resolve_left some).resolve_left new
  · exact .ite (fun same => .pure (.keep same.symm)) fun _ => .bind (.self _) fun d made => .pure (.change old some made)

/-- What is still to be changed after some entries of an edge table. -/
structure Within (g : Diagram) (es : List Edge) (c : EdgeChanges) : Prop where
  merged : Merged g es c.diagram
  regular : ∀ e ∈ c.regular, ∀ a b, Between e a b → Spanned es a b
  hadamard : ∀ e ∈ c.hadamard, ∀ a b, Between e a b → Spanned es a b
  remove : ∀ e ∈ c.remove, ∀ a b, Between e a b → Spanned es a b

lemma Records.within (hr : c.Records entry c') (hc : c.Within g es) (he : entry.1 ∈ es) : c'.Within g es := by
  have here : ∀ a b, Between entry.1 a b → Spanned es a b := fun a b hb => ⟨entry.1, he, hb⟩
  have here' : ∀ a b, Between (edge entry.1.1 entry.1.2) a b → Spanned es a b := fun a b hb => here a b (between_edge.1 hb)
  have turned : Merged g es (c.diagram.halved entry) := hc.merged.trans (halved_merged hc.merged.coherent es entry)
  cases hr with
  | keep => exact ⟨turned, hc.regular, hc.hadamard, hc.remove⟩
  | remove => exact ⟨turned, hc.regular, hc.hadamard, forall_mem_cons.2 ⟨here', hc.remove⟩⟩
  | regular => exact ⟨turned, forall_mem_cons.2 ⟨here, hc.regular⟩, hc.hadamard, hc.remove⟩
  | hadamard => exact ⟨turned, hc.regular, forall_mem_cons.2 ⟨here, hc.hadamard⟩, hc.remove⟩
  | change _ new made =>
    have changed := setEdgeKind_merged turned.coherent ((mergedEdge_plain _ _ _).resolve_left new) here' _ made
    exact ⟨turned.trans changed, hc.regular, hc.hadamard, hc.remove⟩

end EdgeChanges

lemma mergeEntry_spec {entry : Edge × (Int × Int)} (hc : c.Within g es)
    (he : entry.1 ∈ es) : Gives (mergeEntry c entry) (EdgeChanges.Within g es) :=
  (EdgeChanges.mergeEntry_records hc.merged.coherent entry).mono fun _ hr => hr.within hc he

/-- **An edge table changes links between its pairs only**, and phases by half turns. -/
theorem addEdgeTable_spec (hg : g.Coherent) (t : EdgeTable) : Gives (g.addEdgeTable t) (Merged g (Table.keys t)) := by
  refine .bind (P := EdgeChanges.Within g (Table.keys t)) ?_ fun c hc => ?_
  · refine .foldlM ⟨.refl hg _, by simp, by simp, by simp⟩ fun c entry hm hc => ?_
    exact mergeEntry_spec hc (mem_map_of_mem hm)
  refine .bind (removeEdges_merged hc.merged.coherent fun e he => hc.remove e (mem_reverse.1 he)) fun d hd => ?_
  refine .bind (addEdges_merged hd.coherent (.inl rfl) fun e he => hc.regular e (mem_reverse.1 he)) fun d' hd' => ?_
  refine (addEdges_merged hd'.coherent (.inr rfl) fun e he => hc.hadamard e (mem_reverse.1 he)).mono fun k hk => ?_
  exact ((hc.merged.trans hd).trans hd').trans hk

/-! ## New edges -/

def Lone (n : Int × Int) : Prop := n = (1, 0) ∨ n = (0, 1)

lemma mergedEdge_of_lone (sameKind : Bool) (hn : Lone n) : (mergedEdge sameKind n.1 n.2).1 ≠ .absent := by
  rcases hn with rfl | rfl <;> cases sameKind <;> decide

/-- The edge is among those that are added at the end. -/
def EdgeChanges.Noted (c : EdgeChanges) (e : Edge) : Prop := e ∈ c.regular ∨ e ∈ c.hadamard

lemma mergeEntry_noted (hc : c.diagram.Coherent) (entry : Edge × (Int × Int)) :
    Gives (mergeEntry c entry) fun c' => c'.diagram.Coherent ∧ (∀ a b, c'.diagram.Joined a b → c.diagram.Joined a b) ∧
      (∀ e, c.Noted e → c'.Noted e) ∧
      (Lone entry.2 → ¬ c.diagram.Joined entry.1.1 entry.1.2 → c'.Noted entry.1) := by
  refine (EdgeChanges.mergeEntry_records hc entry).mono fun c' hr => ?_
  have r := c.diagram.halved_rephased entry
  have joined : ∀ a b, (c.diagram.halved entry).Joined a b → c.diagram.Joined a b := fun a b => r.joined.1
  -- between vertices that are not joined there is no old edge to merge with
  have fresh : Lone entry.2 → ¬ c.diagram.Joined entry.1.1 entry.1.2 →
      c.diagram.edgeKind entry.1 = .absent ∧ (c.diagram.mergedAt entry).1 ≠ .absent := by
    intro hn hj
    have ho : c.diagram.edgeKind entry.1 = .absent := by
      by_contra ho
      exact hj (joined_of_edgeKind ho)
    refine ⟨ho, ?_⟩
    rw [mergedAt, ho]
    exact mergedEdge_of_lone _ hn
  cases hr with
  | keep same => exact ⟨r.coherent hc, joined, fun _ => id, fun hn hj => absurd (same.trans (fresh hn hj).1) (fresh hn hj).2⟩
  | remove old => exact ⟨r.coherent hc, joined, fun _ => id, fun hn hj => absurd (fresh hn hj).1 old⟩
  | regular => exact ⟨r.coherent hc, joined, fun f hf => hf.imp (mem_cons_of_mem _) id, fun _ _ => .inl (by simp)⟩
  | hadamard => exact ⟨r.coherent hc, joined, fun f hf => hf.imp id (mem_cons_of_mem _), fun _ _ => .inr (by simp)⟩
  | change old _ made =>
    obtain ⟨_, l, co⟩ := setEdgeKind_spec _ _ _ _ made
    refine ⟨co (r.coherent hc), fun a b hab => ?_, fun _ => id, fun hn hj => absurd (fresh hn hj).1 old⟩
    by_cases hb : Between (edge entry.1.1 entry.1.2) a b
    · rcases between_edge.1 hb with ⟨rfl, rfl⟩ | ⟨rfl, rfl⟩
      · exact joined_of_edgeKind old
      · exact hc.back (joined_of_edgeKind old)
    · rw [Joined, l, if_neg hb] at hab
      exact joined a b hab

lemma foldlM_mergeEntry_noted {e : Edge} (hn : Lone n) (t : EdgeTable) : ∀ {c : EdgeChanges},
    c.diagram.Coherent → ¬ c.diagram.Joined e.1 e.2 → (c.Noted e ∨ (e, n) ∈ t) → Gives (t.foldlM mergeEntry c) fun c' => c'.Noted e := by
  induction t with
  | nil => exact fun _ _ he => .pure (he.resolve_right (by simp))
  | cons entry t ih =>
    intro c hc hj he
    refine .bind (mergeEntry_noted hc entry) fun c' ⟨hc', hj', hk, hl⟩ => ih hc' (fun h => hj (hj' _ _ h)) ?_
    rcases he with he | he
    · exact .inl (hk e he)
    rcases mem_cons.1 he with rfl | he
    · exact .inl (hl hn hj)
    · exact .inr he

/-- **A single edge of a table is made**, if there is none between its ends. -/
theorem addEdgeTable_joined (hg : g.Coherent) {t : EdgeTable} {e : Edge} (he : (e, n) ∈ t) (hn : Lone n)
    (hj : ¬ g.Joined e.1 e.2) : Gives (g.addEdgeTable t) fun h => h.Joined e.1 e.2 := by
  refine .bind (foldlM_mergeEntry_noted hn t hg hj (.inr he)) fun c hc => ?_
  refine .bind (.self _) fun d _ => .bind (addEdges_joined _ _ d) fun d1 h1 => ?_
  refine (addEdges_joined _ _ d1).mono fun d2 h2 => h2 _ _ ?_
  rcases hc with hc | hc
  · exact .inl (h1 _ _ (.inr ⟨e, mem_reverse.2 hc, .inl ⟨rfl, rfl⟩⟩))
  · exact .inr ⟨e, mem_reverse.2 hc, .inl ⟨rfl, rfl⟩⟩

/-! ## Effects -/

/-- What an effect leaves of a diagram. -/
structure Applied (g : Diagram) (e : Effect) (h : Diagram) : Prop where
  present : ∀ v ∈ e.vertices, g.has v
  nodup : e.vertices.Nodup
  coherent : h.Coherent
  vertex : ∀ v, h.has v → g.has v ∧ v ∉ e.vertices
  kind : ∀ v, h.has v → h.kindD v = g.kindD v
  phase : ∀ v, h.has v → Exact.HalfTurns (g.phase v) (h.phase v)
  joined : ∀ a b, h.Joined a b → (g.Joined a b ∨ Spanned (Table.keys e.table) a b) ∧ ¬ Spanned e.edges a b
  kept : ∀ a b, g.Joined a b → ¬ Spanned (Table.keys e.table) a b → ¬ Spanned e.edges a b → a ∉ e.vertices → b ∉ e.vertices → h.Joined a b
  made : ∀ f n, (f, n) ∈ e.table → Lone n → ¬ g.Joined f.1 f.2 → ¬ Spanned e.edges f.1 f.2 → f.1 ∉ e.vertices →
    f.2 ∉ e.vertices → h.Joined f.1 f.2
  plain : g.Plain → h.Plain
  next : h.next = g.next

lemma Without.applied {vs : List Vertex} {e : Effect} (ha : Applied g e h) (hw : Without h vs k)
    (hv : ∀ v ∈ vs, ∀ w, ¬ h.Joined v w) : Applied g e k := by
  have old : ∀ v, k.has v → h.has v ∧ v ∉ vs := fun v hv => (hw.vertex v).1 hv
  have joined : ∀ a b, h.Joined a b → k.Joined a b := by
    intro a b hab
    rw [Joined, hw.link, if_neg]
    · exact hab
    rintro (c | c)
    · exact hv a c b hab
    · exact hv b c a (ha.coherent.back hab)
  refine ⟨ha.present, ha.nodup, hw.coherent, fun v hv => ha.vertex v (old v hv).1, fun v hv => ?_, fun v hv => ?_,
    fun a b hab => ?_, fun a b h1 h2 h3 h4 h5 => joined a b (ha.kept a b h1 h2 h3 h4 h5),
    fun f n h1 h2 h3 h4 h5 h6 => joined _ _ (ha.made f n h1 h2 h3 h4 h5 h6), fun hp v w c hc => ?_, hw.next.trans ha.next⟩
  · rw [hw.kindD (old v hv).2, ha.kind v (old v hv).1]
  · rw [hw.phase (old v hv).2]
    exact ha.phase v (old v hv).1
  · refine ha.joined a b ?_
    rw [Joined, hw.link] at hab
    split at hab
    · cases hab
    · exact hab
  · rw [hw.link] at hc
    split at hc
    · cases hc
    · exact ha.plain hp v w c hc

/-- **An effect** changes links between the pairs of its table, takes away its edges and vertices, and changes phases by
    half turns. -/
theorem applyEffect_spec (hg : g.Coherent) (e : Effect) : Gives (g.applyEffect e) (Applied g e) := by
  have made : Gives (g.addEdgeTable e.table) fun h => ∀ f n, (f, n) ∈ e.table → Lone n → ¬ g.Joined f.1 f.2 → h.Joined f.1 f.2 :=
    fun h eh f n hf hn hj => addEdgeTable_joined hg hf hn hj h eh
  refine .bind ((addEdgeTable_spec hg e.table).and made) fun h1 ⟨m1, made⟩ => ?_
  refine .bind (removeEdges_spec m1.coherent e.edges) fun h2 ⟨r2, c2, l2⟩ => ?_
  refine .bind (P := Applied g e) ?_ fun h3 a3 => ?_
  · refine (removeVertices_spec c2 e.vertices).mono fun h3 w3 => ?_
    have kept := m1.kept.trans r2.kept
    have stays : ∀ a b, h1.Joined a b → ¬ Spanned e.edges a b → a ∉ e.vertices → b ∉ e.vertices → h3.Joined a b := by
      intro a b hab he ha hb
      have he : ¬ ∃ f ∈ e.edges, Between f a b := he
      rw [Joined, w3.link, if_neg (not_or.2 ⟨ha, hb⟩), l2, if_neg he]
      exact hab
    refine ⟨fun v hv => (kept.vertex v).symm.trans (w3.present v hv), w3.nodup, w3.coherent, fun v hv => ?_, fun v hv => ?_,
      fun v hv => ?_, fun a b hab => ?_, fun a b hab ht => stays a b ?_, fun f n hf hn hj => stays _ _ (made f n hf hn hj),
      fun hp v w k hk => ?_, ?_⟩
    · rw [← kept.vertex v]
      exact (w3.vertex v).1 hv
    · rw [w3.kindD ((w3.vertex v).1 hv).2, kept.kindD]
    · rw [w3.phase ((w3.vertex v).1 hv).2]
      exact kept.phase v
    · rw [Joined, w3.link] at hab
      split at hab
      · cases hab
      rw [l2] at hab
      split at hab
      · cases hab
      · exact ⟨m1.joined hab, ‹_›⟩
    · rw [Joined, m1.link a b ht]
      exact hab
    · rw [w3.link] at hk
      split at hk
      · cases hk
      rw [l2] at hk
      split at hk
      · cases hk
      · exact m1.plain hp v w k hk
    · rw [w3.next, kept.next]
  · refine .ite (fun _ => ?_) fun _ => .pure a3
    refine (removeVertices_spec a3.coherent _).mono fun h4 w4 => w4.applied a3 fun v hv w hj => ?_
    rw [List.mem_filter, List.isEmpty_iff] at hv
    rw [← mem_nearby, hv.2] at hj
    cases hj

end Diagram

end ZXCircuits

namespace ZXCircuits.Diagram

open List Finset

variable {g h k : Diagram} {a b u v w : Vertex} {e : Effect}

/-- The vertices with a phase that is no multiple of a quarter turn. -/
def nonClifford (g : Diagram) : Finset Vertex := ⟨g.vertices.filter fun v => 2 < (g.phase v).den, g.nodup_vertices.filter _⟩

lemma mem_nonClifford : v ∈ g.nonClifford ↔ g.has v ∧ ¬ (g.phase v).Quarters := by
  show v ∈ filter _ _ ↔ _
  rw [mem_filter, mem_vertices, ← Exact.den_le_two_iff, decide_eq_true_iff, not_le]

lemma tCount_eq_card (g : Diagram) : g.tCount = g.nonClifford.card := by
  rw [tCount, countP_eq_length_filter]
  refine congrArg length (filter_congr fun v _ => ?_)
  rw [phase]
  cases g.phases.get? v <;> rfl

lemma tCount_le_of_subset (hs : h.nonClifford ⊆ g.nonClifford) : h.tCount ≤ g.tCount := by
  rw [tCount_eq_card, tCount_eq_card]
  exact card_le_card hs

lemma tCount_eq_zero_iff : g.tCount = 0 ↔ ∀ v, g.has v → (g.phase v).Quarters := by
  rw [tCount_eq_card, card_eq_zero, eq_empty_iff_forall_notMem]
  refine forall_congr' fun v => ?_
  rw [mem_nonClifford]
  tauto

/-! ## Adding to phases -/

lemma foldl_addToPhase_spec (g : Diagram) (vs : List Vertex) (p : Exact) : Rephased g (vs.foldl (fun g v => g.addToPhase v p) g) ∧
      (∀ u, u ∉ vs → (vs.foldl (fun g v => g.addToPhase v p) g).phase u = g.phase u) ∧
      ∀ u, (g.phase u).Reduced → ((vs.foldl (fun g v => g.addToPhase v p) g).phase u).Reduced := by
  refine foldlRecOn (motive := fun h => Rephased g h ∧ (∀ u, u ∉ vs → h.phase u = g.phase u) ∧
    ∀ u, (g.phase u).Reduced → (h.phase u).Reduced) vs _ ⟨.refl g, fun _ _ => rfl, fun _ => id⟩ ?_
  rintro h ⟨r, ha, hr⟩ v hv
  refine ⟨r.trans (addToPhase_rephased h v p), fun u hu => ?_, fun u hu => ?_⟩
  · rw [phase_addToPhase, if_neg (fun c : u = v => hu (c ▸ hv)), ha u hu]
  rw [phase_addToPhase]
  split
  · exact Exact.modTwo_reduced _
  · exact hr u hu

lemma foldl_addToPhase_once (g : Diagram) {vs : List Vertex} (hn : vs.Nodup) {u : Vertex} (hu : u ∈ vs) (p : Exact) :
    (vs.foldl (fun g v => g.addToPhase v p) g).phase u = ((g.phase u).add p).modTwo := by
  obtain ⟨as, bs, rfl⟩ := append_of_mem hu
  have ha : u ∉ as := fun c => (nodup_append.1 hn).2.2 u c u (by simp) rfl
  have hb : u ∉ bs := (nodup_cons.1 (nodup_append.1 hn).2.1).1
  rw [foldl_append, foldl_cons, (foldl_addToPhase_spec _ bs p).2.1 u hb, phase_addToPhase, if_pos rfl,
    (foldl_addToPhase_spec g as p).2.1 u ha]

lemma foldl_addToPhase_halfTurns (g : Diagram) (vs : List Vertex) {p : Exact} (hp : p.Whole) (u : Vertex) :
    Exact.HalfTurns (g.phase u) ((vs.foldl (fun g v => g.addToPhase v p) g).phase u) :=
  foldlRecOn (motive := fun h => Exact.HalfTurns (g.phase u) (h.phase u)) vs _ (.refl _) fun h hh v _ =>
    hh.trans (halfTurns_addToPhase hp h v u)

/-- Multiples of a quarter turn stay such and become such nowhere. -/
def SameQuarters (g h : Diagram) : Prop := ∀ u, (h.phase u).Quarters ↔ (g.phase u).Quarters

lemma SameQuarters.refl (g : Diagram) : SameQuarters g g := fun _ => Iff.rfl

lemma SameQuarters.trans (h1 : SameQuarters g h) (h2 : SameQuarters h k) : SameQuarters g k := fun u => (h2 u).trans (h1 u)

lemma foldl_addToPhase_quarters (g : Diagram) (vs : List Vertex) {p : Exact} (hp : p.Quarters) :
    SameQuarters g (vs.foldl (fun g v => g.addToPhase v p) g) := by
  refine foldlRecOn vs _ (.refl g) fun h hh v _ => hh.trans fun u => ?_
  rw [phase_addToPhase]
  split
  · rename_i hu
    rw [hu]
    exact hp.add_iff
  · rfl

lemma Rephased.nonClifford (r : Rephased g h) (hq : SameQuarters g h) : h.nonClifford = g.nonClifford := by
  ext v
  rw [mem_nonClifford, mem_nonClifford, r.has, hq v]

lemma Kept.nonClifford (hk : Kept g h) : h.nonClifford = g.nonClifford := by
  ext v
  rw [mem_nonClifford, mem_nonClifford, hk.vertex, (hk.phase v).quarters_iff]

lemma card_nonClifford_le_of_move (w leaf : Vertex) (hv : ∀ u, h.has u → ¬ (h.phase u).Quarters →
      u ≠ w ∧ ((u = leaf ∧ w ∈ g.nonClifford) ∨ u ∈ g.nonClifford)) : h.nonClifford.card ≤ g.nonClifford.card := by
  have moved : ∀ u ∈ h.nonClifford, u ≠ w ∧ ((u = leaf ∧ w ∈ g.nonClifford) ∨ u ∈ g.nonClifford) := fun u hu =>
    hv u (mem_nonClifford.1 hu).1 (mem_nonClifford.1 hu).2
  by_cases hw : w ∈ g.nonClifford
  · calc h.nonClifford.card ≤ (insert leaf (g.nonClifford.erase w)).card := by
          refine card_le_card fun u hu => ?_
          obtain ⟨hne, ⟨rfl, -⟩ | hg⟩ := moved u hu
          · exact mem_insert_self _ _
          · exact Finset.mem_insert_of_mem (Finset.mem_erase.2 ⟨hne, hg⟩)
      _ ≤ (g.nonClifford.erase w).card + 1 := card_insert_le _ _
      _ = g.nonClifford.card := card_erase_add_one hw
  refine card_le_card fun u hu => ?_
  obtain ⟨-, ⟨-, hc⟩ | hg⟩ := moved u hu
  · exact absurd hc hw
  · exact hg

lemma Applied.nonClifford (ha : Applied g e h) : h.nonClifford ⊆ g.nonClifford.filter fun v => v ∉ e.vertices := by
  intro v hv
  rw [mem_nonClifford] at hv
  rw [Finset.mem_filter, mem_nonClifford]
  obtain ⟨hgv, hn⟩ := ha.vertex v hv.1
  exact ⟨⟨hgv, fun hq => hv.2 ((ha.phase v hv.1).quarters_iff.2 hq)⟩, hn⟩

lemma Applied.tCount_le (ha : Applied g e h) : h.tCount ≤ g.tCount := tCount_le_of_subset (ha.nonClifford.trans (filter_subset _ _))

end ZXCircuits.Diagram
