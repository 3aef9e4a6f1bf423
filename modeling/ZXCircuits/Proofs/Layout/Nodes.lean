/-
  Diagrams drawn one vertex after another.

  A vertex that comes in hangs on vertices that are there: on the one before it on its wire, and perhaps on one beside it on its row
  (`Node`).  A list of nodes says all that there is to be seen of such a diagram (`Diagram.Shows`), and gates can be read off the nodes
  (`Node.reading`).
-/
import ZXCircuits.Proofs.Meaning.Spider
import ZXCircuits.Proofs.Motion.Local

namespace ZXCircuits

open List

lemma getElem?_concat {α : Type} (l : List α) (a : α) (i : ℕ) : (l ++ [a])[i]? = if i = l.length then some a else l[i]? := by
  split
  · rename_i h
    rw [h, getElem?_concat_length]
  rename_i h
  rcases Nat.lt_or_gt_of_ne h with h | h
  · rw [getElem?_append_left h]
  · rw [getElem?_eq_none (by rw [length_append, length_singleton]; omega), getElem?_eq_none (by omega)]

lemma getElem?_append_of_some {α : Type} {l m : List α} {a : α} {i : ℕ} (h : l[i]? = some a) : (l ++ m)[i]? = some a := by
  rw [getElem?_append_left (List.getElem?_eq_some_iff.1 h).1, h]

/-- A vertex as it is drawn, with the gates that are read off it. -/
structure Node where
  kind : VertexKind
  phase : ℚ
  wire : ℤ
  row : ℤ
  /-- The vertex before it on its wire and the edge to it. -/
  back : Option (Vertex × EdgeKind) := none
  /-- A vertex beside it on its row and the edge to it. -/
  side : Option (Vertex × EdgeKind) := none
  gates : List Gate := []

namespace Node

/-- The edges to vertices that came in before. -/
def edges (x : Node) : Table Vertex EdgeKind := x.back.toList ++ x.side.toList

/-- The edge between two vertices, as the later one of them has it. -/
def linkOf (ns : List Node) (v w : ℕ) : Option EdgeKind := (ns[max v w]?).bind fun x => Table.find? x.edges (min v w)

lemma linkOf_comm (ns : List Node) (v w : ℕ) : linkOf ns v w = linkOf ns w v := by
  rw [linkOf, linkOf, max_comm, min_comm]

lemma linkOf_of_lt {ns : List Node} {v w : ℕ} (h : w < v) : linkOf ns v w = (ns[v]?).bind fun x => Table.find? x.edges w := by
  rw [linkOf, max_eq_left h.le, min_eq_right h.le]

lemma linkOf_append {ns : List Node} {x : Node} {v w : ℕ} : linkOf (ns ++ [x]) v w =
    if max v w = ns.length then Table.find? x.edges (min v w) else linkOf ns v w := by
  rw [linkOf, getElem?_concat]
  split <;> rfl

end Node

open Node

/-! ## Diagrams and nodes -/

namespace Table

variable {κ α : Type} [DecidableEq κ]

lemma find?_append_singleton (t : Table κ α) (k l : κ) (a : α) :
    find? (t ++ [(k, a)]) l = (find? t l).or (if k = l then some a else none) := by
  induction t with
  | nil => rfl
  | cons q t ih =>
    rw [cons_append, find?, find?]
    split
    · rfl
    · exact ih

end Table

namespace Diagram

variable {g h : Diagram} {ns : List Node} {x y : Node} {u : ℕ} {e : EdgeKind} {q r : ℤ} {p : Exact}

/-- The vertices of the diagram are the positions of the nodes. -/
structure Shows (g : Diagram) (ns : List Node) : Prop where
  coherent : g.Coherent
  vertex : ∀ v : ℕ, g.has v ↔ v < ns.length
  next : g.next = ns.length
  kind : ∀ v : ℕ, g.kinds.get? v = ns[v]?.map Node.kind
  phase : ∀ v : ℕ, (g.phases.get? v).map Exact.toRat = ns[v]?.map Node.phase
  qubit : ∀ v : ℕ, g.qubits.get? v = ns[v]?.map fun x => .int x.wire
  row : ∀ v : ℕ, g.rows.get? v = ns[v]?.map fun x => .int x.row
  link : ∀ v w : ℕ, g.link v w = linkOf ns v w

lemma shows_nil : Shows {} [] :=
  ⟨by decide, fun v => by simp [has], rfl, fun v => rfl, fun v => rfl, fun v => rfl, fun v => rfl, fun v w => rfl⟩

lemma Shows.withPorts (hs : Shows g ns) (inputs outputs : List Vertex) : Shows { g with inputs := inputs, outputs := outputs } ns :=
  ⟨⟨hs.coherent.nodup, hs.coherent.symm, hs.coherent.below⟩, hs.vertex, hs.next, hs.kind, hs.phase, hs.qubit, hs.row, hs.link⟩

lemma modTwo_zero : Rat.modTwo 0 = 0 := by decide +kernel

lemma modTwo_of_isZero (hp : p.isZero) : Rat.modTwo p.toRat = 0 := by
  rw [Exact.isZero, beq_iff_eq] at hp
  rw [hp, modTwo_zero]

lemma addVertex_maps (g : Diagram) (k : VertexKind) (hq : q ≠ -1) (hr : r ≠ -1) (p : Exact) :
    let h := (g.addVertex k (.int q) (.int r) p).1
    (∀ v, h.kinds.get? v = if v = g.next then some k else g.kinds.get? v) ∧
    (∀ v, (h.phases.get? v).map Exact.toRat =
      if v = g.next then some (Rat.modTwo p.toRat) else (g.phases.get? v).map Exact.toRat) ∧
    (∀ v, h.qubits.get? v = if v = g.next then some (.int q) else g.qubits.get? v) ∧
    ∀ v, h.rows.get? v = if v = g.next then some (.int r) else g.rows.get? v := by
  have hq : (Coord.int q).same unset = false := by simpa [Coord.same, unset] using hq
  have hr : (Coord.int r).same unset = false := by simpa [Coord.same, unset] using hr
  simp only [addVertex, startTracking, hq, hr, Bool.false_eq_true, if_false]
  refine ⟨fun v => ?_, fun v => ?phase, fun v => ?_, fun v => ?_⟩
  case phase =>
    by_cases hp : p.isZero
    · rw [modTwo_of_isZero hp]
      split_ifs <;> simp only [setKind, setQubit, setRow, addBare, get?_insert_vertex, *] <;> rfl
    · split_ifs <;> simp only [setKind, setQubit, setRow, setPhase, addBare, get?_insert_vertex, *] <;> rfl
  all_goals split_ifs <;> simp only [setKind, setQubit, setRow, setPhase, addBare, get?_insert_vertex, *] <;> rfl

lemma Shows.addVertex (hs : Shows g ns) (k : VertexKind) (hq : q ≠ -1) (hr : r ≠ -1) (p : Exact) (gs : List Gate) :
    Shows (g.addVertex k (.int q) (.int r) p).1 (ns ++ [{ kind := k, phase := Rat.modTwo p.toRat, wire := q, row := r, gates := gs }]) := by
  obtain ⟨-, hg⟩ := addVertex_spec g k (.int q) (.int r) p
  obtain ⟨kinds, phases, qubits, rows⟩ := addVertex_maps g k hq hr p
  refine ⟨hg.coherent hs.coherent, fun v => ?_, ?_, fun v => ?_, fun v => ?_, fun v => ?_, fun v => ?_, fun v w => ?_⟩
  · rw [hg.vertex, hs.vertex, hs.next, length_append, length_singleton, Nat.lt_succ_iff, Nat.le_iff_lt_or_eq, or_comm]
  · rw [hg.next, hs.next, length_append, length_singleton]
  · rw [kinds, getElem?_concat, hs.kind, hs.next, apply_ite (Option.map _)]
    rfl
  · rw [phases, getElem?_concat, hs.phase, hs.next, apply_ite (Option.map _)]
    rfl
  · rw [qubits, getElem?_concat, hs.qubit, hs.next, apply_ite (Option.map _)]
    rfl
  · rw [rows, getElem?_concat, hs.row, hs.next, apply_ite (Option.map _)]
    rfl
  · rw [hg.link_of_coherent hs.coherent, hs.link, linkOf_append]
    split
    · rename_i hm
      rw [linkOf, hm, getElem?_eq_none le_rfl]
      rfl
    · rfl

/-- **A new edge at the last vertex** is a new edge of the last node. -/
theorem Shows.addEdge (hs : Shows g (ns ++ [x])) (hu : u < ns.length) (hn : Table.find? x.edges u = none)
    (hy : y.edges = x.edges ++ [(u, e)]) (hk : y.kind = x.kind ∧ y.phase = x.phase ∧ y.wire = x.wire ∧ y.row = x.row) :
    ∃ h, g.addEdge (u, ns.length) e = .ok h ∧ Shows h (ns ++ [y]) ∧ h.inputs = g.inputs ∧ h.outputs = g.outputs := by
  have hlen : ∀ z : Node, (ns ++ [z]).length = ns.length + 1 := fun z => by rw [length_append, length_singleton]
  obtain ⟨h, eh⟩ := addEdge_returns ((hs.vertex u).2 (by rw [hlen]; omega)) ((hs.vertex ns.length).2 (by rw [hlen]; omega)) e
  obtain ⟨r, l, c⟩ := addEdge_spec g (u, ns.length) e h eh
  obtain ⟨hkind, hphase, hwire, hrow⟩ := hk
  have same : ∀ {β : Type} (f : Node → β), f y = f x → ∀ {v : ℕ}, (ns ++ [x])[v]?.map f = (ns ++ [y])[v]?.map f := by
    intro β f hf v
    rw [getElem?_concat, getElem?_concat, apply_ite (Option.map f), apply_ite (Option.map f), Option.map_some, Option.map_some, hf]
  refine ⟨h, eh, ⟨c hs.coherent, fun v => ?_, ?_, fun v => ?_, fun v => ?_, fun v => ?_, fun v => ?_, fun v w => ?_⟩, ?_, ?_⟩
  · rw [r.vertex, hs.vertex, hlen, hlen]
  · rw [r.next, hs.next, hlen, hlen]
  · rw [r.kinds, hs.kind, same Node.kind hkind]
  · rw [r.phases, hs.phase, same Node.phase hphase]
  · rw [show h.qubits = g.qubits by rw [r.beside], hs.qubit, same (fun z => Coord.int z.wire) (by rw [hwire])]
  · rw [show h.rows = g.rows by rw [r.beside], hs.row, same (fun z => Coord.int z.row) (by rw [hrow])]
  · rw [l, hs.link, linkOf_append, linkOf_append, hy, Table.find?_append_singleton]
    have between : Between (u, ns.length) v w ↔ max v w = ns.length ∧ u = min v w := by
      show (v = u ∧ w = ns.length ∨ v = ns.length ∧ w = u) ↔ _
      omega
    by_cases hm : max v w = ns.length
    · by_cases hmin : u = min v w
      · rw [if_pos (between.2 ⟨hm, hmin⟩), if_pos hm, ← hmin, hn, if_pos rfl]
        rfl
      · rw [if_neg fun hb => hmin (between.1 hb).2, if_pos hm, if_pos hm, if_neg hmin, Option.or_none]
    · rw [if_neg fun hb => hm (between.1 hb).1, if_neg hm, if_neg hm]
  · rw [r.beside]
  · rw [r.beside]

/-- **Nodes say what a diagram means.** -/
theorem Shows.amplitude_eq (hg : Shows g ns) (hh : Shows h ns) (ls : List (Vertex × Bool)) : g.amplitude ls = h.amplitude ls := by
  have link : g.link = h.link := funext₂ fun v w => (hg.link v w).trans (hh.link v w).symm
  have kind : g.kindD = h.kindD := funext fun v => by rw [kindD, kindD, hg.kind, hh.kind]
  have phase : ∀ v, (g.phase v).toRat = (h.phase v).toRat := fun v => by
    have e := (hg.phase v).trans (hh.phase v).symm
    rw [Diagram.phase, Diagram.phase, ← Option.getD_map Exact.toRat, ← Option.getD_map Exact.toRat, e]
  have vertices : g.vertices.toFinset = h.vertices.toFinset := by
    ext v
    simp only [mem_toFinset, mem_vertices, hg.vertex, hh.vertex]
  have edges : g.edges.toFinset = h.edges.toFinset := by
    ext e
    simp only [mem_toFinset, mem_edges, Joined, link]
  simp only [amplitude, weight, legs, join, edgeKind_eq, link, kind, phase, vertices, edges]

end Diagram

/-! ## Reading nodes -/

namespace Node

variable {n : ℕ} {split : Bool} {ns ms : List Node} {x y : Node} {i : ℕ}

def sideGate (ns : List Node) (x : Node) (q : Vertex × EdgeKind) : Attempt Gate :=
  match ns[q.1]? with
  | some y => Circuit.verticalGate x.kind y.kind q.2 x.wire y.wire
  | none => .error .absent

def hadOf (e : EdgeKind) (wire : ℤ) : List Gate := if e = .hadamard then [Gate.had wire] else []

def reading (split : Bool) (ns : List Node) (x : Node) : Attempt (List Gate) :=
  match x.back with
  | none => .error .multipleParents
  | some (_, e) =>
    if x.kind = .boundary then .ok (hadOf e x.wire)
    else do
      let vertical ← x.side.toList.mapM (sideGate ns x)
      return hadOf e x.wire ++ Circuit.phaseGates (x.kind = .z) split x.wire x.phase ++ vertical

/-- A node stands behind the one it hangs on and beside the one it is joined to. -/
structure Placed (ns : List Node) (i : ℕ) (x : Node) : Prop where
  back : ∀ u e, x.back = some (u, e) → u < i ∧ ∃ y, ns[u]? = some y ∧ y.wire = x.wire ∧ y.row < x.row
  side : ∀ u e, x.side = some (u, e) → u < i ∧ ∃ y, ns[u]? = some y ∧ y.row = x.row

/-- The wires that the gates of a node act on. -/
def wires (x : Node) : Set ℤ := {l | ∃ g ∈ x.gates, l ∈ g.wires}

/-- Nodes for gates on the wires from zero up to `n`: first the inputs, then nodes off which their gates are read.  Nodes with
    gates on one wire are on rows in order. -/
structure Drawn (n : ℕ) (split : Bool) (ns : List Node) : Prop where
  inputs : ∀ i < n, ∃ x, ns[i]? = some x ∧ x.wire = i ∧ x.gates = []
  placed : ∀ i x, ns[i]? = some x → Placed ns i x
  reads : ∀ i x, n ≤ i → ns[i]? = some x → x.reading split ns = .ok x.gates
  onWire : ∀ x ∈ ns, OnWire n x.wire
  fits : ∀ x ∈ ns, ∀ g ∈ x.gates, g.Fits n
  apart : ns.Pairwise fun x y => y.row < x.row → ∀ l ∈ x.wires, l ∉ y.wires

lemma Placed.append (h : Placed ns i x) (ms : List Node) : Placed (ns ++ ms) i x := by
  constructor
  · intro u e hu
    obtain ⟨hlt, y, hy, hw⟩ := h.back u e hu
    exact ⟨hlt, y, getElem?_append_of_some hy, hw⟩
  · intro u e hu
    obtain ⟨hlt, y, hy, hw⟩ := h.side u e hu
    exact ⟨hlt, y, getElem?_append_of_some hy, hw⟩

lemma Placed.reading_append (h : Placed ns i x) (ms : List Node) : x.reading split (ns ++ ms) = x.reading split ns := by
  have side : x.side.toList.mapM (sideGate (ns ++ ms) x) = x.side.toList.mapM (sideGate ns x) := by
    cases hs : x.side with
    | none => rfl
    | some q =>
      obtain ⟨-, y, hy, -⟩ := h.side q.1 q.2 hs
      simp [Option.toList_some, mapM_cons, mapM_nil, sideGate, hy, getElem?_append_of_some hy]
  rw [reading, reading, side]

/-- **A node on a free row may be put behind the others**; the first nodes are inputs. -/
theorem Drawn.snoc (hd : Drawn n split ns) (hp : Placed ns ns.length x) (hr : x.reading split ns = .ok x.gates)
    (hw : OnWire n x.wire) (hf : ∀ g ∈ x.gates, g.Fits n) (ha : ∀ y ∈ ns, x.row < y.row → ∀ l ∈ y.wires, l ∉ x.wires) :
    Drawn n split (ns ++ [x]) := by
  refine ⟨fun i hi => ?_, fun i y hy => ?_, fun i y hi hy => ?_, fun y hy => ?_, fun y hy => ?_, ?_⟩
  · obtain ⟨y, hy, h⟩ := hd.inputs i hi
    exact ⟨y, getElem?_append_of_some hy, h⟩
  · rw [getElem?_concat] at hy
    split at hy
    · obtain rfl := Option.some.inj hy
      rename_i hi
      exact hi ▸ hp.append [x]
    · exact (hd.placed i y hy).append [x]
  · rw [getElem?_concat] at hy
    split at hy
    · obtain rfl := Option.some.inj hy
      rw [hp.reading_append]
      exact hr
    · rw [(hd.placed i y hy).reading_append]
      exact hd.reads i y hi hy
  · rcases mem_append.1 hy with hy | hy
    · exact hd.onWire y hy
    · rw [mem_singleton.1 hy]
      exact hw
  · rcases mem_append.1 hy with hy | hy
    · exact hd.fits y hy
    · rw [mem_singleton.1 hy]
      exact hf
  · rw [pairwise_append]
    refine ⟨hd.apart, pairwise_singleton _ _, fun y hy z hz => ?_⟩
    rw [mem_singleton.1 hz]
    exact ha y hy

end Node

end ZXCircuits
