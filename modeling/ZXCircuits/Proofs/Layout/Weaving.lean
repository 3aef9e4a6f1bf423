/-
  Where the gates of a circuit are drawn.

  A gate puts its nodes on a row that is free on all its wires.  So nodes with gates on a common wire are on rows in the order in which
  the gates came (`Weaving.Layout`), and the gates that are read off the new nodes do what the gate does (`Weaving.Laid`).
-/
import ZXCircuits.Proofs.Layout.Thread

namespace ZXCircuits

open List Diagram Table Circuit Course ZXCircuits.Rat Function Node

/-! ## Tables -/

namespace Table

variable {κ α β : Type} [DecidableEq κ] (t : Table κ α)

lemma find?_map (f : α → β) (k : κ) : find? (t.map fun q => (q.1, f q.2)) k = (find? t k).map f := by
  induction t with
  | nil => rfl
  | cons q t ih =>
    rw [map_cons, find?, find?, ih]
    split <;> rfl

lemma find?_insert (k l : κ) (a : α) : find? (insert t k a) l = if l = k then some a else find? t l := by
  split
  · rename_i h
    rw [h, find?_insert_self]
  · rename_i h
    rw [find?_insert_of_ne _ h]

end Table

namespace Weaving

variable {n : ℕ} {split : Bool} {w w' : Weaving} {ns : List Node} {l c t row : ℤ} {e : WireEnd} {k kc kt : VertexKind}
  {p : ℚ} {ek : EdgeKind} {g : Gate} {m : Course} {d : Diagram}

def endOf (w : Weaving) (l : ℤ) : ℕ := ((w.wires.find? l).map WireEnd.vertex).getD 0

def freeOf (w : Weaving) (l : ℤ) : ℤ := ((w.wires.find? l).map WireEnd.row).getD 1

/-- The nodes of a diagram under construction: every wire has the position of its label, and its open end is that of its thread. -/
structure Layout (n : ℕ) (split : Bool) (w : Weaving) (ns : List Node) : Prop where
  labels : Table.keys w.wires = (range n).map Int.ofNat
  position : ∀ l e, w.wires.find? l = some e → e.position = l
  shows : w.diagram.Shows ns
  inputs : w.diagram.inputs = range n
  outputs : w.diagram.outputs = []
  thread : Thread n split ns w.endOf w.freeOf

lemma Layout.find? (hL : Layout n split w ns) (hl : OnWire n l) : w.wires.find? l = some ⟨l, w.endOf l, w.freeOf l⟩ := by
  have hk : l ∈ Table.keys w.wires := hL.labels ▸ mem_wires.2 hl
  obtain ⟨⟨q, v, r⟩, he⟩ := Option.isSome_iff_exists.1 ((find?_isSome_iff _ _).2 hk)
  obtain rfl : q = l := hL.position l _ he
  rw [endOf, freeOf, he]
  rfl

lemma Layout.onWire (hL : Layout n split w ns) (he : w.wires.find? l = some e) : OnWire n l :=
  mem_wires.1 (hL.labels ▸ (find?_isSome_iff _ _).1 (by rw [he]; rfl))

lemma wire_eq (he : w.wires.find? l = some e) : w.wire l = .ok e := by
  rw [Weaving.wire, he]
  rfl

/-- The open end of a wire set anew. -/
def setEnd (w : Weaving) (d : Diagram) (l : ℤ) (v : ℕ) (row : ℤ) : Weaving := ⟨d, w.wires.insert l ⟨l, v, row⟩⟩

variable (v : ℕ)

lemma endOf_setEnd : (w.setEnd d l v row).endOf = update w.endOf l v := by
  funext l'
  rw [endOf, setEnd, Table.find?_insert, update_apply]
  split <;> rfl

lemma freeOf_setEnd : (w.setEnd d l v row).freeOf = update w.freeOf l row := by
  funext l'
  rw [freeOf, setEnd, Table.find?_insert, update_apply]
  split <;> rfl

lemma insert_insert (t : Table ℤ WireEnd) (l : ℤ) (a b : WireEnd) : (t.insert l a).insert l b = t.insert l b := by
  induction t with
  | nil => simp [Table.insert]
  | cons q t ih =>
    by_cases h : q.1 = l
    · simp [Table.insert, h]
    · simp [Table.insert, h, ih]

lemma Layout.setEnd (hL : Layout n split w ns) (hl : OnWire n l) {ms : List Node} {v : ℕ} (hs : d.Shows ms)
    (hin : d.inputs = w.diagram.inputs) (hout : d.outputs = w.diagram.outputs)
    (ht : Thread n split ms (update w.endOf l v) (update w.freeOf l row)) : Layout n split (w.setEnd d l v row) ms := by
  refine ⟨?_, fun l' e he => ?_, hs, hin.trans hL.inputs, hout.trans hL.outputs, ?_⟩
  · rw [Weaving.setEnd, keys_insert, if_pos (hL.labels ▸ mem_wires.2 hl), hL.labels]
  · rw [Weaving.setEnd, Table.find?_insert] at he
    split at he
    · obtain rfl := Option.some.inj he
      exact ‹l' = l›.symm
    · exact hL.position l' e he
  · rw [endOf_setEnd, freeOf_setEnd]
    exact ht

/-! ## One gate -/

lemma addNode_shows (hs : w.diagram.Shows ns) (he : w.wires.find? l = some e) (hp : e.position = l) (hl : 0 ≤ l) (hrow : 0 ≤ row)
    (hv : e.vertex < ns.length) (k : VertexKind) (p : ℚ) (ek : EdgeKind) (split : Bool) :
    ∃ d, w.addNode l k row p ek = .ok (w.setEnd d l ns.length e.row, ns.length) ∧ d.inputs = w.diagram.inputs ∧
      d.outputs = w.diagram.outputs ∧ d.Shows (ns ++ [hung split k p l row e.vertex ek]) := by
  obtain ⟨q, v, r⟩ := e
  obtain rfl : q = l := hp
  obtain ⟨hin, hout⟩ := addVertex_inputs w.diagram k (.int q) (.int row) (.ratio p)
  have hs1 := hs.addVertex (q := q) (r := row) k (by omega) (by omega) (.ratio p) []
  obtain ⟨d, ed, hd, hdin, hdout⟩ := hs1.addEdge (y := hung split k p q row v ek) hv rfl rfl ⟨rfl, rfl, rfl, rfl⟩
  refine ⟨d, ?_, hdin.trans hin, hdout.trans hout, hd⟩
  rw [addNode, wire_eq he, ← hs.next]
  show (do let g ← (w.diagram.addVertex k (.int q) (.int row) (.ratio p)).1.addEdge (v, w.diagram.next) ek; _) = _
  rw [hs.next, ed]
  rfl

lemma Layout.congr (hL : Layout n split w ns) (hd : w'.diagram = w.diagram) (hk : Table.keys w'.wires = Table.keys w.wires)
    (hf : ∀ l, w'.wires.find? l = w.wires.find? l) : Layout n split w' ns := by
  have ends : w'.endOf = w.endOf := funext fun l => by rw [endOf, endOf, hf]
  have free : w'.freeOf = w.freeOf := funext fun l => by rw [freeOf, freeOf, hf]
  exact ⟨hk.trans hL.labels, fun l e he => hL.position l e (hf l ▸ he), hd ▸ hL.shows, hd ▸ hL.inputs, hd ▸ hL.outputs,
    ends ▸ free ▸ hL.thread⟩

lemma setRow_eq (he : w.wires.find? l = some e) (row : ℤ) : w.setRow l row = .ok { w with wires := w.wires.insert l { e with row := row } } := by
  rw [setRow, wire_eq he]
  rfl

lemma setRow_setEnd (r : ℤ) : (w.setEnd d l v r).setRow l row = .ok (w.setEnd d l v row) := by
  have he : (w.setEnd d l v r).wires.find? l = some ⟨l, v, r⟩ := find?_insert_self _ _ _
  rw [setRow, wire_eq he]
  show Except.ok (⟨d, (w.wires.insert l ⟨l, v, r⟩).insert l ⟨l, v, row⟩⟩ : Weaving) = _
  rw [insert_insert]
  rfl

section

variable (hL : Layout n split w ns)
include hL

lemma Layout.node (hl : OnWire n l) (hrow : w.freeOf l ≤ row) (hk : k = .boundary ∨ k = .z ∨ k = .x) (p : ℚ) (ek : EdgeKind) :
    ∃ d, w.addNode l k row p ek = .ok (w.setEnd d l ns.length (w.freeOf l), ns.length) ∧
      Layout n split (w.setEnd d l ns.length (row + 1)) (ns ++ [hung split k p l row (w.endOf l) ek]) := by
  obtain ⟨x, hx, -, -, h0⟩ := hL.thread.ends l hl
  obtain ⟨d, ed, hin, hout, hs⟩ := addNode_shows hL.shows (hL.find? hl) rfl hl.1 (h0.le.trans hrow) (List.getElem?_eq_some_iff.1 hx).1
    k p ek split
  exact ⟨d, ed, hL.setEnd hl hs hin hout (hL.thread.hang hl hrow hk p ek)⟩

lemma Layout.single (hl : OnWire n l) (hk : k = .z ∨ k = .x) (p : ℚ) (ek : EdgeKind) :
    ∃ w', w.single l k p ek = .ok w' ∧ Layout n split w' (ns ++ [hung split k p l (w.freeOf l) (w.endOf l) ek]) := by
  obtain ⟨d, ed, hd⟩ := hL.node hl le_rfl (.inr hk) p ek
  refine ⟨_, ?_, hd⟩
  simp only [Weaving.single, wire_eq (hL.find? hl), ed, bind, Except.bind]
  exact setRow_setEnd _ _

/-- **Joined vertices on two wires** show the gate of their edge. -/
theorem Layout.pair (hc : OnWire n c) (ht : OnWire n t) (hct : c ≠ t) (hkc : kc = .z ∨ kc = .x) (hkt : kt = .z ∨ kt = .x)
    (hv : verticalGate kc kt ek c t = .ok g) : ∃ w' u v row, w.pair c t kc kt ek = .ok w' ∧
      Layout n split w' (ns ++ [hung split kt 0 t row u .regular] ++ [(hung split kc 0 c row v .regular).joined ns.length ek g]) := by
  obtain ⟨d1, e1, h1⟩ := hL.node ht (le_max_left (w.freeOf t) (w.freeOf c)) (.inr hkt) 0 .regular
  set row := max (w.freeOf t) (w.freeOf c) with hrow
  have hc1 : (w.setEnd d1 t ns.length (w.freeOf t)).wires.find? c = some ⟨c, w.endOf c, w.freeOf c⟩ := by
    rw [Weaving.setEnd, Table.find?_insert, if_neg hct, hL.find? hc]
  obtain ⟨y, hy, -, -, h0⟩ := hL.thread.ends c hc
  have hlt := (List.getElem?_eq_some_iff.1 hy).1
  have hc0 : w.freeOf c ≤ row := le_max_right _ _
  have hlen : ∀ x : Node, (ns ++ [x]).length = ns.length + 1 := fun x => length_append
  obtain ⟨d2, e2, hin2, hout2, hs2⟩ := addNode_shows (w := w.setEnd d1 t ns.length (w.freeOf t)) h1.shows hc1 rfl hc.1
    (h0.le.trans hc0) (by rw [hlen]; exact hlt.trans (Nat.lt_succ_self _)) kc 0 .regular split
  obtain ⟨d3, e3, hs3, hin3, hout3⟩ := hs2.addEdge
    (y := (hung split kc 0 c row (w.endOf c) .regular).joined ns.length ek g) (by rw [hlen]; exact Nat.lt_succ_self _)
    (if_neg (Nat.ne_of_lt hlt)) rfl ⟨rfl, rfl, rfl, rfl⟩
  -- the wires are set in another order than the nodes come in
  have thread := h1.thread.join hc
    (show _ ≤ row by rw [freeOf_setEnd, update_of_ne hct]; exact hc0) ht hct
    (by rw [endOf_setEnd, update_self]; exact getElem?_concat_length) rfl (by rw [freeOf_setEnd, update_self]) hkc hkt hv 0 .regular
  rw [hlen, endOf_setEnd, update_self, update_of_ne hct, ← show (w.setEnd d1 t ns.length (row + 1)).endOf = _ from endOf_setEnd _] at thread
  have joined := h1.setEnd hc hs3 (hin3.trans hin2) (hout3.trans hout2) thread
  set wires := (w.wires.insert t ⟨t, ns.length, w.freeOf t⟩).insert c ⟨c, ns.length + 1, w.freeOf c⟩ with hwires
  have et : wires.find? t = some ⟨t, ns.length, w.freeOf t⟩ := by simp [hwires, Table.find?_insert, hct.symm]
  have ec : (wires.insert t ⟨t, ns.length, row + 1⟩).find? c = some ⟨c, ns.length + 1, w.freeOf c⟩ := by
    simp [hwires, Table.find?_insert, hct]
  refine ⟨⟨d3, (wires.insert t ⟨t, ns.length, row + 1⟩).insert c ⟨c, ns.length + 1, row + 1⟩⟩, _, _, row, ?_, joined.congr rfl ?_ fun l => ?_⟩
  · simp only [Weaving.pair, wire_eq (hL.find? ht), wire_eq (hL.find? hc), e1, e2, hlen, bind, Except.bind, ← hrow]
    rw [hlen] at e3
    have e4 := setRow_eq (w := ⟨d3, wires⟩) et (row + 1)
    have e5 := setRow_eq (w := ⟨d3, wires.insert t ⟨t, ns.length, row + 1⟩⟩) ec (row + 1)
    simp only [Weaving.setEnd, e3, ← hwires, e4]
    exact e5
  · have mem : ∀ {l}, OnWire n l → l ∈ Table.keys w.wires := fun hl => hL.labels ▸ mem_wires.2 hl
    simp [hwires, Weaving.setEnd, keys_insert, mem hc, mem ht]
  · simp only [hwires, Weaving.setEnd, Table.find?_insert]
    split_ifs <;> rfl

end

/-- The nodes of a diagram under construction, with the course of the gates that are read off them. -/
def Laid (n : ℕ) (split : Bool) (w : Weaving) (m : Course) : Prop := ∃ ns, Layout n split w ns ∧ courseOf (ns.flatMap Node.gates) = m

lemma Laid.single (hw : Laid n split w m) (hl : OnWire n l) (hk : k = .z ∨ k = .x) (p : ℚ) (ek : EdgeKind) :
    ∃ w', w.single l k p ek = .ok w' ∧ Laid n split w' (m * (courseOf (hadOf ek l) * of (spun k l (modTwo p)))) := by
  obtain ⟨ns, hL, rfl⟩ := hw
  obtain ⟨w', e', hL'⟩ := hL.single hl hk p ek
  refine ⟨w', e', _, hL', ?_⟩
  rw [flatMap_append, courseOf_append, flatMap_singleton, courseOf_hung (.inr hk)]

lemma Laid.pair (hw : Laid n split w m) (hc : OnWire n c) (ht : OnWire n t) (hct : c ≠ t) (hkc : kc = .z ∨ kc = .x)
    (hkt : kt = .z ∨ kt = .x) (hv : verticalGate kc kt ek c t = .ok g) :
    ∃ w', w.pair c t kc kt ek = .ok w' ∧ Laid n split w' (m * of g.op.motion) := by
  obtain ⟨ns, hL, rfl⟩ := hw
  obtain ⟨w', u, v, row, e', hL'⟩ := hL.pair hc ht hct hkc hkt hv
  refine ⟨w', e', _, hL', ?_⟩
  have plain : ∀ k l u, (hung split k 0 l row u .regular).gates = [] := fun k l u => by simp [hung, hadOf, modTwo_zero, phaseGates_zero]
  rw [append_assoc, flatMap_append, courseOf_append, flatMap_append, flatMap_singleton, flatMap_singleton, joined, plain, plain,
    nil_append, nil_append, courseOf_cons, courseOf_nil, mul_one]

lemma xTurn_modTwo (l : ℤ) (p : ℚ) : of (xTurn l (modTwo p)) = of (xTurn l p) := by
  exact congrArg (fun m => Course.h l * (m * Course.h l)) (Course.z_modTwo l p)

/-- **A gate that needs no expansion** is read off its nodes, up to the order of its wires. -/
theorem Laid.basic (hw : Laid n split w m) (hg : g.IsBasic n) : ∃ w', w.basic g = .ok w' ∧ Laid n split w' (m * of g.op.motion) := by
  obtain ⟨op, i⟩ := g
  cases op with
  | had t =>
    obtain ⟨w', e', h'⟩ := hw.single hg (.inl rfl) 0 .hadamard
    refine ⟨w', e', ?_⟩
    rwa [modTwo_zero, spun, show of (zTurn t 0) = 1 from z_zero t, mul_one, hadOf, if_pos rfl, courseOf_cons, courseOf_nil, mul_one] at h'
  | rotation k t p =>
    have turn : of (Operation.rotation k t p).motion = if k.isZ then Course.z t p else of (xTurn t p) := apply_ite _ _ _ _
    simp only [Weaving.basic, turn]
    cases k.isZ with
    | true =>
      obtain ⟨w', e', h'⟩ := hw.single hg (.inl rfl) p .regular
      exact ⟨w', e', z_modTwo t p ▸ h'⟩
    | false =>
      obtain ⟨w', e', h'⟩ := hw.single hg (.inr rfl) p .regular
      exact ⟨w', e', xTurn_modTwo t p ▸ h'⟩
  | pair k c t =>
    obtain ⟨hk, hc, ht, hct⟩ := hg
    cases k with
    | cnot =>
      obtain ⟨w', e', h'⟩ := hw.pair hc ht hct (.inl rfl) (.inr rfl) (rfl : verticalGate .z .x .regular c t = .ok (Gate.cnot c t))
      exact ⟨w', e', h'⟩
    | cz =>
      obtain ⟨w', e', h'⟩ := hw.pair hc ht hct (.inl rfl) (.inl rfl) (rfl : verticalGate .z .z .hadamard c t = .ok (Gate.cz t c))
      have h' : Laid n split w' (m * Course.cz t c) := h'
      rw [cz_comm] at h'
      exact ⟨w', e', h'⟩
    | cx =>
      obtain ⟨w', e', h'⟩ := hw.pair hc ht hct (.inr rfl) (.inr rfl) (rfl : verticalGate .x .x .hadamard c t = .ok (Gate.cx t c))
      exact ⟨w', e', cx_comm t c ▸ h'⟩
    | swap => exact absurd rfl hk
  | _ => exact hg.elim

/-! ## Rows -/

lemma row_le_lastRow {r : ℤ} (hr : w.lastRow = .ok r) {q : ℤ × WireEnd} (hq : q ∈ w.wires) : q.2.row ≤ r := by
  have last : (w.wires.map fun kv => kv.2.row).max? = some r := by
    unfold lastRow at hr
    split at hr
    · cases hr
    · rename_i heq
      rw [heq, map_cons, max?_cons', ← Except.ok.inj hr, foldl_map]
  exact (max?_eq_some_iff.1 last).2 _ (mem_map_of_mem hq)

lemma Layout.lastRow_ok (hL : Layout n split w ns) (hn : 0 < n) : ∃ r, w.lastRow = .ok r := by
  unfold lastRow
  split
  · rename_i he
    have := congrArg length hL.labels
    rw [he, length_map, length_range] at this
    exact absurd this (Nat.ne_of_lt hn)
  · exact ⟨_, rfl⟩

lemma Laid.align (hw : Laid n split w m) (hn : 0 < n) (compress : Bool) : ∃ w', w.align compress = .ok w' ∧ Laid n split w' m := by
  obtain ⟨ns, hL, hm⟩ := hw
  cases compress with
  | true => exact ⟨w, rfl, ns, hL, hm⟩
  | false =>
    obtain ⟨r, hr⟩ := hL.lastRow_ok hn
    have find : ∀ l, (w.levelTo r).wires.find? l = (w.wires.find? l).map fun e => { e with row := r } := fun l => by
      exact Table.find?_map w.wires (fun e : WireEnd => { e with row := r }) l
    refine ⟨w.levelTo r, ?_, ns, ⟨?_, fun l e he => ?_, hL.shows, hL.inputs, hL.outputs, hL.thread.raise (fun l _ => ?_) fun l _ => ?_⟩, hm⟩
    · simp only [Weaving.align, level, hr, bind, Except.bind]
      rfl
    · rw [← hL.labels, levelTo, Table.keys, map_map]
      rfl
    · rw [find] at he
      obtain ⟨e', he', rfl⟩ := Option.map_eq_some_iff.1 he
      exact hL.position l e' he'
    · rw [endOf, endOf, find, Option.map_map]
      rfl
    · rw [freeOf, freeOf, find]
      cases he : w.wires.find? l with
      | none => exact le_rfl
      | some e => exact row_le_lastRow hr (mem_of_find? he)

lemma gate_eq (hg : g.Fits n) (compress : Bool) (w : Weaving) : gate compress w g =
    w.align compress >>= fun w => g.expand >>= fun gs => gs.foldlM basic w >>= align compress := by
  obtain ⟨op, i⟩ := g
  cases op with
  | initAncilla | postSelect => exact hg.elim
  | had | rotation | pair | triple | parity => rfl

lemma Laid.gate (hw : Laid n split w m) (hn : 0 < n) (hg : g.Fits n) (compress : Bool) :
    ∃ w', Weaving.gate compress w g = .ok w' ∧ Laid n split w' (m * of g.op.motion) := by
  obtain ⟨w1, e1, h1⟩ := hw.align hn compress
  obtain ⟨gs, eg, hb, hc⟩ := Gate.expand_spec hg
  obtain ⟨w2, e2, h2⟩ := foldlM_courseOf (fun g hm w m hw => hw.basic (hb g hm)) h1
  obtain ⟨w3, e3, h3⟩ := h2.align hn compress
  refine ⟨w3, ?_, by rwa [hc] at h3⟩
  simp only [gate_eq hg, e1, eg, e2, bind, Except.bind]
  exact e3

/-! ## Inputs -/

lemma start_succ (n : ℕ) : start ((range (n + 1)).map Int.ofNat) = (start ((range n).map Int.ofNat)).addInput n := by
  rw [start, range_succ, map_append, foldl_append]
  rfl

lemma start_shows (n : ℕ) : (start ((range n).map Int.ofNat)).diagram.Shows ((range n).map inputNode) ∧
    (start ((range n).map Int.ofNat)).diagram.inputs = range n ∧ (start ((range n).map Int.ofNat)).diagram.outputs = [] ∧
    (start ((range n).map Int.ofNat)).wires = (range n).map fun i : ℕ => ((i : ℤ), ⟨i, i, 1⟩) := by
  induction n with
  | zero => exact ⟨shows_nil, rfl, rfl, rfl⟩
  | succ n ih =>
    obtain ⟨hs, hin, hout, hwires⟩ := ih
    set w := start ((range n).map Int.ofNat)
    have hnext : w.diagram.next = n := by rw [hs.next, length_map, length_range]
    have hk : (n : ℤ) ∉ Table.keys w.wires := by
      rw [hwires, Table.keys, map_map]
      exact fun h => Int.lt_irrefl _ (mem_wires.1 h).2
    obtain ⟨hin', hout'⟩ := addVertex_inputs w.diagram .boundary (.int n) (.int 0) (.int 0)
    rw [start_succ]
    refine ⟨(Shows.addInput hs).withPorts _ _, ?_, hout'.trans hout, ?_⟩
    · refine (congrArg (· ++ [w.diagram.next]) hin').trans ?_
      rw [hnext, hin, range_succ]
    refine (insert_of_not_mem hk ⟨n, w.diagram.next, 1⟩).trans ?_
    rw [hnext, hwires, range_succ, map_append]
    rfl

lemma keys_start (n : ℕ) : Table.keys (start ((range n).map Int.ofNat)).wires = (range n).map Int.ofNat := by
  rw [(start_shows n).2.2.2, Table.keys, map_map]
  rfl

lemma start_laid (n : ℕ) (split : Bool) : Laid n split (start ((range n).map Int.ofNat)) 1 := by
  obtain ⟨hs, hin, hout, hwires⟩ := start_shows n
  refine ⟨(range n).map inputNode, ⟨keys_start n, fun l e he => ?_, hs, hin, hout, ?_⟩, by rw [flatMap_inputNodes, courseOf_nil]⟩
  · rw [hwires] at he
    obtain ⟨i, -, h⟩ := mem_map.1 (mem_of_find? he)
    obtain ⟨rfl, rfl⟩ := Prod.mk.inj h
    rfl
  have find : ∀ l, OnWire n l → (start ((range n).map Int.ofNat)).wires.find? l = some ⟨l, l.toNat, 1⟩ := by
    intro l hl
    obtain ⟨i, hi, rfl⟩ := mem_map.1 (mem_wires.2 hl)
    exact find?_of_mem (q := ((i : ℤ), ⟨i, i, 1⟩)) (keys_start n ▸ nodup_wires) (hwires ▸ mem_map_of_mem hi)
  refine (thread_inputs n split).raise (fun l hl => ?_) fun l hl => ?_
  · rw [endOf, find l hl]
    rfl
  · rw [freeOf, find l hl]
    rfl

/-! ## Outputs -/

lemma addOutput_shows (hs : d.Shows ns) (he : e.vertex < ns.length) (hl : 0 ≤ e.position) (h0 : 0 ≤ row) (split : Bool) :
    ∃ d', addOutput row d e = .ok d' ∧ d'.Shows (ns ++ [hung split .boundary 0 e.position row e.vertex .regular]) ∧ d'.inputs = d.inputs ∧
      d'.outputs = d.outputs ++ [ns.length] := by
  obtain ⟨hin, hout⟩ := addVertex_inputs d .boundary (.int e.position) (.int row) (.int 0)
  have hs1 := hs.addVertex (q := e.position) (r := row) .boundary (by omega) (by omega) (.int 0) []
  obtain ⟨d', ed, hd', hin', hout'⟩ := (hs1.withPorts _ (outputs _ ++ [d.next])).addEdge
    (y := hung split .boundary 0 e.position row e.vertex .regular) he rfl rfl ⟨rfl, rfl, rfl, rfl⟩
  refine ⟨d', ?_, hd', hin'.trans hin, hout'.trans ?_⟩
  · rw [addOutput, ← ed, ← hs.next]
    rfl
  · rw [← hs.next]
    exact congrArg (· ++ [d.next]) hout

lemma foldlM_addOutput (f : ℤ → ℤ) (ls : List ℤ) : ∀ {d : Diagram} {ns : List Node} {ends : ℤ → ℕ} {free : ℤ → ℤ},
    d.Shows ns → Thread n split ns ends free → ls.Nodup → (∀ l ∈ ls, OnWire n l ∧ free l ≤ row) →
      ∃ d' ms ends' free', (ls.map fun l => (⟨l, ends l, f l⟩ : WireEnd)).foldlM (addOutput row) d = .ok d' ∧ d'.Shows (ns ++ ms) ∧
        Thread n split (ns ++ ms) ends' free' ∧ ms.flatMap Node.gates = [] ∧ d'.inputs = d.inputs ∧
        d'.outputs = d.outputs ++ ls.map ends' ∧ ∀ l ∉ ls, ends' l = ends l := by
  induction ls with
  | nil =>
    intro d ns ends free hs ht _ _
    exact ⟨d, [], ends, free, rfl, by rwa [append_nil], by rwa [append_nil], rfl, rfl, by simp, fun _ _ => rfl⟩
  | cons l ls ih =>
    intro d ns ends free hs ht hn hl
    obtain ⟨new, hn⟩ := nodup_cons.1 hn
    obtain ⟨⟨hl, hrow⟩, hls⟩ := forall_mem_cons.1 hl
    obtain ⟨x, hx, -, -, h0⟩ := ht.ends l hl
    obtain ⟨d1, e1, hs1, hin1, hout1⟩ := addOutput_shows (e := ⟨l, ends l, f l⟩) hs (List.getElem?_eq_some_iff.1 hx).1 hl.1
      (h0.le.trans hrow) split
    have other : ∀ l' ∈ ls, l' ≠ l := fun l' hl' e => new (e ▸ hl')
    obtain ⟨d2, ms, ends', free', e2, hs2, ht2, hms, hin2, hout2, hends⟩ := ih hs1 (ht.hang hl hrow (.inl rfl) 0 .regular) hn
      fun l' hl' => ⟨(hls l' hl').1, by rw [update_of_ne (other l' hl')]; exact (hls l' hl').2⟩
    rw [map_congr_left fun l' hl' => by rw [update_of_ne (other l' hl')]] at e2
    rw [append_assoc] at hs2 ht2
    refine ⟨d2, _, ends', free', ?_, hs2, ht2, ?_, hin2.trans hin1, ?_, fun l' hl' => ?_⟩
    · rw [map_cons, foldlM_cons, e1]
      exact e2
    · rw [flatMap_append, hms, flatMap_singleton]
      rfl
    · rw [hout2, hout1, append_assoc, map_cons, hends l new, update_self]
      rfl
    · rw [mem_cons, not_or] at hl'
      rw [hends l' hl'.2, update_of_ne hl'.1]

lemma Laid.finish (hw : Laid n split w m) (hn : 0 < n) : ∃ d ns ends, w.finish = .ok d ∧ d.Shows ns ∧ Drawn n split ns ∧
    d.inputs = range n ∧ courseOf (ns.flatMap Node.gates) = m ∧ Traced n ns ends ∧ d.outputs = ((range n).map Int.ofNat).map ends := by
  obtain ⟨ns, hL, rfl⟩ := hw
  obtain ⟨row, hr⟩ := hL.lastRow_ok hn
  have values : values w.wires = ((range n).map Int.ofNat).map fun l => ⟨l, w.endOf l, w.freeOf l⟩ := by
    rw [← hL.labels, Table.keys, Table.values, map_map]
    refine map_congr_left fun q hq => ?_
    have hf := find?_of_mem (hL.labels ▸ nodup_wires) hq
    exact Option.some.inj (hf.symm.trans (hL.find? (hL.onWire hf)))
  have free : ∀ l ∈ (range n).map Int.ofNat, OnWire n l ∧ w.freeOf l ≤ row := fun l hl =>
    ⟨mem_wires.1 hl, row_le_lastRow hr (mem_of_find? (hL.find? (mem_wires.1 hl)))⟩
  obtain ⟨d, ms, ends, _, ed, hs, ht, hms, hin, hout, -⟩ := foldlM_addOutput w.freeOf _ hL.shows hL.thread nodup_wires free
  refine ⟨d, ns ++ ms, ends, ?_, hs, ht.drawn, hin.trans hL.inputs, ?_, ht.traced, by rw [hout, hL.outputs, nil_append]⟩
  · rw [Weaving.finish, hr, values]
    exact ed
  · rw [flatMap_append, hms, append_nil]

end Weaving

namespace Circuit

/-- **The diagram of a circuit is drawn by nodes**, and the gates that are read off them do what the circuit does. -/
theorem toDiagram_drawn {c : Circuit} (hq : 0 < c.qubits) (hg : ∀ g ∈ c.gates, g.Fits c.qubits.toNat) (compress split : Bool) :
    ∃ d ns ends, c.toDiagram compress = .ok d ∧ d.Shows ns ∧ Drawn c.qubits.toNat split ns ∧ d.inputs = range c.qubits.toNat ∧
      courseOf (ns.flatMap Node.gates) = courseOf c.gates ∧ Traced c.qubits.toNat ns ends ∧
      d.outputs = ((range c.qubits.toNat).map Int.ofNat).map ends := by
  have hn : 0 < c.qubits.toNat := by omega
  have step := fun g hm w m (hw : Weaving.Laid c.qubits.toNat split w m) => hw.gate hn (hg g hm) compress
  obtain ⟨w, ew, hw⟩ := foldlM_courseOf step (Weaving.start_laid c.qubits.toNat split)
  obtain ⟨d, ns, ends, ed, h⟩ := hw.finish hn
  rw [one_mul] at h
  refine ⟨d, ns, ends, ?_, h⟩
  simp only [toDiagram, wires, ew, bind, Except.bind]
  exact ed

/-- **The diagram of a circuit has the matrix of the circuit**, up to a scalar. -/
theorem toDiagram_linearMap {c : Circuit} (hq : 0 < c.qubits) (hg : ∀ g ∈ c.gates, g.Fits c.qubits.toNat) (compress : Bool) :
    ∃ g, c.toDiagram compress = .ok g ∧ g.inputs.length = c.qubits.toNat ∧ g.outputs.length = c.qubits.toNat ∧
      ∃ s : ℂ, s ≠ 0 ∧ g.linearMap c.qubits.toNat c.qubits.toNat = s • c.unitary := by
  obtain ⟨g, ns, ends, eg, hs, -, hin, hm, ht, hout⟩ := toDiagram_drawn hq hg compress false
  exact ⟨g, eg, by rw [hin, length_range], by simp [hout], ht.linearMap hs hin hout hm.symm⟩

/-- A gate of each sort on three wires. -/
def sampler : Circuit where
  qubits := 3
  gates := [.had 0, .not 1, .t 2 true, .xPhase 0 (2 / 7), .cnot 0 2, .cz 2 1, .cx 1 0, .swap 0 2, .tof 0 1 2, .ccz 2 1 0,
    .parity (1 / 4) [2, 0, 1]]

theorem toDiagram_linearMap_sampler : (∀ g ∈ sampler.gates, g.Fits 3) ∧ ∃ g, sampler.toDiagram true = .ok g ∧
    g.inputs.length = 3 ∧ g.outputs.length = 3 ∧ ∃ s : ℂ, s ≠ 0 ∧ g.linearMap 3 3 = s • sampler.unitary := by
  have hg : ∀ g ∈ sampler.gates, g.Fits 3 := by
    simp [sampler, Gate.Fits, OnWire, Gate.had, Gate.not, Gate.t, Gate.xPhase, Gate.cnot, Gate.cz, Gate.cx, Gate.swap, Gate.tof, Gate.ccz,
      Gate.parity]
  exact ⟨hg, toDiagram_linearMap (by decide) hg true⟩

end Circuit

end ZXCircuits
