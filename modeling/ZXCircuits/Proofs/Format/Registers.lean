/-
  Registers of assembly files.

  The reader lays the registers side by side and never compares an index with the size of its register.  `Qasm.Program` is a file
  as the reader cuts it up, and `Program.InRange` asks of the text that indices lie in their registers, that sizes are not negative
  and that gate bodies declare no registers.  Then the circuit stays on its wires (`Qasm.parse_inRange`).
-/
import ZXCircuits.Format.Qasm
import ZXCircuits.Proofs.Motion.Local

namespace ZXCircuits

open List

lemma Gives.mapM {α β : Type} {P : β → Prop} {f : α → Attempt β} {l : List α} (h : ∀ a ∈ l, Gives (f a) P) :
    Gives (l.mapM f) fun bs => ∀ b ∈ bs, P b := by
  induction l with
  | nil => exact .pure (by simp)
  | cons a l ih =>
    rw [mapM_cons]
    refine (h a (by simp)).bind fun b hb => ?_
    refine (ih fun a' ha' => h a' (by simp [ha'])).bind fun bs hbs => ?_
    exact .pure (forall_mem_cons.2 ⟨hb, hbs⟩)

lemma Gives.foldlM_forall {σ β : Type} {f : σ → β → Attempt σ} {I : σ → Prop} {Q : β → Prop} {l : List β} :
    ∀ {s : σ}, I s → (∀ s, ∀ b ∈ l, I s → Gives (f s b) fun s' => I s' ∧ Q b) → Gives (l.foldlM f s) fun s' => I s' ∧ ∀ b ∈ l, Q b := by
  induction l with
  | nil => exact fun hs _ => .pure ⟨hs, by simp⟩
  | cons b l ih =>
    intro s hs hf
    refine (hf s b (by simp) hs).bind fun s' hs' => ?_
    refine (ih hs'.1 fun u c hc => hf u c (by simp [hc])).mono fun s'' h => ?_
    exact ⟨h.1, forall_mem_cons.2 ⟨hs'.2, h.2⟩⟩

lemma gives_orOutOfRange {α : Type} (o : Option α) : Gives (orOutOfRange o) fun a => o = some a := by
  cases o with
  | none => exact .error _
  | some a => exact .ok rfl

/-! ## Gates on other wires -/

namespace Gate

lemma masked_gives (mask : List Int) (w : Int) : Gives (masked mask w) (· ∈ mask) :=
  (Gives.self _).bind fun _ _ => (gives_orOutOfRange _).mono fun _ e => List.mem_of_getElem? e

/-- A gate, no marker of an ancilla, on some of the given wires. -/
def LiesOn (ws : List Int) (g : Gate) : Prop := g.isAncilla = false ∧ ∀ w ∈ g.wires, w ∈ ws

lemma reposition_gives (g : Gate) (mask : List Int) : Gives (g.reposition mask) (LiesOn mask) := by
  have one := masked_gives mask
  obtain ⟨op, i⟩ := g
  cases op with
  | had t => exact (one t).bind fun t ht => .pure ⟨rfl, by simpa [wires] using ht⟩
  | rotation k t p => exact (one t).bind fun t ht => .pure ⟨rfl, by simpa [wires] using ht⟩
  | pair k c t => exact (one t).bind fun t ht => (one c).bind fun c hc => .pure ⟨rfl, by simpa [wires] using ⟨hc, ht⟩⟩
  | triple k a b t =>
    exact (one t).bind fun t ht => (one a).bind fun a ha => (one b).bind fun b hb =>
      .pure ⟨rfl, by simpa [wires] using ⟨ha, hb, ht⟩⟩
  | parity p ts => exact (Gives.mapM fun t _ => one t).bind fun ts hts => .pure ⟨rfl, by simpa [wires] using hts⟩
  | initAncilla | postSelect => exact .throw _

end Gate

namespace Qasm

open Text

variable {s : State} {t : Registers} {c a : List Char} {n : Int} {P : Int → Prop} {l : Layout}
  {cs : List (List Char)} {o : Operands}

lemma gives_divide (sep : Char) (text : List Char) : Gives (divide sep text) fun p => splitFirst sep text = some p := by
  rw [divide]
  split
  · exact .ok ‹_›
  · exact .error _

variable (text : List Char)

lemma gives_intOf : Gives (intOf text) fun i => readInt text = some i := by
  rw [intOf]
  split
  · exact .ok ‹_›
  · exact .error _

/-! ## What a command says -/

/-- The arguments of a command that applies a gate; other commands have none. -/
def operands (c : List Char) : List (List Char) :=
  match splitFirst ' ' c with
  | none => []
  | some (name, rest) =>
    if String.ofList name ∈ ["barrier", "creg", "measure", "id", "opaque", "if", "qreg"] then [] else parts ',' rest

lemma operands_eq {p : List Char × List Char} (hc : splitFirst ' ' c = some p)
    (h1 : String.ofList p.1 ∉ ["barrier", "creg", "measure", "id"]) (h2 : String.ofList p.1 ∉ ["opaque", "if"])
    (h3 : String.ofList p.1 ≠ "qreg") : operands c = parts ',' p.2 := by
  have : String.ofList p.1 ∉ ["barrier", "creg", "measure", "id", "opaque", "if", "qreg"] := by
    simp only [mem_cons, not_mem_nil, or_false, not_or] at h1 h2 ⊢
    exact ⟨h1.1, h1.2.1, h1.2.2.1, h1.2.2.2, h2.1, h2.2, h3⟩
  simp only [operands, hc, if_neg this]

def element? (a : List Char) : Option (List Char × Int) :=
  if a.contains '[' then (splitFirst '[' a).bind fun p => (readInt p.2.dropLast).map (p.1, ·) else none

def declared? (c : List Char) : Option (List Char × Int) :=
  (splitFirst ' ' c).bind fun p =>
    if String.ofList p.1 = "qreg" then
      (parts ',' p.2).head?.bind fun first => (splitFirst '[' first).bind fun q => (readInt q.2.dropLast).map (q.1, ·)
    else none

structure Layout where
  qubits : Int := 0
  registers : Registers := []

/-- A declared register comes after all others. -/
def Layout.declare (l : Layout) (c : List Char) : Layout :=
  match declared? c with
  | some (r, n) => { qubits := l.qubits + n, registers := l.registers.insert r ⟨l.qubits, n⟩ }
  | none => l

/-- The indices of a command lie in their registers, and it declares no negative size. -/
def Keeps (t : Registers) (c : List Char) : Prop :=
  (∀ a ∈ operands c, ∀ p ∈ element? a, ∀ x ∈ t.find? p.1, 0 ≤ p.2 ∧ p.2 < x.size) ∧ ∀ d ∈ declared? c, 0 ≤ d.2

instance decidableKeeps : Decidable (Keeps t c) := inferInstanceAs (Decidable (_ ∧ _))

def AllKeep (l : Layout) : List (List Char) → Prop
  | [] => True
  | c :: cs => Keeps l.registers c ∧ AllKeep (l.declare c) cs

instance decidableAllKeep : ∀ (l : Layout) (cs : List (List Char)), Decidable (AllKeep l cs)
  | _, [] => inferInstanceAs (Decidable True)
  | l, c :: cs =>
    have := decidableAllKeep (l.declare c) cs
    inferInstanceAs (Decidable (_ ∧ _))

lemma allKeep_append {cs ds : List (List Char)} : AllKeep l (cs ++ ds) ↔ AllKeep l cs ∧ AllKeep (cs.foldl Layout.declare l) ds := by
  induction cs generalizing l with
  | nil => simp [AllKeep]
  | cons c cs ih => simp [AllKeep, ih, and_assoc]

/-! ## Registers side by side -/

/-- The registers are stretches of the wires below `n` that have no wire in common. -/
structure SideBySide (n : Int) (t : Registers) : Prop where
  inside : ∀ r x, t.find? r = some x → 0 ≤ x.start ∧ 0 ≤ x.size ∧ x.start + x.size ≤ n
  apart : ∀ r r' x x', r ≠ r' → t.find? r = some x → t.find? r' = some x' → x.start + x.size ≤ x'.start ∨ x'.start + x'.size ≤ x.start

namespace SideBySide

lemma nil : SideBySide n [] := ⟨by simp, by simp⟩

lemma mono {m : Int} (h : SideBySide n t) (hnm : n ≤ m) : SideBySide m t where
  inside r x hx := by
    have := h.inside r x hx
    omega
  apart := h.apart

lemma insert {m : Int} (h : SideBySide n t) (hn : 0 ≤ n) (hm : 0 ≤ m) (r : List Char) : SideBySide (n + m) (t.insert r ⟨n, m⟩) := by
  refine ⟨fun q x hq => ?_, fun q q' x x' hne hq hq' => ?_⟩
  · obtain ⟨-, rfl⟩ | hq := t.find?_insert_eq_some hq
    · exact ⟨hn, hm, le_rfl⟩
    · have := h.inside q x hq
      omega
  obtain ⟨e1, rfl⟩ | hq := t.find?_insert_eq_some hq <;> obtain ⟨e2, rfl⟩ | hq' := t.find?_insert_eq_some hq'
  · exact absurd (e1.trans e2.symm) hne
  · exact .inr (h.inside q' x' hq').2.2
  · exact .inl (h.inside q x hq).2.2
  · exact h.apart q q' x x' hne hq hq'

end SideBySide

/-- The registers of a layout lie side by side. -/
structure Layout.Sound (l : Layout) : Prop where
  nonneg : 0 ≤ l.qubits
  sideBySide : SideBySide l.qubits l.registers

namespace Layout.Sound

variable {l : Layout}

lemma declare (h : l.Sound) (hk : Keeps l.registers c) : (l.declare c).Sound ∧ l.qubits ≤ (l.declare c).qubits := by
  rw [Layout.declare]
  split
  · rename_i r m e
    have hm : 0 ≤ m := hk.2 _ e
    exact ⟨⟨add_nonneg h.nonneg hm, h.sideBySide.insert h.nonneg hm r⟩, le_add_of_nonneg_right hm⟩
  · exact ⟨h, le_rfl⟩

lemma foldl (h : l.Sound) (hk : AllKeep l cs) : (cs.foldl Layout.declare l).Sound ∧ l.qubits ≤ (cs.foldl Layout.declare l).qubits := by
  induction cs generalizing l with
  | nil => exact ⟨h, le_rfl⟩
  | cons c cs ih =>
    obtain ⟨h1, h2⟩ := h.declare hk.1
    exact ⟨(ih h1 hk.2).1, h2.trans (ih h1 hk.2).2⟩

end Layout.Sound

/-! ## Arguments -/

/-- All wires gathered have the property, and as long as no register was named there is one wire for each argument. -/
structure Operands.On (o : Operands) (P : Int → Prop) : Prop where
  wires : ∀ v ∈ o.values, ∀ w ∈ v, P w
  single : o.range = false → o.size = 1 ∧ ∀ v ∈ o.values, v.length = 1

lemma addOperand_element {p : List Char × Int} {x : Register} (hp : p ∈ element? a)
    (hx : t.find? p.1 = some x) : addOperand c t o a = .ok { o with values := o.values ++ [[x.start + p.2]] } := by
  rw [element?] at hp
  split at hp
  · rename_i hc
    obtain ⟨q, hq, hp⟩ := Option.bind_eq_some_iff.1 hp
    obtain ⟨i, hi, rfl⟩ := Option.map_eq_some_iff.1 hp
    rw [addOperand, if_pos hc, divide, hq]
    simp only [bind, Except.bind, intOf, hi, hx]
    rfl
  · cases hp

lemma addOperand_gives (ho : o.On P) (he : ∀ p ∈ element? a, ∀ x, t.find? p.1 = some x → P (x.start + p.2))
    (hr : ∀ r x, t.find? r = some x → ∀ i, 0 ≤ i → i < x.size → P (x.start + i)) :
    Gives (addOperand c t o a) fun o' => o'.On P ∧ ∀ p ∈ element? a, ∃ x, t.find? p.1 = some x := by
  have more : ∀ v, (∀ w ∈ v, P w) → ∀ u ∈ o.values ++ [v], ∀ w ∈ u, P w := by
    intro v hv u hu
    rcases mem_append.1 hu with hu | hu
    · exact ho.wires u hu
    · rwa [mem_singleton.1 hu]
  refine .ite (fun hc => ?_) fun hc => ?_
  · refine (gives_divide '[' a).bind fun p hp => ?_
    obtain ⟨name, val⟩ := p
    refine (gives_intOf _).bind fun i hi => ?_
    split
    · exact .throw _
    rename_i r hf
    have e : element? a = some (name, i) := by
      simp only [element?, if_pos hc, hp, Option.bind_some, hi, Option.map_some]
    refine .pure ⟨⟨more _ fun w hw => ?_, fun h => ⟨(ho.single h).1, fun u hu => ?_⟩⟩, fun p hp => ?_⟩
    · rw [mem_singleton.1 hw]
      exact he _ e r hf
    · rcases mem_append.1 hu with hu | hu
      · exact (ho.single h).2 u hu
      · rw [mem_singleton.1 hu]
        rfl
    · rw [e] at hp
      obtain rfl := Option.some.inj hp
      exact ⟨r, hf⟩
  · refine (gives_orAbsent _).bind fun r hf => ?_
    refine .ite (fun _ => .throw _) fun hs => .pure ⟨⟨more _ fun w hw => ?_, by simp⟩, ?_⟩
    · obtain ⟨k, hk, rfl⟩ := mem_map.1 hw
      have hsize : (if o.range then o.size else r.size) = r.size := by
        split
        · rename_i hor
          by_contra hne
          exact hs (by simpa [hor] using Ne.symm hne)
        · rfl
      rw [mem_range] at hk
      exact hr a r hf k (by omega) (by omega)
    · rw [element?, if_neg hc]
      simp

lemma applications_gives (ho : o.On P) : Gives (applications o) fun ls => ∀ ws ∈ ls, ∀ w ∈ ws, P w := by
  -- Once single wires have been repeated, every argument has a wire for each application.
  have spread : ∀ vs : List (List Int), (∀ v ∈ vs, (∀ w ∈ v, P w) ∧ o.size.toNat ≤ v.length) →
      ∀ ws ∈ (List.range o.size.toNat).map fun j => vs.map fun v => v.getD j 0, ∀ w ∈ ws, P w := by
    intro vs hvs ws hws w hw
    obtain ⟨j, hj, rfl⟩ := mem_map.1 hws
    obtain ⟨v, hv, rfl⟩ := mem_map.1 hw
    have hlt : j < v.length := (mem_range.1 hj).trans_le (hvs v hv).2
    rw [getD_eq_getElem?_getD, List.getElem?_eq_getElem hlt]
    exact (hvs v hv).1 _ (getElem_mem hlt)
  refine .ite (fun _ => ?_) fun h => ?_
  · refine (Gives.mapM fun v hv => ?_).bind fun vs hvs => .pure (spread vs hvs)
    refine .ite (fun e => .pure ⟨ho.wires v hv, by omega⟩) fun _ => ?_
    refine (gives_orOutOfRange _).bind fun w hw => .pure ⟨fun u hu => ?_, by simp⟩
    rw [(mem_replicate.1 hu).2]
    exact ho.wires v hv w (mem_of_mem_head? hw)
  · obtain ⟨h1, h2⟩ := ho.single (by simpa using h)
    exact .pure (spread _ fun v hv => ⟨ho.wires v hv, by rw [h2 v hv, h1]; rfl⟩)

lemma applyGate_gives (custom : Table (List Char) Circuit) (c name : List Char) (ws : List Int) :
    Gives (applyGate custom c name ws) fun gs => ∀ g ∈ gs, g.LiesOn ws := by
  have one : ∀ i : Nat, Gives (orOutOfRange ws[i]?) (· ∈ ws) := fun i => (gives_orOutOfRange _).mono fun _ e => mem_of_getElem? e
  have onOne : ∀ f : Int → Gate, (∀ w, (f w).isAncilla = false ∧ (f w).wires = {w}) →
      Gives (do return [f (← orOutOfRange ws[0]?)]) fun gs => ∀ g ∈ gs, g.LiesOn ws := fun f hf =>
    (one 0).bind fun w hw => .pure (by simpa [Gate.LiesOn, hf] using hw)
  have onTwo : ∀ f : Int → Int → Gate, (∀ v w, (f v w).isAncilla = false ∧ (f v w).wires = {v, w}) →
      Gives (do return [f (← orOutOfRange ws[0]?) (← orOutOfRange ws[1]?)]) fun gs => ∀ g ∈ gs, g.LiesOn ws := fun f hf =>
    (one 0).bind fun v hv => (one 1).bind fun w hw => .pure (by simpa [Gate.LiesOn, hf] using ⟨hv, hw⟩)
  have onThree : ∀ f : Int → Int → Int → Gate, (∀ u v w, (f u v w).isAncilla = false ∧ (f u v w).wires = {u, v, w}) →
      Gives (do return [f (← orOutOfRange ws[0]?) (← orOutOfRange ws[1]?) (← orOutOfRange ws[2]?)])
        fun gs => ∀ g ∈ gs, g.LiesOn ws := fun f hf =>
    (one 0).bind fun u hu => (one 1).bind fun v hv => (one 2).bind fun w hw => .pure (by simpa [Gate.LiesOn, hf] using ⟨hu, hv, hw⟩)
  rw [applyGate]
  split
  · exact .ite (fun _ => .throw _) fun _ => .mapM fun g _ => g.reposition_gives ws
  split
  iterate 7 exact onOne _ fun _ => ⟨rfl, rfl⟩
  iterate 3 exact onTwo _ fun _ _ => ⟨rfl, rfl⟩
  iterate 2 exact onThree _ fun _ _ _ => ⟨rfl, rfl⟩
  refine .ite (fun _ => ?_) fun _ => .ite (fun _ => ?_) fun _ => .throw _
  · exact (Gives.self _).bind fun p _ => onOne (Gate.xPhase · p) fun _ => ⟨rfl, rfl⟩
  · exact (Gives.self _).bind fun p _ => onOne (Gate.zPhase · p) fun _ => ⟨rfl, rfl⟩

/-! ## Commands -/

def Known (t : Registers) (c : List Char) : Prop := ∀ a ∈ operands c, ∀ p ∈ element? a, ∃ x, t.find? p.1 = some x

def layoutOf (out : List Gate × State × Registers) : Layout := { qubits := out.2.1.qubits, registers := out.2.2 }

section

variable (s : State) (t : Registers)

lemma command_gives (c : List Char) : Gives (command s t c) fun out =>
    layoutOf out = Layout.declare ⟨s.qubits, t⟩ c ∧ Known t c ∧
      ∀ n, Keeps t c → SideBySide n t → ∀ g ∈ out.1, g.isAncilla = false ∧ ∀ w ∈ g.wires, 0 ≤ w ∧ w < n := by
  refine (gives_divide ' ' c).bind fun p hp => ?_
  obtain ⟨name, rest⟩ := p
  have plain : String.ofList name ≠ "qreg" → Layout.declare ⟨s.qubits, t⟩ c = ⟨s.qubits, t⟩ := by
    intro h
    simp [Layout.declare, declared?, hp, if_neg h]
  have idle : String.ofList name ∈ ["barrier", "creg", "measure", "id", "opaque", "if", "qreg"] → Known t c := by
    intro h a ha
    simp only [operands, hp, if_pos h] at ha
    cases ha
  refine .ite (fun h1 => .pure ⟨?_, idle ?_, by simp⟩) fun h1 => .ite (fun _ => .throw _) fun h2 => ?_
  · exact (plain fun e => by simp [e] at h1).symm
  · exact mem_append_left ["opaque", "if", "qreg"] h1
  refine .ite (fun h3 => ?_) fun h3 => ?_
  · refine (gives_orOutOfRange _).bind fun first hf => ?_
    refine (gives_divide '[' first).bind fun q hq => ?_
    refine (gives_intOf _).bind fun m hm => .pure ⟨?_, idle (by simp [h3]), by simp⟩
    simp [layoutOf, Layout.declare, declared?, hp, if_pos h3, hf, hq, hm]
  have hops : operands c = parts ',' rest := operands_eq hp h1 h2 h3
  let P : Int → Prop := fun w => ∀ n, Keeps t c → SideBySide n t → 0 ≤ w ∧ w < n
  have gathered : Gives ((parts ',' rest).foldlM (addOperand c t) {}) fun o =>
      o.On P ∧ ∀ a ∈ parts ',' rest, ∀ p ∈ element? a, ∃ x, t.find? p.1 = some x := by
    refine .foldlM_forall ⟨by simp, by simp⟩ fun o a ha ho => addOperand_gives ho ?_ ?_
    · intro p hp x hx n hk hs
      have := hk.1 a (hops ▸ ha) p hp x hx
      have := hs.inside _ x hx
      omega
    · intro r x hx i h0 hi n hk hs
      have := hs.inside r x hx
      omega
  refine gathered.bind fun o ho => (applications_gives ho.1).bind fun ls hls => ?_
  have made : Gives (ls.mapM (applyGate s.custom c name)) fun gss =>
      ∀ gs ∈ gss, ∀ g ∈ gs, g.isAncilla = false ∧ ∀ w ∈ g.wires, P w :=
    Gives.mapM fun ws hws => (applyGate_gives s.custom c name ws).mono fun gs h g hg =>
      ⟨(h g hg).1, fun w hw => hls ws hws w ((h g hg).2 w hw)⟩
  refine made.bind fun gss hgss => .pure ⟨(plain h3).symm, fun a ha => ho.2 a (hops ▸ ha), ?_⟩
  intro n hk hs g hg
  obtain ⟨gs, hgs, hg⟩ := mem_flatten.1 hg
  exact ⟨(hgss gs hgs g hg).1, fun w hw => (hgss gs hgs g hg).2 w hw n hk hs⟩

lemma commands_snoc (cs : List (List Char)) (c : List Char) :
    commands s t (cs ++ [c]) = commands s t cs >>= fun acc => command acc.2.1 acc.2.2 c >>= fun out =>
      pure (acc.1 ++ out.1, out.2.1, out.2.2) := by
  rw [commands, foldlM_append]
  refine bind_congr fun acc => ?_
  simp

lemma commands_gives (cs : List (List Char)) : Gives (commands s t cs) fun out =>
    layoutOf out = cs.foldl Layout.declare ⟨s.qubits, t⟩ ∧
      (∀ pre c post, cs = pre ++ c :: post → Known (pre.foldl Layout.declare ⟨s.qubits, t⟩).registers c) ∧
      (AllKeep ⟨s.qubits, t⟩ cs → Layout.Sound ⟨s.qubits, t⟩ → ∀ g ∈ out.1, ∀ w ∈ g.wires, 0 ≤ w ∧ w < out.2.1.qubits) := by
  induction cs using List.reverseRecOn with
  | nil => exact .pure ⟨rfl, by simp, by simp⟩
  | append_singleton cs c ih =>
    rw [commands_snoc]
    refine ih.bind fun acc ⟨hl, hknown, hgates⟩ => ?_
    refine (command_gives acc.2.1 acc.2.2 c).bind fun out ⟨hl', hknown', hgates'⟩ => ?_
    rw [show (⟨acc.2.1.qubits, acc.2.2⟩ : Layout) = layoutOf acc from rfl, hl] at hl'
    have ht : acc.2.2 = (cs.foldl Layout.declare ⟨s.qubits, t⟩).registers := by rw [← hl]; rfl
    have hq : acc.2.1.qubits = (cs.foldl Layout.declare ⟨s.qubits, t⟩).qubits := by rw [← hl]; rfl
    refine .pure ⟨?_, fun pre d post e => ?_, fun hk hs g hg w hw => ?_⟩
    · rw [foldl_append]
      exact hl'
    · rcases eq_nil_or_concat post with rfl | ⟨post', d', rfl⟩
      · obtain ⟨rfl, e'⟩ := append_inj' e rfl
        obtain rfl := singleton_inj.1 e'
        rwa [← ht]
      · refine hknown pre d post' ?_
        rw [concat_eq_append, ← List.cons_append, ← append_assoc] at e
        exact (append_inj' e rfl).1
    · rw [allKeep_append] at hk
      obtain ⟨hs', -⟩ := hs.foldl hk.1
      obtain ⟨-, hle⟩ := hs'.declare hk.2.1
      have hle' : acc.2.1.qubits ≤ out.2.1.qubits := by
        rw [hq, show out.2.1.qubits = (layoutOf out).qubits from rfl, hl']
        exact hle
      have hlt : 0 ≤ w ∧ w < acc.2.1.qubits := by
        rcases mem_append.1 hg with hg | hg
        · exact hgates hk.1 hs g hg w hw
        · exact (hgates' _ (ht ▸ hk.2.1) (by rw [hq, ht]; exact hs'.sideBySide) g hg).2 w hw
      exact ⟨hlt.1, hlt.2.trans_le hle'⟩

end

lemma commands_gives_of_none (s : State) (h : SideBySide n t)
    (hcs : ∀ c ∈ cs, declared? c = none ∧ Keeps t c) : Gives (commands s t cs) fun out =>
    out.2.2 = t ∧ ∀ g ∈ out.1, g.isAncilla = false ∧ ∀ w ∈ g.wires, 0 ≤ w ∧ w < n := by
  refine .foldlM ⟨rfl, by simp⟩ fun acc c hc hacc => ?_
  refine (command_gives acc.2.1 acc.2.2 c).bind fun out hout => .pure ?_
  obtain ⟨ht, hg⟩ := hacc
  obtain ⟨hd, hk⟩ := hcs c hc
  obtain ⟨hl, -, hg'⟩ := hout
  rw [ht] at hl hg'
  rw [Layout.declare, hd] at hl
  exact ⟨congrArg Layout.registers hl, forall_mem_append.2 ⟨hg, hg' n hk h⟩⟩

/-! ## Definitions -/

def Single (t : Registers) : Prop := ∀ r x, t.find? r = some x → x.size = 1

/-- The definition of a gate: its arguments as registers of one wire, and the commands of its body. -/
structure Definition where
  name : List Char
  formals : Registers
  body : List (List Char)

/-- Takes a definition apart. -/
def Definition.read (text : List Char) : Attempt Definition := do
  let data := text.drop 5
  let shown := String.ofList data
  let (spec, body) ← divide '\x7b' data
  let spec ← if spec.contains '(' then do
      let i := position ['('] spec
      let j := position [')'] spec
      if !(strip (slice spec (i + 1) j)).isEmpty then throw (.customArguments shown)
      pure (slice spec 0 i ++ slice spec (j + 1) spec.length)
    else pure spec
  match splitFirst ' ' (strip spec) with
  | none => throw (.customNoArguments shown)
  | some (name, args) =>
    let registers ← (splitChar ',' (strip args)).foldlM (fun (t : Registers) a => do
        let a := strip a
        if t.has a then throw (.duplicateVariable shown)
        return t.insert a ⟨t.length, 1⟩) []
    return { name := strip name, formals := registers, body := parts ';' (strip body.dropLast) }

lemma definition_eq (s : State) (text : List Char) : definition s text = Definition.read text >>= fun d =>
    commands s d.formals d.body >>= fun out =>
      pure { out.2.1 with custom := out.2.1.custom.insert d.name { qubits := d.formals.length, gates := out.1 } } := by
  have ite_bind : ∀ {c : Prop} [Decidable c] (x y : Attempt Definition) (f : Definition → Attempt State),
      (if c then x else y) >>= f = if c then x >>= f else y >>= f := fun x y f => apply_ite (· >>= f) _ x y
  rw [Definition.read, bind_assoc]
  refine bind_congr fun p => ?_
  simp only [pure_bind]
  split
  · split
    · rfl
    cases splitFirst ' ' (strip (slice p.1 0 (position ['('] p.1) ++ slice p.1 (position [')'] p.1 + 1) p.1.length)) with
    | none => rfl
    | some q => simp
  · cases splitFirst ' ' (strip p.1) with
    | none => rfl
    | some q => simp

lemma Definition.read_gives : Gives (Definition.read text) fun d =>
    SideBySide d.formals.length d.formals ∧ Single d.formals := by
  have formals : ∀ (shown : String) (names : List (List Char)), Gives (names.foldlM (fun (t : Registers) a => do
        let a := strip a
        if t.has a then throw (.duplicateVariable shown)
        return t.insert a ⟨t.length, 1⟩) []) fun t => SideBySide t.length t ∧ Single t := by
    intro shown names
    refine .foldlM ⟨.nil, fun r x hx => by cases hx⟩ fun t a _ ht => ?_
    refine .ite (fun _ => .throw _) fun h => .pure ⟨?_, fun r x hx => ?_⟩
    · have fresh : strip a ∉ t.keys := fun hm => h ((t.has_iff _).2 hm)
      have := ht.1.insert (by omega) zero_le_one (strip a)
      rw [Table.insert_of_not_mem fresh] at this ⊢
      simpa using this
    · obtain ⟨-, rfl⟩ | hx := t.find?_insert_eq_some hx
      · rfl
      · exact ht.2 r x hx
  refine (Gives.self _).bind fun p _ => ?_
  refine .ite (fun _ => .ite (fun _ => .throw _) fun _ => ?_) fun _ => ?_
  all_goals
    dsimp only [bind, Except.bind, pure, Except.pure]
    split
    · exact .throw _
    · exact (formals _ _).bind fun t ht => .pure ht

def closing (data : List Char) (i : Int) : Int :=
  match find? ['\x7d'] (data.drop i.toNat) i.toNat with
  | some k => k
  | none => -1

def pieces : Nat → List Char → List (List Char) × List Char
  | 0, data => ([], data)
  | fuel + 1, data =>
    let i := position "gate ".toList data
    if i = -1 then ([], data)
    else
      let j := closing data i
      let rest := pieces fuel (slice data 0 i ++ slice data (j + 1) data.length)
      (slice data i (j + 1) :: rest.1, rest.2)

lemma definitions_gives (fuel : Nat) (s : State) (data : List Char) : Gives (definitions fuel s data) fun out =>
    (pieces fuel data).1.foldlM definition s = .ok out.1 ∧ out.2 = (pieces fuel data).2 := by
  induction fuel generalizing s data with
  | zero => exact .error _
  | succ fuel ih =>
    rw [pieces]
    dsimp only
    refine .ite (fun h => ?_) fun h => ?_
    · rw [if_pos h]
      exact .ok ⟨rfl, rfl⟩
    rw [if_neg h]
    split
    · rename_i s' e
      refine (ih s' _).mono fun out ho => ⟨?_, ho.2⟩
      have e' : definition s (slice data (position "gate ".toList data) (closing data (position "gate ".toList data) + 1)) = .ok s' := e
      rw [foldlM_cons, e']
      exact ho.1
    · exact .error _

/-! ## Files -/

/-- A file: the definitions of gates in it and its other commands. -/
structure Program where
  definitions : List Definition
  commands : List (List Char)

def source (text : List Char) : List Char := List.intercalate ['\n'] ((((Text.lines text).map uncomment).filter (!·.isEmpty)).drop 2)

/-- A file taken apart. -/
def Program.ofText (text : List Char) : Program :=
  let (texts, rest) := pieces ((source text).length + 1) (source text)
  { definitions := texts.filterMap fun x => (Definition.read x).toOption, commands := parts ';' rest }

/-- Every index lies in its register, no size is negative, and registers are declared outside the bodies of gates. -/
def Program.InRange (p : Program) : Prop :=
  (∀ d ∈ p.definitions, ∀ c ∈ d.body, declared? c = none ∧ Keeps d.formals c) ∧ AllKeep {} p.commands

instance Program.decidableInRange (p : Program) : Decidable p.InRange := inferInstanceAs (Decidable (_ ∧ _))

/-- The registers lie side by side below `n`, and each argument `r[i]` of the command stands for the wire number `i` of `r`. -/
def Resolves (n : Int) (t : Registers) (c : List Char) : Prop :=
  SideBySide n t ∧ ∀ a ∈ operands c, ∀ p ∈ element? a, ∃ x, t.find? p.1 = some x ∧ 0 ≤ p.2 ∧ p.2 < x.size ∧
    ∀ o, addOperand c t o a = .ok { o with values := o.values ++ [[x.start + p.2]] }

lemma resolves (h : SideBySide n t) (hk : Keeps t c) (hc : Known t c) : Resolves n t c := by
  refine ⟨h, fun a ha p hp => ?_⟩
  obtain ⟨x, hx⟩ := hc a ha p hp
  obtain ⟨h0, h1⟩ := hk.1 a ha p hp x hx
  exact ⟨x, hx, h0, h1, fun o => addOperand_element hp hx⟩

lemma foldl_declare_of_none (h : ∀ c ∈ cs, declared? c = none) : cs.foldl Layout.declare l = l := by
  induction cs with
  | nil => rfl
  | cons c cs ih => rw [foldl_cons, show l.declare c = l by rw [Layout.declare, h c (by simp)], ih (forall_mem_cons.1 h).2]

lemma definition_gives (s : State) (text : List Char)
    (h : ∀ d, Definition.read text = .ok d → ∀ c ∈ d.body, declared? c = none) : Gives (definition s text) fun s' =>
    s'.qubits = s.qubits ∧ ∀ d, Definition.read text = .ok d → ∀ c ∈ d.body, Known d.formals c := by
  rw [definition_eq]
  refine (Gives.self _).bind fun d hd => ?_
  refine (commands_gives s d.formals d.body).bind fun out ⟨hl, hk, _⟩ => .pure ⟨?_, fun d' hd' c hc => ?_⟩
  · rw [foldl_declare_of_none (h d hd)] at hl
    exact congrArg Layout.qubits hl
  obtain rfl := Except.ok.inj (hd.symm.trans hd')
  obtain ⟨pre, post, e⟩ := append_of_mem hc
  have := hk pre c post e
  rwa [foldl_declare_of_none fun a ha => h d hd a (by simp [e, ha])] at this

lemma parse_gives : Gives (parse text) fun c => ∃ s out,
    (pieces ((source text).length + 1) (source text)).1.foldlM definition {} = .ok s ∧
    commands s [] (Program.ofText text).commands = .ok out ∧ c.qubits = out.2.1.qubits ∧ c.gates = out.1 := by
  refine (Gives.self _).bind fun first _ => .ite (fun _ => .throw _) fun _ => ?_
  refine (Gives.self _).bind fun second _ => .ite (fun _ => .throw _) fun _ => ?_
  refine (definitions_gives _ _ _).bind fun p hp => (Gives.self _).bind fun out hout => ?_
  obtain ⟨s, data⟩ := p
  obtain ⟨hs, rfl⟩ := hp
  exact .pure ⟨s, out, hs, hout, rfl, rfl⟩

/-- **Circuits stay inside their registers.** -/
theorem parse_inRange (text : List Char) (c : Circuit) (e : parse text = .ok c) (h : (Program.ofText text).InRange) :
    (∀ g ∈ c.gates, ∀ w ∈ g.wires, 0 ≤ w ∧ w < c.qubits) ∧
      (∀ pre a post, (Program.ofText text).commands = pre ++ a :: post →
        Resolves c.qubits (pre.foldl Layout.declare {}).registers a) ∧
      ∀ d ∈ (Program.ofText text).definitions, ∀ a ∈ d.body, Resolves d.formals.length d.formals a := by
  obtain ⟨s, out, hs, hout, hq, hg⟩ := parse_gives text c e
  -- The definitions use up no wires, so the registers start at wire zero.
  have defined : ∀ x ∈ (pieces ((source text).length + 1) (source text)).1, ∀ d, Definition.read x = .ok d →
      d ∈ (Program.ofText text).definitions := by
    intro x hx d hd
    exact mem_filterMap.2 ⟨x, hx, by rw [hd]; rfl⟩
  have hdefs := Gives.foldlM_forall (I := fun u : State => u.qubits = 0) rfl
    (fun u x hx hu => (definition_gives u x fun d hd c hc => (h.1 d (defined x hx d hd) c hc).1).mono
      fun u' hu' => ⟨hu'.1.trans hu, hu'.2⟩) s hs
  obtain ⟨hl, hknown, hgates⟩ := commands_gives s [] (Program.ofText text).commands out hout
  rw [hdefs.1] at hl hknown hgates
  have start : Layout.Sound {} := ⟨le_rfl, .nil⟩
  refine ⟨?_, fun pre a post ecs => ?_, fun d hd a ha => ?_⟩
  · rw [hg, hq]
    exact hgates h.2 start
  · have hk := h.2
    rw [ecs, allKeep_append] at hk
    obtain ⟨h₁, -⟩ := start.foldl hk.1
    have hle : (pre.foldl Layout.declare {}).qubits ≤ c.qubits := by
      have : c.qubits = ((a :: post).foldl Layout.declare (pre.foldl Layout.declare {})).qubits := by
        rw [hq, ← foldl_append, ← ecs, ← hl]
        rfl
      rw [this]
      exact (h₁.foldl hk.2).2
    exact resolves (h₁.sideBySide.mono hle) hk.2.1 (hknown pre a post ecs)
  · obtain ⟨x, hx, ed⟩ := mem_filterMap.1 hd
    have hread : Definition.read x = .ok d := by
      cases hr : Definition.read x with
      | error er => rw [hr] at ed; cases ed
      | ok d' => rw [hr] at ed; rw [Option.some.inj ed]
    exact resolves (Definition.read_gives x d hread).1 (h.1 d hd a ha).2 (hdefs.2 x hx d hread a ha)

/-- A defined gate applied to two registers side by side, and a gate on the last wire. -/
theorem parse_inRange_registers :
    let text := ("OPENQASM 2.0;\ninclude \"qelib1.inc\";\ngate pair a,b \x7b cx a,b; h b; \x7d\n" ++
      "qreg q[2];\nqreg r[2];\npair q,r;\nx r[1];").toList
    let gates := [Gate.cnot 0 2, Gate.had 2, Gate.cnot 1 3, Gate.had 3, Gate.not 3]
    (∀ g ∈ gates, ∀ w ∈ g.wires, 0 ≤ w ∧ w < 4) ∧
      (∀ pre a post, (Program.ofText text).commands = pre ++ a :: post →
        Resolves 4 (pre.foldl Layout.declare {}).registers a) ∧
      ∀ d ∈ (Program.ofText text).definitions, ∀ a ∈ d.body, Resolves d.formals.length d.formals a :=
  parse_inRange _ { qubits := 4, gates := [Gate.cnot 0 2, Gate.had 2, Gate.cnot 1 3, Gate.had 3, Gate.not 3] }
    (by rfl) (by decide +kernel)

/-- Without `InRange` this fails: an index that is too large reaches into the next register or past all of them. -/
theorem parse_outside :
    ∃ c, parse "OPENQASM 2.0;\ninclude \"qelib1.inc\";\nqreg q[2];\nqreg r[2];\nx q[2];\nx r[2];".toList = .ok c ∧
      ∃ g ∈ c.gates, ∃ w ∈ g.wires, ¬ (0 ≤ w ∧ w < c.qubits) :=
  ⟨{ qubits := 4, gates := [Gate.not 2, Gate.not 4] }, by rfl, Gate.not 4, by simp, 4, rfl, by decide⟩

end Qasm

end ZXCircuits
