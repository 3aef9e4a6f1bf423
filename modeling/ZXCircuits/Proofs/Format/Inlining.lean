/-
  Gates defined in assembly files.

  The body of a definition is read once, with its arguments as wires of their own, and a call puts other wires in their
  place.  Everything the reader does with wires commutes with renaming them, so a call gives the gates that reading the body
  gives with the wires of the call as arguments (`Qasm.applyGate_definition`).
-/
import ZXCircuits.Proofs.Format.Registers
import ZXCircuits.Proofs.Swaps

namespace ZXCircuits

open List

variable {α β : Type}

lemma orOutOfRange_map (f : α → β) (o : Option α) : orOutOfRange (o.map f) = f <$> orOutOfRange o := by
  cases o <;> rfl

lemma mapM_congr_map {γ δ : Type} {f : γ → Attempt α} {g : δ → Attempt β} {p : γ → δ} {q : α → β}
    {l : List γ} (h : ∀ a ∈ l, g (p a) = q <$> f a) : (l.map p).mapM g = map q <$> l.mapM f := by
  induction l with
  | nil => rfl
  | cons a l ih =>
    rw [map_cons, mapM_cons, mapM_cons, h a (by simp), ih (forall_mem_cons.1 h).2]
    cases f a with
    | error e => rfl
    | ok b =>
      cases l.mapM f with
      | error e => rfl
      | ok bs => rfl

/-! ## Renaming -/

namespace Gate

def rename (f : Int → Int) (g : Gate) : Gate :=
  { g with
    op := match g.op with
      | .had t => .had (f t)
      | .rotation k t p => .rotation k (f t) p
      | .pair k c t => .pair k (f c) (f t)
      | .triple k a b t => .triple k (f a) (f b) (f t)
      | .parity p ts => .parity p (ts.map f)
      | .initAncilla l => .initAncilla l
      | .postSelect l => .postSelect l }

lemma masked_map (f : Int → Int) (mask : List Int) (w : Int) : masked (mask.map f) w = f <$> masked mask w := by
  rw [masked, masked, length_map]
  cases wrapIndex mask.length w with
  | error e => rfl
  | ok i =>
    show orOutOfRange (mask.map f)[i]? = f <$> orOutOfRange mask[i]?
    rw [getElem?_map, orOutOfRange_map]

lemma reposition_map (f : Int → Int) (mask : List Int) (g : Gate) : g.reposition (mask.map f) = rename f <$> g.reposition mask := by
  obtain ⟨op, i⟩ := g
  cases op with
  | had t | rotation k t p =>
    simp only [reposition, masked_map]
    cases masked mask t <;> rfl
  | pair k c t =>
    simp only [reposition, masked_map]
    cases masked mask t <;> cases masked mask c <;> rfl
  | triple k a b t =>
    simp only [reposition, masked_map]
    cases masked mask t <;> cases masked mask a <;> cases masked mask b <;> rfl
  | parity p ts =>
    have := mapM_congr_map (p := id) (g := masked (mask.map f)) (l := ts) fun t _ => masked_map f mask t
    rw [map_id] at this
    simp only [reposition, this]
    cases ts.mapM (masked mask) <;> rfl
  | initAncilla | postSelect => rfl

lemma reposition_range {n : Nat} {g : Gate} (ha : g.isAncilla = false) (hw : ∀ w ∈ g.wires, 0 ≤ w ∧ w < n) :
    g.reposition ((range n).map fun (k : Nat) => (k : Int)) = .ok g := by
  have stay : ∀ w ∈ g.wires, masked ((range n).map fun (k : Nat) => (k : Int)) w = .ok w := by
    intro w hg
    obtain ⟨h0, h1⟩ := hw w hg
    have hi : wrapIndex n w = .ok w.toNat := by
      rw [wrapIndex, if_neg (not_lt.2 h0), if_pos ⟨h0, h1⟩]
    rw [masked, length_map, length_range, hi]
    show orOutOfRange ((range n).map fun (k : Nat) => (k : Int))[w.toNat]? = .ok w
    rw [getElem?_map, getElem?_range (by omega), Option.map_some, Int.toNat_of_nonneg h0]
    rfl
  obtain ⟨op, i⟩ := g
  cases op with
  | had t | rotation k t p =>
    simp only [reposition, stay t rfl]
    rfl
  | pair k c t =>
    simp only [reposition, stay t (.inr rfl), stay c (.inl rfl)]
    rfl
  | triple k a b t =>
    simp only [reposition, stay t (.inr (.inr rfl)), stay a (.inl rfl), stay b (.inr (.inl rfl))]
    rfl
  | parity p ts =>
    simp only [reposition, Permutation.mapM_ok (g := id) ts stay, map_id]
    rfl
  | initAncilla | postSelect => cases ha

end Gate

lemma Table.find?_map_values {κ : Type} [DecidableEq κ] (f : α → β) (t : Table κ α) (k : κ) :
    Table.find? (map (fun p => (p.1, f p.2)) t) k = (t.find? k).map f := by
  induction t with
  | nil => rfl
  | cons p t ih =>
    rw [map_cons, Table.find?, Table.find?]
    split
    · rfl
    · exact ih

namespace Qasm

open Text

variable {t : Registers} {c a : List Char} {f : Int → Int}

lemma applyGate_map (f : Int → Int) (custom : Table (List Char) Circuit) (c name : List Char) (ws : List Int) :
    applyGate custom c name (ws.map f) = map (Gate.rename f) <$> applyGate custom c name ws := by
  have at_ : ∀ i : Nat, orOutOfRange (ws.map f)[i]? = f <$> orOutOfRange ws[i]? := fun i => by
    rw [getElem?_map, orOutOfRange_map]
  rw [applyGate, applyGate]
  simp only [at_, length_map]
  split
  · split
    · rfl
    rename_i body _ _
    have := mapM_congr_map (g := fun k => Gate.reposition k (ws.map f)) (p := id) (l := body.gates) fun k _ => k.reposition_map f ws
    rwa [map_id] at this
  split
  iterate 7 cases orOutOfRange ws[0]? <;> rfl
  iterate 3 cases orOutOfRange ws[0]? <;> cases orOutOfRange ws[1]? <;> rfl
  iterate 2 cases orOutOfRange ws[0]? <;> cases orOutOfRange ws[1]? <;> cases orOutOfRange ws[2]? <;> rfl
  split
  · cases rotationPhase name <;> cases orOutOfRange ws[0]? <;> rfl
  split
  · cases rotationPhase name <;> cases orOutOfRange ws[0]? <;> rfl
  · rfl

/-! ## Arguments in place of arguments -/

def renamed (f : Int → Int) (t : Registers) : Registers :=
  map (fun p => (p.1, { p.2 with start := f p.2.start })) t

def Operands.rename (f : Int → Int) (o : Operands) : Operands := { o with values := o.values.map (map f) }

lemma addOperand_map {o : Operands} (hs : Single t) (hk : ∀ p ∈ element? a, ∀ x ∈ t.find? p.1, 0 ≤ p.2 ∧ p.2 < x.size) :
    addOperand c (renamed f t) (o.rename f) a = Operands.rename f <$> addOperand c t o a := by
  have look : ∀ r, (renamed f t).find? r = (t.find? r).map fun x => { x with start := f x.start } :=
    Table.find?_map_values (fun x : Register => ({ x with start := f x.start } : Register)) t
  rw [addOperand, addOperand]
  split
  · rename_i hc
    rw [divide]
    cases hd : splitFirst '[' a with
    | none => rfl
    | some p =>
      simp only [bind, Except.bind, intOf, look]
      cases hi : readInt p.2.dropLast with
      | none => rfl
      | some i =>
        cases hf : t.find? p.1 with
        | none => rfl
        | some x =>
          have he : (p.1, i) ∈ element? a := by
            simp only [element?, if_pos hc, hd, Option.bind_some, hi, Option.map_some]
            rfl
          have := hk _ he x hf
          have := hs _ x hf
          obtain rfl : i = 0 := by omega
          simp [Operands.rename, Functor.map, Except.map, pure, Except.pure]
  · rw [look]
    cases hf : t.find? a with
    | none => rfl
    | some x =>
      have hx := hs _ x hf
      simp only [Option.map_some, orAbsent, bind, Except.bind, hx]
      -- Where a register has been named before, this one has to be a single wire too.
      by_cases hr : o.range
      · by_cases h1 : o.size = 1
        · simp [Operands.rename, hr, h1, Functor.map, Except.map, pure, Except.pure]
        · have : ¬ 1 = o.size := Ne.symm h1
          simp [Operands.rename, hr, this, Functor.map, Except.map, throw, throwThe, MonadExceptOf.throw]
      · simp [Operands.rename, hr, Functor.map, Except.map, pure, Except.pure]

lemma foldlM_addOperand_map (hs : Single t) {args : List (List Char)}
    (hk : ∀ a ∈ args, ∀ p ∈ element? a, ∀ x ∈ t.find? p.1, 0 ≤ p.2 ∧ p.2 < x.size) (o : Operands) :
    args.foldlM (addOperand c (renamed f t)) (o.rename f) = Operands.rename f <$> args.foldlM (addOperand c t) o := by
  induction args generalizing o with
  | nil => rfl
  | cons a args ih =>
    rw [foldlM_cons, foldlM_cons, addOperand_map hs (hk a (by simp))]
    cases addOperand c t o a with
    | error e => rfl
    | ok o => exact ih (forall_mem_cons.1 hk).2 o

lemma applications_map {o : Operands} (ho : o.On fun _ => True) : applications (o.rename f) = map (map f) <$> applications o := by
  have spread : ∀ vs : List (List Int), (∀ v ∈ vs, o.size.toNat ≤ v.length) →
      ((range o.size.toNat).map fun j => (vs.map (map f)).map fun v => v.getD j 0) =
        ((range o.size.toNat).map fun j => vs.map fun v => v.getD j 0).map (map f) := by
    intro vs hvs
    rw [map_map]
    refine map_congr_left fun j hj => ?_
    rw [Function.comp_apply, map_map, map_map]
    refine map_congr_left fun v hv => ?_
    have hlt : j < v.length := (mem_range.1 hj).trans_le (hvs v hv)
    simp [getD_eq_getElem?_getD, getElem?_eq_getElem hlt]
  let fill (v : List Int) : Attempt (List Int) :=
    if (v.length : Int) = o.size then pure v else orOutOfRange v.head? >>= fun w => pure (replicate o.size.toNat w)
  by_cases hr : o.range
  · have natural : ∀ v ∈ o.values, fill (v.map f) = map f <$> fill v := by
      intro v _
      simp only [fill, length_map, head?_map, orOutOfRange_map]
      split
      · rfl
      cases v.head? with
      | none => rfl
      | some w => exact congrArg Except.ok map_replicate.symm
    have long : Gives (o.values.mapM fill) fun vs => ∀ v ∈ vs, o.size.toNat ≤ v.length :=
      Gives.mapM fun v _ => .ite (fun e => .pure (by omega)) fun _ => (Gives.self _).bind fun w _ => .pure (by simp)
    have e : ∀ o' : Operands, o'.range = true → o'.size = o.size → applications o' = o'.values.mapM fill >>= fun vs =>
        pure ((range o.size.toNat).map fun j => vs.map fun v => v.getD j 0) := by
      intro o' h1 h2
      rw [applications, if_pos h1, h2]
    rw [e _ hr rfl, e (o.rename f) hr rfl]
    dsimp only [Operands.rename]
    rw [mapM_congr_map natural]
    cases hv : o.values.mapM fill with
    | error er => rfl
    | ok vs => exact congrArg Except.ok (spread vs (long vs hv))
  · obtain ⟨h1, h2⟩ := ho.single (by simpa using hr)
    rw [applications, applications, if_neg hr, if_neg (show ¬ (o.rename f).range from hr)]
    exact congrArg Except.ok (spread o.values fun v hv => by rw [h1, h2 v hv]; rfl)

lemma command_map (s : State) (hs : Single t) (hd : declared? c = none) (hk : Keeps t c) : command s (renamed f t) c =
      (fun out => (out.1.map (Gate.rename f), out.2.1, renamed f out.2.2)) <$> command s t c := by
  rw [command, command, divide]
  cases hc : splitFirst ' ' c with
  | none => rfl
  | some p =>
    simp only [bind, Except.bind]
    split
    · rfl
    split
    · rfl
    split
    · rename_i hq
      cases hf : (parts ',' p.2).head? with
      | none => rfl
      | some first =>
        simp only [orOutOfRange, divide, intOf]
        cases hb : splitFirst '[' first with
        | none => rfl
        | some q =>
          cases hi : readInt q.2.dropLast with
          | none =>
            simp only [hi]
            rfl
          | some n => simp only [declared?, hc, Option.bind_some, if_pos hq, hf, hb, hi, Option.map_some, reduceCtorEq] at hd
    · rename_i h1 h2 h3
      have hops := operands_eq hc h1 h2 h3
      have hfold : (parts ',' p.2).foldlM (addOperand c (renamed f t)) {} =
          Operands.rename f <$> (parts ',' p.2).foldlM (addOperand c t) {} :=
        foldlM_addOperand_map hs (fun a ha => hk.1 a (hops ▸ ha)) {}
      rw [hfold]
      have ho : Gives ((parts ',' p.2).foldlM (addOperand c t) {}) (·.On fun _ => True) :=
        .foldlM ⟨by simp, by simp⟩ fun o a _ ho =>
          (addOperand_gives ho (fun _ _ _ _ => trivial) fun _ _ _ _ _ _ => trivial).mono fun _ h => h.1
      cases hv : (parts ',' p.2).foldlM (addOperand c t) {} with
      | error e => rfl
      | ok o =>
        simp only [Functor.map, Except.map]
        have happ := applications_map (f := f) (ho o hv)
        rw [happ]
        cases applications o with
        | error e => rfl
        | ok ls =>
          simp only [Functor.map, Except.map]
          rw [mapM_congr_map fun ws _ => applyGate_map f s.custom c p.1 ws]
          cases ls.mapM (applyGate s.custom c p.1) with
          | error e => rfl
          | ok gss => simp [Functor.map, Except.map, pure, Except.pure, map_flatten]

lemma commands_map (s : State) (hs : Single t) {cs : List (List Char)} (hd : ∀ c ∈ cs, declared? c = none ∧ Keeps t c) :
    commands s (renamed f t) cs = (fun out => (out.1.map (Gate.rename f), out.2.1, renamed f out.2.2)) <$> commands s t cs := by
  induction cs using reverseRecOn with
  | nil => rfl
  | append_singleton cs c ih =>
    have hcs : ∀ a ∈ cs, declared? a = none ∧ Keeps t a := fun a ha => hd a (by simp [ha])
    rw [commands_snoc, commands_snoc, ih hcs]
    cases hv : commands s t cs with
    | error e => rfl
    | ok acc =>
      have ht : acc.2.2 = t := by
        have := (commands_gives s t cs acc hv).1
        rw [foldl_declare_of_none fun a ha => (hcs a ha).1] at this
        exact congrArg Layout.registers this
      obtain ⟨hdc, hkc⟩ := hd c (by simp)
      show command acc.2.1 (renamed f acc.2.2) c >>= _ = _
      rw [ht, command_map acc.2.1 hs hdc hkc]
      show _ = _ <$> (command acc.2.1 acc.2.2 c >>= _)
      rw [ht]
      cases command acc.2.1 t c with
      | error e => rfl
      | ok out => simp [Functor.map, Except.map, bind, Except.bind, pure, Except.pure, map_append]

/-! ## Calls -/

def Definition.actuals (d : Definition) (ws : List Int) : Registers := renamed (fun w => ws.getD w.toNat 0) d.formals

/-- **A call is the body with the wires of the call as arguments.** -/
theorem applyGate_definition {s s' : State} {text : List Char} {d : Definition} (hd : Definition.read text = .ok d)
    (hs : definition s text = .ok s') (hb : ∀ a ∈ d.body, declared? a = none ∧ Keeps d.formals a) (c : List Char)
    {ws : List Int} (hl : ws.length = d.formals.length) :
    ∃ gs u t, applyGate s'.custom c d.name ws = .ok gs ∧ commands s (d.actuals ws) d.body = .ok (gs, u, t) := by
  obtain ⟨hside, hsingle⟩ := Definition.read_gives text d hd
  rw [definition_eq, hd] at hs
  cases hout : commands s d.formals d.body with
  | error e =>
    simp only [bind, Except.bind, hout, reduceCtorEq] at hs
  | ok out =>
    simp only [bind, Except.bind, hout, pure, Except.pure, Except.ok.injEq] at hs
    subst hs
    refine ⟨out.1.map (Gate.rename fun w => ws.getD w.toNat 0), out.2.1, renamed (fun w => ws.getD w.toNat 0) out.2.2,
      ?_, ?_⟩
    · -- The wires of the call are the renamed wires of the body.
      have hws : ((range d.formals.length).map fun (k : Nat) => (k : Int)).map (fun w => ws.getD w.toNat 0) = ws := by
        rw [map_map, ← hl]
        refine ext_getElem (by simp) fun i _ hi => ?_
        simp [getElem?_eq_getElem hi]
      have placed : ∀ g ∈ out.1, g.reposition ws = .ok (g.rename fun w => ws.getD w.toNat 0) := by
        intro g hg
        obtain ⟨ha, hw⟩ := (commands_gives_of_none s hside hb out hout).2 g hg
        rw [← hws, Gate.reposition_map, Gate.reposition_range ha hw, hws]
        rfl
      rw [applyGate, Table.find?_insert_self]
      dsimp only
      rw [if_neg (by simp [hl])]
      exact Permutation.mapM_ok out.1 placed
    · rw [Definition.actuals, commands_map s hsingle hb, hout]
      rfl

-- The gates with two controls expand to the bodies of two definitions, on their own wires.
set_option maxRecDepth 4000 in
example (a b c : ℤ) :
    let placed (first last : String) := (parse ("OPENQASM 2.0;\ninclude \"qelib1.inc\";\n\ngate ccx a,b,c\n\x7b\n" ++ first ++
      "cx b,c; tdg c;\ncx a,c; t c;\ncx b,c; tdg c;\ncx a,c; t b; t c; h c;\ncx a,b; t a; tdg b;\ncx a,b;\n" ++ last ++
      "\x7d\n\nqreg q[3];\nccx q[0], q[1], q[2];\n").toList).bind fun d => d.gates.mapM (·.reposition [a, b, c])
    placed "h c;\n" "" = .ok (Gate.tofExpansion a b c) ∧ placed "" "h c;\n" = .ok (Gate.cczExpansion a b c) := by
  constructor <;> rfl

end Qasm

end ZXCircuits
