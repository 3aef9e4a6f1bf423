/-
  What computations that may fail give if they give anything.

  `Gives x P` says that whatever `x` returns has the property `P`, and `Run.Ends` says the same of a run; both are built up
  along the steps of a computation.  `Makes x P` says that `x` does return, and `Run.Quiet` that a run returns and writes
  nothing.
-/
import ZXCircuits.Failure
import Mathlib.Tactic.Lemma

namespace ZXCircuits

variable {α β σ : Type}

/-- Whatever the computation returns has the property. -/
def Gives (x : Attempt α) (P : α → Prop) : Prop := ∀ a, x = .ok a → P a

namespace Gives

variable {x : Attempt α} {f : α → Attempt β} {P Q : α → Prop} {R : β → Prop} {a : α}

lemma ok (h : P a) : Gives (.ok a) P := by
  rintro b ⟨rfl⟩
  exact h

lemma pure (h : P a) : Gives (pure a) P := ok h

lemma error (e : Failure) : Gives (.error e) P := by rintro b ⟨⟩

lemma throw (e : Failure) : Gives (throw e) P := error e

lemma mono (h : Gives x P) (hpq : ∀ a, P a → Q a) : Gives x Q := fun a e => hpq a (h a e)

lemma and (hp : Gives x P) (hq : Gives x Q) : Gives x fun a => P a ∧ Q a := fun a e => ⟨hp a e, hq a e⟩

lemma bind (h : Gives x P) (hf : ∀ a, P a → Gives (f a) R) : Gives (x >>= f) R := by
  intro b e
  cases hx : x with
  | error er => rw [hx] at e; cases e
  | ok a =>
    rw [hx] at e
    exact hf a (h a hx) b e

lemma skip (hf : ∀ a, Gives (f a) R) : Gives (x >>= f) R := bind (fun _ _ => trivial) fun a _ => hf a

lemma thrown (e : Failure) : Gives (MonadExcept.throw e >>= f) R := error e

lemma self (x : Attempt α) : Gives x fun a => x = .ok a := fun _ e => e

lemma ite {c : Prop} [Decidable c] {y : Attempt α} (hx : c → Gives x P) (hy : ¬ c → Gives y P) : Gives (if c then x else y) P := by
  split
  · exact hx ‹_›
  · exact hy ‹_›

lemma foldlM {l : List β} {f : σ → β → Attempt σ} {I : σ → Prop} :
    ∀ {s : σ}, I s → (∀ s, ∀ b ∈ l, I s → Gives (f s b) I) → Gives (l.foldlM f s) I := by
  induction l with
  | nil => exact fun hs _ => pure hs
  | cons b l ih =>
    intro s hs hf
    refine bind (hf s b (by simp) hs) fun t ht => ?_
    exact ih ht fun u c hc => hf u c (by simp [hc])

end Gives

def Makes (x : Attempt α) (P : α → Prop) : Prop := ∃ a, x = .ok a ∧ P a

namespace Makes

variable {x : Attempt α} {f : α → Attempt β} {P Q : α → Prop} {R : β → Prop} {a : α}

lemma ok (h : P a) : Makes (.ok a) P := ⟨a, rfl, h⟩

lemma pure (h : P a) : Makes (pure a) P := ok h

lemma mono (h : Makes x P) (hpq : ∀ a, P a → Q a) : Makes x Q := by
  obtain ⟨a, e, ha⟩ := h
  exact ⟨a, e, hpq a ha⟩

lemma bind (h : Makes x P) (hf : ∀ a, P a → Makes (f a) R) : Makes (x >>= f) R := by
  obtain ⟨a, rfl, ha⟩ := h
  exact hf a ha

lemma foldlM {l : List β} {f : σ → β → Attempt σ} {I : List β → σ → Prop}
    (step : ∀ done s, ∀ b ∈ l, I done s → Makes (f s b) (I (done ++ [b]))) :
    ∀ {d s}, I d s → Makes (l.foldlM f s) (I (d ++ l)) := by
  induction l with
  | nil => exact fun {d s} h => ok (by rwa [List.append_nil])
  | cons b l ih =>
    intro d s h
    rw [List.append_cons]
    exact (step d s b (by simp) h).bind fun t ht => ih (fun done s c hc => step done s c (by simp [hc])) ht

lemma gives (h : Makes x P) : Gives x P := by
  obtain ⟨a, rfl, ha⟩ := h
  exact .ok ha

end Makes

/-- Whatever the computation fails with has the property. -/
def Refuses (x : Attempt α) (E : Failure → Prop) : Prop := ∀ e, x = .error e → E e

namespace Refuses

variable {x : Attempt α} {f : α → Attempt β} {E : Failure → Prop} {P : α → Prop}

lemma ok (a : α) : Refuses (.ok a) E := by rintro e ⟨⟩

lemma pure (a : α) : Refuses (pure a) E := ok a

lemma throw {e : Failure} (h : E e) : Refuses (throw e : Attempt α) E := by
  rintro _ ⟨⟩
  exact h

lemma bindTo (hx : Gives x P) (h : Refuses x E) (hf : ∀ a, P a → Refuses (f a) E) : Refuses (x >>= f) E := by
  cases x with
  | error e =>
    rintro _ ⟨⟩
    exact h e rfl
  | ok a => exact hf a (hx a rfl)

lemma bind (h : Refuses x E) (hf : ∀ a, Refuses (f a) E) : Refuses (x >>= f) E := bindTo (.self x) h fun a _ => hf a

lemma step (h : Makes x P) (hf : ∀ a, P a → Refuses (f a) E) : Refuses (x >>= f) E := by
  obtain ⟨a, rfl, ha⟩ := h
  exact hf a ha

lemma ite {c : Prop} [Decidable c] {y : Attempt α} (hx : Refuses x E) (hy : Refuses y E) : Refuses (if c then x else y) E := by
  split
  · exact hx
  · exact hy

lemma map (h : Refuses x E) (g : α → β) : Refuses (g <$> x) E := by
  cases hx : x with
  | error e =>
    rintro _ ⟨⟩
    exact h e hx
  | ok a => exact ok _

lemma mapM {l : List α} (h : ∀ a, Refuses (f a) E) : Refuses (l.mapM f) E := by
  induction l with
  | nil => exact ok _
  | cons a l ih =>
    rw [List.mapM_cons]
    exact bind (h a) fun b => bind ih fun bs => ok _

end Refuses

lemma gives_orAbsent (o : Option α) : Gives (orAbsent o) fun a => o = some a := by
  cases o with
  | none => exact .error _
  | some a => exact .ok rfl

namespace Run

variable {r : Run α} {f : α → Run β} {P Q : α → Prop} {R : β → Prop} {a : α} {x : Attempt α}

def Ends (r : Run α) (P : α → Prop) : Prop := ∀ text a text', (ExceptT.run r).run text = (.ok a, text') → P a

namespace Ends

lemma pure (h : P a) : Ends (pure a) P := by
  rintro text b text' ⟨⟩
  exact h

lemma throw (e : Failure) : Ends (throw e) P := by rintro text b text' ⟨⟩

lemma lift (h : Gives x P) : Ends (liftM x) P := by
  intro text b text' e
  cases hx : x with
  | error er => rw [hx] at e; cases e
  | ok a =>
    rw [hx] at e
    cases e
    exact h _ hx

lemma mono (h : Ends r P) (hpq : ∀ a, P a → Q a) : Ends r Q := fun text a text' e => hpq a (h text a text' e)

lemma bind (h : Ends r P) (hf : ∀ a, P a → Ends (f a) R) : Ends (r >>= f) R := by
  intro text b text' e
  rw [ExceptT.run_bind, StateT.run_bind] at e
  cases hr : (ExceptT.run r).run text with
  | mk o t =>
    rw [hr] at e
    cases o with
    | error er => cases e
    | ok a => exact hf a (h text a t hr) t b text' e

lemma skip (hf : ∀ a, Ends (f a) R) : Ends (r >>= f) R := bind (fun _ _ _ _ => trivial) fun a _ => hf a

lemma sayIf (verbose : Bool) (text : String) : Ends (sayIf verbose text) fun _ => True := fun _ _ _ _ => trivial

lemma result (h : Ends r P) (e : r.result = .ok a) : P a := h "" a _ (Prod.ext e rfl)

end Ends

def Quiet (r : Run α) (a : α) : Prop := ∀ text, (ExceptT.run r).run text = (.ok a, text)

namespace Quiet

lemma pure (a : α) : Quiet (pure a) a := fun _ => rfl

lemma lift (e : x = .ok a) : Quiet (liftM x) a := fun _ => by rw [e]; rfl

lemma bind {b : β} (h : Quiet r a) (hf : Quiet (f a) b) : Quiet (r >>= f) b := by
  intro text
  rw [ExceptT.run_bind, StateT.run_bind, h text]
  exact hf text

lemma ends (h : Quiet r a) (ha : P a) : Ends r P := by
  intro text b text' e
  rw [h text] at e
  cases e
  exact ha

lemma outcome (h : Quiet r a) : r.outcome = (.ok a, "") := h ""

end Quiet

/-- The run ends with a value that has a property. -/
def Yields (r : Run α) (P : α → Prop) : Prop := ∀ text, ∃ a text', (ExceptT.run r).run text = (.ok a, text') ∧ P a

namespace Yields

lemma pure (h : P a) : Yields (pure a) P := fun text => ⟨a, text, rfl, h⟩

lemma lift (e : x = .ok a) (h : P a) : Yields (liftM x) P := fun text => ⟨a, text, by rw [e]; rfl, h⟩

lemma makes (h : Makes x P) : Yields (liftM x) P := by
  obtain ⟨a, e, ha⟩ := h
  exact lift e ha

lemma bind (h : Yields r P) (hf : ∀ a, P a → Yields (f a) R) : Yields (r >>= f) R := fun text => by
  obtain ⟨a, text', e, ha⟩ := h text
  obtain ⟨b, text'', e', hb⟩ := hf a ha text'
  refine ⟨b, text'', ?_, hb⟩
  rw [← e', ExceptT.run_bind, StateT.run_bind, e]
  rfl

lemma mono (h : Yields r P) (hpq : ∀ a, P a → Q a) : Yields r Q := fun text => by
  obtain ⟨a, text', e, ha⟩ := h text
  exact ⟨a, text', e, hpq a ha⟩

lemma sayIf (verbose : Bool) (text : String) : Yields (sayIf verbose text) fun _ => True := by
  intro s
  cases verbose
  · exact ⟨(), s, rfl, trivial⟩
  · exact ⟨(), s ++ text, rfl, trivial⟩

lemma result (h : Yields r P) : ∃ a, r.result = .ok a ∧ P a := by
  obtain ⟨a, text, e, ha⟩ := h ""
  exact ⟨a, by rw [Run.result, Run.outcome, e], ha⟩

lemma ends (h : Yields r P) : Ends r P := by
  intro text a text' e
  obtain ⟨b, text'', e', hb⟩ := h text
  rw [e'] at e
  cases e
  exact hb

end Yields

end Run

end ZXCircuits
