import Mathlib.Logic.Basic

/-!
# Programs that throw and programs that are undefined

A `Program σ ε α` runs on a state of type `σ` and returns an `α` or throws an `ε`; its value is
`none` where the language leaves the behaviour open. `Ends x s Q` says that `x` is defined in `s`
and ends with a result and a state that meet `Q`; there is one rule for each way to build a
program. `Leads I J x` says that `x`, if it is defined, takes states with `I` to states with `J`,
however it ends; `Keeps` is the case of an invariant.
-/

namespace Doost

/-- Programs over states of type `σ` that may throw an `ε`. -/
def Program (σ ε α : Type*) := σ → Option (Except ε α × σ)

namespace Program

universe u

variable {σ ε : Type*} {α β : Type u}

/-- Run `x`, and `f` on its value. An exception of `x` ends the program. -/
def andThen (x : Program σ ε α) (f : α → Program σ ε β) : Program σ ε β := fun s =>
  match x s with
  | some (.ok a, s') => f a s'
  | some (.error e, s') => some (.error e, s')
  | none => none

instance : Monad (Program σ ε) where
  pure a := fun s => some (.ok a, s)
  bind := andThen

/-- `throw e`. -/
def throw (e : ε) : Program σ ε α := fun s => some (.error e, s)

/-- Behaviour that the language does not define. -/
def undefined : Program σ ε α := fun _ => none

/-- What `f` finds in the state, which has to be there. -/
def fetch (f : σ → Option α) : Program σ ε α := fun s => (f s).map fun a => (.ok a, s)

/-- An assignment. -/
def modify (f : σ → σ) : Program σ ε Unit := fun s => some (.ok (), f s)

/-- `try { x } catch (...) { cleanup; throw; }`, where `cleanup` must not throw. What is not an
exception in the sense of `caught` ends the program as it is. -/
def onException (caught : ε → Bool) (x : Program σ ε α) (cleanup : Program σ ε Unit) :
    Program σ ε α := fun s =>
  match x s with
  | some (.error e, s') =>
    if caught e then
      match cleanup s' with
      | some (.ok (), s'') => some (.error e, s'')
      | _ => none
    else some (.error e, s')
  | r => r

theorem fetch_run (f : σ → Option α) {s : σ} {a : α} (ha : f s = some a) :
    (fetch f : Program σ ε α) s = some (.ok a, s) := by
  rw [fetch, ha, Option.map_some]

theorem bind_run {x : Program σ ε α} {f : α → Program σ ε β} {s s' : σ} {a : α}
    (hx : x s = some (.ok a, s')) : (x >>= f) s = f a s' := by
  change andThen x f s = _
  rw [andThen, hx]

theorem bind_run_error {x : Program σ ε α} {f : α → Program σ ε β} {s s' : σ} {e : ε}
    (hx : x s = some (.error e, s')) : (x >>= f) s = some (.error e, s') := by
  change andThen x f s = _
  rw [andThen, hx]

/-- A sequence that has returned, taken apart. -/
theorem bind_eq_ok {x : Program σ ε α} {f : α → Program σ ε β} {s s' : σ} {b : β}
    (h : (x >>= f) s = some (.ok b, s')) :
    ∃ a m, x s = some (.ok a, m) ∧ f a m = some (.ok b, s') := by
  change andThen x f s = _ at h
  rw [andThen] at h
  split at h
  · next a m hm => exact ⟨a, m, hm, h⟩
  · cases h
  · cases h

/-! ## How a program ends -/

/-- `x` is defined in `s`, and its result and its final state meet `Q`. -/
def Ends (x : Program σ ε α) (s : σ) (Q : Except ε α → σ → Prop) : Prop :=
  ∃ r s', x s = some (r, s') ∧ Q r s'

section Rules

variable {x : Program σ ε α} {f : α → Program σ ε β} {s : σ}

theorem Ends.mono {Q Q' : Except ε α → σ → Prop} (h : Ends x s Q)
    (hQ : ∀ r s', Q r s' → Q' r s') : Ends x s Q' := by
  obtain ⟨r, s', hx, hr⟩ := h
  exact ⟨r, s', hx, hQ r s' hr⟩

theorem Ends.of_run {r : Except ε α} {s' : σ} {Q : Except ε α → σ → Prop}
    (hx : x s = some (r, s')) (h : Q r s') : Ends x s Q :=
  ⟨r, s', hx, h⟩

theorem Ends.pure {a : α} {Q : Except ε α → σ → Prop} (h : Q (.ok a) s) : Ends (pure a) s Q :=
  .of_run rfl h

/-- The rule for a first part whose value and final state are known. -/
theorem Ends.step {a : α} {s' : σ} {Q : Except ε β → σ → Prop} (hx : x s = some (.ok a, s'))
    (h : Ends (f a) s' Q) : Ends (x >>= f) s Q := by
  obtain ⟨r, s'', hr, hQ⟩ := h
  exact ⟨r, s'', (bind_run hx).trans hr, hQ⟩

/-- The rule for a sequence: the first part ends well and the rest does what is wanted, or its
exception is what is wanted. -/
theorem Ends.bind {P : Except ε α → σ → Prop} {Q : Except ε β → σ → Prop} (hx : Ends x s P)
    (hok : ∀ a s', P (.ok a) s' → Ends (f a) s' Q)
    (herror : ∀ e s', P (.error e) s' → Q (.error e) s') : Ends (x >>= f) s Q := by
  obtain ⟨r, s', hr, hP⟩ := hx
  cases r with
  | ok a =>
    exact Ends.step hr (hok a s' hP)
  | error e =>
    exact ⟨.error e, s', bind_run_error hr, herror e s' hP⟩

theorem Ends.onException {caught : ε → Bool} {cleanup : Program σ ε Unit}
    {P Q : Except ε α → σ → Prop} (hx : Ends x s P) (hok : ∀ a s', P (.ok a) s' → Q (.ok a) s')
    (hcaught : ∀ e s', caught e = true → P (.error e) s' →
      Ends cleanup s' fun r s'' => r = .ok () ∧ Q (.error e) s'')
    (huncaught : ∀ e s', caught e = false → P (.error e) s' → Q (.error e) s') :
    Ends (onException caught x cleanup) s Q := by
  obtain ⟨r, s', hr, hP⟩ := hx
  cases r with
  | ok a => exact ⟨.ok a, s', by rw [Program.onException, hr], hok a s' hP⟩
  | error e =>
    cases he : caught e with
    | false =>
      refine ⟨.error e, s', ?_, huncaught e s' he hP⟩
      rw [Program.onException, hr]
      simp only [he, Bool.false_eq_true, if_false]
    | true =>
      obtain ⟨r', s'', hc, rfl, hQ⟩ := hcaught e s' he hP
      refine ⟨.error e, s'', ?_, hQ⟩
      rw [Program.onException, hr]
      simp only [he, if_true, hc]

end Rules

/-! ## What a program preserves -/

/-- From a state with `I`, `x` ends in one with `J`, whether it returns or throws. -/
def Leads (I J : σ → Prop) (x : Program σ ε α) : Prop :=
  ∀ s r s', I s → x s = some (r, s') → J s'

/-- `x` preserves `I`, whether it returns or throws. -/
def Keeps (I : σ → Prop) (x : Program σ ε α) : Prop := Leads I I x

section Keeps

variable {I J K : σ → Prop} {x : Program σ ε α} {f : α → Program σ ε β}

theorem keeps_pure (a : α) : Keeps I (pure a : Program σ ε α) := by
  intro s r s' hs h
  obtain ⟨rfl, rfl⟩ := Prod.mk.inj (Option.some.inj h)
  exact hs

theorem keeps_throw (e : ε) : Keeps I (throw e : Program σ ε α) := by
  intro s r s' hs h
  obtain ⟨rfl, rfl⟩ := Prod.mk.inj (Option.some.inj h)
  exact hs

theorem keeps_fetch (g : σ → Option α) : Keeps I (fetch g : Program σ ε α) := by
  intro s r s' hs h
  obtain ⟨a, -, ha⟩ := Option.map_eq_some_iff.mp h
  obtain ⟨-, rfl⟩ := Prod.mk.inj ha
  exact hs

theorem leads_undefined : Leads I J (undefined : Program σ ε α) := fun _ _ _ _ h => by cases h

theorem leads_modify {g : σ → σ} (hg : ∀ s, I s → J (g s)) :
    Leads I J (modify g : Program σ ε Unit) := by
  intro s r s' hs h
  obtain ⟨-, rfl⟩ := Prod.mk.inj (Option.some.inj h)
  exact hg s hs

/-- The rule for a sequence whose first part says something about its value. -/
theorem Leads.bind_value {Q : α → σ → Prop}
    (hx : ∀ s r s', I s → x s = some (r, s') → (∀ a, r = .ok a → Q a s') ∧ J s')
    (hf : ∀ a, Leads (Q a) K (f a)) (hJK : ∀ s, J s → K s) : Leads I K (x >>= f) := by
  intro s r s' hs h
  change andThen x f s = some (r, s') at h
  rw [andThen] at h
  split at h
  · next a m hm => exact hf a m r s' ((hx s _ m hs hm).1 a rfl) h
  · next e m hm =>
    obtain ⟨-, rfl⟩ := Prod.mk.inj (Option.some.inj h)
    exact hJK _ (hx s _ _ hs hm).2
  · cases h

theorem Leads.bind (hx : Leads I J x) (hf : ∀ a, Leads J K (f a)) (hJK : ∀ s, J s → K s) :
    Leads I K (x >>= f) :=
  Leads.bind_value (fun s r s' hs h => ⟨fun _ _ => hx s r s' hs h, hx s r s' hs h⟩) hf hJK

theorem Keeps.bind (hx : Keeps I x) (hf : ∀ a, Keeps I (f a)) : Keeps I (x >>= f) :=
  Leads.bind hx hf fun _ hs => hs

/-- The rule for a look at the state. -/
theorem Leads.fetch {g : σ → Option α} (hf : ∀ a, Leads (fun s => I s ∧ g s = some a) K (f a)) :
    Leads I K (fetch g >>= f) := by
  intro s r s' hs h
  cases ha : g s with
  | none =>
    change andThen (Program.fetch g) f s = some (r, s') at h
    rw [andThen, Program.fetch, ha] at h
    cases h
  | some a =>
    rw [bind_run (fetch_run g ha)] at h
    exact hf a s r s' ⟨hs, ha⟩ h

theorem Leads.onException {caught : ε → Bool} {cleanup : Program σ ε Unit} (hx : Leads I J x)
    (hc : Keeps J cleanup) : Leads I J (onException caught x cleanup) := by
  intro s r s' hs h
  rw [Program.onException] at h
  split at h
  · next e m hm =>
    have hm' := hx s _ m hs hm
    split at h
    · split at h
      · next n hn =>
        obtain ⟨-, rfl⟩ := Prod.mk.inj (Option.some.inj h)
        exact hc m _ _ hm' hn
      · cases h
    · obtain ⟨-, rfl⟩ := Prod.mk.inj (Option.some.inj h)
      exact hm'
  · exact hx s _ _ hs h

end Keeps

end Program

end Doost
