import Mathlib.Logic.Function.Basic
import Doost.Foundations.Transition

/-!
# Objects behind a mutex

An object is a state with operations that a thread executes step by step (`StepObject`). A monitor
is such an object whose operations hold a mutex: a thread calls an operation, takes the mutex when
it is free, executes the steps of the body, gives the mutex back, and returns (`Monitor.next`). An
atomic object is one whose operations take effect in a single step between the call and the return
(`Atomic.next`); it keeps the log of the effects.

`Monitor.linearizable`: if the body of each operation computes `effect`, then every run of the
monitor, with any number of threads, has the calls and returns of a run of the atomic object. The
log of an atomic object is a sequential history of the object (`Atomic.replays`).
-/

namespace Doost.Transition

/-! ## Simulations -/

section Simulation

variable {S L S' L' E : Type*} {next : S → L → Option S} {next' : S' → L' → Option S'}

/-- If every step from related states is matched by a run with the same observations, so is every
run. -/
theorem run_simulates {observe : L → Option E} {observe' : L' → Option E} {R : S → S' → Prop}
    (hstep : ∀ s s' l t, R s s' → next s l = some t →
      ∃ ms t', run next' s' ms = some t' ∧ ms.filterMap observe' = (observe l).toList ∧ R t t')
    {s t : S} {s' : S'} {ls : List L} (h : R s s') (hrun : run next s ls = some t) :
    ∃ ms t', run next' s' ms = some t' ∧ ms.filterMap observe' = ls.filterMap observe ∧
      R t t' := by
  induction ls generalizing s s' with
  | nil =>
    obtain rfl := Option.some.inj hrun
    exact ⟨[], s', rfl, rfl, h⟩
  | cons l ls ih =>
    obtain ⟨u, hu, hrest⟩ := run_cons_eq_some.mp hrun
    obtain ⟨ms, u', hms, hobserve, hR⟩ := hstep s s' l u h hu
    obtain ⟨ns, t', hns, hobserve', hR'⟩ := ih hR hrest
    refine ⟨ms ++ ns, t', ?_, ?_, hR'⟩
    · rw [run_append, hms]
      exact hns
    · rw [List.filterMap_append, hobserve, hobserve', List.filterMap_cons]
      cases observe l <;> rfl

end Simulation

end Doost.Transition

namespace Doost.Monitors

open Transition

/-! ## Objects -/

/-- An object with state `S`. A thread that executes an operation is at a place `L`, and a step of
it goes on at another place or ends with a result `R`. -/
structure StepObject (S Op L R : Type*) where
  enter : Op → L
  step : S → L → S × (L ⊕ R)

variable {S Op L R : Type*}

/-- The steps from the place `l`, with nobody else at the object, end in a state with a result. -/
inductive StepObject.Runs (o : StepObject S Op L R) : S → L → S × R → Prop
  | done {s s' : S} {l : L} {r : R} (h : o.step s l = (s', .inr r)) : o.Runs s l (s', r)
  | more {s s' : S} {l l' : L} {x : S × R} (h : o.step s l = (s', .inl l')) (hx : o.Runs s' l' x) :
    o.Runs s l x

/-- The body of every operation computes its effect. -/
def StepObject.Computes (o : StepObject S Op L R) (effect : S → Op → S × R) : Prop :=
  ∀ s op, o.Runs s (o.enter op) (effect s op)

theorem StepObject.Runs.of_step {o : StepObject S Op L R} {s s' : S} {l : L} {e : L ⊕ R}
    {x : S × R} (h : o.Runs s l x) (hstep : o.step s l = (s', e)) :
    (∀ l', e = .inl l' → o.Runs s' l' x) ∧ ∀ r, e = .inr r → x = (s', r) := by
  cases h with
  | done hdone =>
    obtain ⟨rfl, rfl⟩ := Prod.mk.inj (hdone.symm.trans hstep)
    refine ⟨fun l' hl => (by cases hl), fun r hr => ?_⟩
    obtain rfl := Sum.inr.inj hr
    rfl
  | more hmore hx =>
    obtain ⟨rfl, rfl⟩ := Prod.mk.inj (hmore.symm.trans hstep)
    refine ⟨fun l' hl => ?_, fun r hr => (by cases hr)⟩
    obtain rfl := Sum.inl.inj hl
    exact hx

/-- What the callers see. -/
inductive Event (Op R : Type*)
  | call (t : ℕ) (op : Op)
  | ret (t : ℕ) (r : R)
  deriving DecidableEq, Repr

/-! ## The monitor -/

/-- Where a thread is. -/
inductive Place (Op L R : Type*)
  | outside
  /-- Called; next it takes the mutex. -/
  | waiting (op : Op)
  /-- In the body, with the mutex. -/
  | inside (op : Op) (l : L)
  /-- At the end of the body, with the mutex. -/
  | leaving (op : Op) (r : R)
  /-- The mutex is given back; next it returns. -/
  | returning (op : Op) (r : R)

/-- Who moves. -/
inductive Move (Op R : Type*)
  | call (t : ℕ) (op : Op)
  | lock (t : ℕ)
  | step (t : ℕ)
  | unlock (t : ℕ)
  | ret (t : ℕ) (r : R)
  deriving DecidableEq, Repr

def Move.event : Move Op R → Option (Event Op R)
  | call t op => some (.call t op)
  | ret t r => some (.ret t r)
  | _ => none

/-- An object behind a mutex, and the threads. -/
structure Monitor (S Op L R : Type*) where
  shared : S
  holder : Option ℕ
  threads : ℕ → Place Op L R

namespace Monitor

/-- Nobody has called. -/
def start (s : S) : Monitor S Op L R := ⟨s, none, fun _ => .outside⟩

/-- The thread `t` goes to a place. -/
def goto (m : Monitor S Op L R) (t : ℕ) (p : Place Op L R) : Monitor S Op L R :=
  { m with threads := Function.update m.threads t p }

def next [DecidableEq R] (o : StepObject S Op L R) (m : Monitor S Op L R) :
    Move Op R → Option (Monitor S Op L R)
  | .call t op =>
    match m.threads t with
    | .outside => some (m.goto t (.waiting op))
    | _ => none
  | .lock t =>
    match m.threads t, m.holder with
    | .waiting op, none => some { m.goto t (.inside op (o.enter op)) with holder := some t }
    | _, _ => none
  | .step t =>
    match m.threads t with
    | .inside op l =>
      match o.step m.shared l with
      | (s, .inl l') => some { m.goto t (.inside op l') with shared := s }
      | (s, .inr r) => some { m.goto t (.leaving op r) with shared := s }
    | _ => none
  | .unlock t =>
    match m.threads t with
    | .leaving op r => some { m.goto t (.returning op r) with holder := none }
    | _ => none
  | .ret t r =>
    match m.threads t with
    | .returning _ r' => if r = r' then some (m.goto t .outside) else none
    | _ => none

end Monitor

/-! ## The atomic object -/

/-- Where a thread is. -/
inductive AtomicPlace (Op R : Type*)
  | outside
  /-- Called, with no effect yet. -/
  | called (op : Op)
  /-- The operation has taken effect. -/
  | done (op : Op) (r : R)

/-- Who moves. -/
inductive AtomicMove (Op R : Type*)
  | call (t : ℕ) (op : Op)
  | commit (t : ℕ)
  | ret (t : ℕ) (r : R)

def AtomicMove.event : AtomicMove Op R → Option (Event Op R)
  | call t op => some (.call t op)
  | commit _ => none
  | ret t r => some (.ret t r)

/-- An operation that has taken effect. -/
structure Commit (Op R : Type*) where
  thread : ℕ
  op : Op
  result : R

/-- An object whose operations take effect in one step, with the log of the effects, the newest
first. -/
structure Atomic (S Op R : Type*) where
  shared : S
  threads : ℕ → AtomicPlace Op R
  log : List (Commit Op R)

namespace Atomic

def start (s : S) : Atomic S Op R := ⟨s, fun _ => .outside, []⟩

def goto (a : Atomic S Op R) (t : ℕ) (p : AtomicPlace Op R) : Atomic S Op R :=
  { a with threads := Function.update a.threads t p }

def next [DecidableEq R] (effect : S → Op → S × R) (a : Atomic S Op R) :
    AtomicMove Op R → Option (Atomic S Op R)
  | .call t op =>
    match a.threads t with
    | .outside => some (a.goto t (.called op))
    | _ => none
  | .commit t =>
    match a.threads t with
    | .called op =>
      let (s, r) := effect a.shared op
      some { a.goto t (.done op r) with shared := s, log := ⟨t, op, r⟩ :: a.log }
    | _ => none
  | .ret t r =>
    match a.threads t with
    | .done _ r' => if r = r' then some (a.goto t .outside) else none
    | _ => none

/-- The operations of a log, made one after the other from `s`, end in `s'` and have the results
of the log. -/
inductive Replays (effect : S → Op → S × R) (s : S) : List (Commit Op R) → S → Prop
  | nil : Replays effect s [] s
  | cons {log : List (Commit Op R)} {s₁ : S} {t : ℕ} {op : Op} (h : Replays effect s log s₁) :
    Replays effect s (⟨t, op, (effect s₁ op).2⟩ :: log) (effect s₁ op).1

variable [DecidableEq R] {effect : S → Op → S × R}

theorem call_inv {a a' : Atomic S Op R} {t : ℕ} {op : Op}
    (h : next effect a (.call t op) = some a') :
    a.threads t = .outside ∧ a' = a.goto t (.called op) := by
  simp only [next] at h
  split at h <;> cases h
  next hplace => exact ⟨hplace, rfl⟩

theorem commit_inv {a a' : Atomic S Op R} {t : ℕ} (h : next effect a (.commit t) = some a') :
    ∃ op, a.threads t = .called op ∧
      a' = { a.goto t (.done op (effect a.shared op).2) with
        shared := (effect a.shared op).1
        log := ⟨t, op, (effect a.shared op).2⟩ :: a.log } := by
  simp only [next] at h
  split at h <;> cases h
  next op hplace => exact ⟨op, hplace, rfl⟩

theorem ret_inv {a a' : Atomic S Op R} {t : ℕ} {r : R}
    (h : next effect a (.ret t r) = some a') :
    (∃ op, a.threads t = .done op r) ∧ a' = a.goto t .outside := by
  simp only [next] at h
  split at h
  · next op r' hplace =>
    split at h <;> cases h
    next hr => exact ⟨⟨op, hr ▸ hplace⟩, rfl⟩
  · cases h

/-- **The log is a sequential history.** -/
theorem replays {s : S} {ms : List (AtomicMove Op R)} {a : Atomic S Op R}
    (hrun : run (next effect) (start s) ms = some a) : Replays effect s a.log a.shared := by
  refine run_invariant (I := fun a : Atomic S Op R => Replays effect s a.log a.shared)
    (fun a m a' h (_ : True) hnext => ?_) .nil (fun _ _ => trivial) hrun
  cases m with
  | call t op =>
    obtain ⟨-, rfl⟩ := call_inv hnext
    exact h
  | commit t =>
    obtain ⟨op, -, rfl⟩ := commit_inv hnext
    exact .cons h
  | ret t r =>
    obtain ⟨-, rfl⟩ := ret_inv hnext
    exact h

end Atomic

/-! ## The simulation -/

/-- Where a thread of the atomic object is while that of the monitor is at a place. -/
def Place.atomic : Place Op L R → AtomicPlace Op R
  | outside => .outside
  | waiting op | inside op _ => .called op
  | leaving op r | returning op r => .done op r

/-- The thread has the mutex. -/
def Place.Holds : Place Op L R → Prop
  | inside _ _ | leaving _ _ => True
  | _ => False

/-- What the state of the object and that of the atomic object have to do with each other: between
operations they are the same, and inside an operation its remaining steps end with the effect. -/
def Agrees (o : StepObject S Op L R) (effect : S → Op → S × R) (shared atomic : S) :
    Place Op L R → Prop
  | .inside op l => o.Runs shared l (effect atomic op)
  | _ => atomic = shared

/-- The simulation of a monitor by an atomic object. -/
structure Simulates (o : StepObject S Op L R) (effect : S → Op → S × R) (m : Monitor S Op L R)
    (a : Atomic S Op R) : Prop where
  threads : ∀ t, a.threads t = (m.threads t).atomic
  holder : ∀ t, m.holder = some t ↔ (m.threads t).Holds
  free : m.holder = none → a.shared = m.shared
  held : ∀ t, m.holder = some t → Agrees o effect m.shared a.shared (m.threads t)

namespace Simulates

variable {o : StepObject S Op L R} {effect : S → Op → S × R} {m m' : Monitor S Op L R}
  {a : Atomic S Op R} {t : ℕ} {p : Place Op L R} {ap : AtomicPlace Op R}

theorem start (s : S) : Simulates o effect (.start s) (.start s) where
  threads _ := rfl
  holder _ := ⟨fun h => (by cases h), fun h => absurd h id⟩
  free _ := rfl
  held _ h := by cases h

/-- A thread that neither has nor gets the mutex moves. -/
theorem goto (h : Simulates o effect m a) (hbefore : ¬ (m.threads t).Holds) (hafter : ¬ p.Holds) :
    Simulates o effect (m.goto t p) (a.goto t p.atomic) where
  threads u := by
    rcases eq_or_ne u t with rfl | hne
    · simp only [Monitor.goto, Atomic.goto, Function.update_self]
    · simp only [Monitor.goto, Atomic.goto, Function.update_of_ne hne, h.threads]
  holder u := by
    rcases eq_or_ne u t with rfl | hne
    · simp only [Monitor.goto, Function.update_self]
      exact iff_of_false ((h.holder u).not.mpr hbefore) hafter
    · simp only [Monitor.goto, Function.update_of_ne hne]
      exact h.holder u
  free := h.free
  held u hu := by
    have hne : u ≠ t := by
      rintro rfl
      exact hbefore ((h.holder u).mp hu)
    simp only [Monitor.goto, Function.update_of_ne hne]
    exact h.held u hu

/-- The thread with the mutex goes to another place in the body. -/
theorem keep (h : Simulates o effect m a) (hm : m.holder = some t) {s : S} (hp : p.Holds)
    (hsame : p.atomic = (m.threads t).atomic) (hagrees : Agrees o effect s a.shared p) :
    Simulates o effect { m.goto t p with shared := s } a where
  threads u := by
    rcases eq_or_ne u t with rfl | hne
    · simp only [Monitor.goto, Function.update_self, hsame, h.threads]
    · simp only [Monitor.goto, Function.update_of_ne hne, h.threads]
  holder u := by
    rcases eq_or_ne u t with rfl | hne
    · simp only [Monitor.goto, Function.update_self]
      exact iff_of_true hm hp
    · simp only [Monitor.goto, Function.update_of_ne hne]
      exact h.holder u
  free hnone := by
    have hfree : m.holder = none := hnone
    cases hm.symm.trans hfree
  held u hu := by
    obtain rfl : t = u := Option.some.inj (hm.symm.trans hu)
    simp only [Monitor.goto, Function.update_self]
    exact hagrees

/-- The mutex is taken. -/
theorem lock (h : Simulates o effect m a) (ho : o.Computes effect) {op : Op}
    (hplace : m.threads t = .waiting op) (hm : m.holder = none) :
    Simulates o effect { m.goto t (.inside op (o.enter op)) with holder := some t } a where
  threads u := by
    rcases eq_or_ne u t with rfl | hne
    · simp only [Monitor.goto, Function.update_self, h.threads, hplace, Place.atomic]
    · simp only [Monitor.goto, Function.update_of_ne hne, h.threads]
  holder u := by
    rcases eq_or_ne u t with rfl | hne
    · simp only [Monitor.goto, Function.update_self]
      exact iff_of_true trivial trivial
    · simp only [Monitor.goto, Function.update_of_ne hne]
      refine iff_of_false (fun heq => hne (Option.some.inj heq).symm) ((h.holder u).not.mp ?_)
      rw [hm]
      exact fun heq => by cases heq
  free hnone := by cases hnone
  held u hu := by
    obtain rfl : t = u := Option.some.inj hu
    simp only [Monitor.goto, Function.update_self]
    change o.Runs m.shared (o.enter op) (effect a.shared op)
    rw [h.free hm]
    exact ho m.shared op

/-- The mutex is given back. -/
theorem unlock (h : Simulates o effect m a) {op : Op} {r : R}
    (hplace : m.threads t = .leaving op r) :
    Simulates o effect { m.goto t (.returning op r) with holder := none } a where
  threads u := by
    rcases eq_or_ne u t with rfl | hne
    · simp only [Monitor.goto, Function.update_self, h.threads, hplace, Place.atomic]
    · simp only [Monitor.goto, Function.update_of_ne hne, h.threads]
  holder u := by
    have hm : m.holder = some t := (h.holder t).mpr (by rw [hplace]; trivial)
    rcases eq_or_ne u t with rfl | hne
    · simp only [Monitor.goto, Function.update_self]
      exact iff_of_false (fun heq => by cases heq) id
    · simp only [Monitor.goto, Function.update_of_ne hne]
      refine iff_of_false (fun heq => by cases heq) ((h.holder u).not.mp ?_)
      rw [hm]
      exact fun heq => hne (Option.some.inj heq).symm
  free _ := by
    have hm : m.holder = some t := (h.holder t).mpr (by rw [hplace]; trivial)
    have hagrees := h.held t hm
    rw [hplace] at hagrees
    exact hagrees
  held u hu := by cases hu

/-- The last step of a body, where the operation takes effect. -/
theorem commit (h : Simulates o effect m a) (hm : m.holder = some t) (op : Op) (s : S) (r : R) :
    Simulates o effect { m.goto t (.leaving op r) with shared := s }
      { a.goto t (.done op r) with shared := s, log := ⟨t, op, r⟩ :: a.log } where
  threads u := by
    rcases eq_or_ne u t with rfl | hne
    · simp only [Monitor.goto, Atomic.goto, Function.update_self, Place.atomic]
    · simp only [Monitor.goto, Atomic.goto, Function.update_of_ne hne, h.threads]
  holder u := by
    rcases eq_or_ne u t with rfl | hne
    · simp only [Monitor.goto, Function.update_self]
      exact iff_of_true hm trivial
    · simp only [Monitor.goto, Function.update_of_ne hne]
      exact h.holder u
  free hnone := by
    have hfree : m.holder = none := hnone
    cases hm.symm.trans hfree
  held u hu := by
    obtain rfl : t = u := Option.some.inj (hm.symm.trans hu)
    simp only [Monitor.goto, Function.update_self, Agrees]

/-- Every step of the monitor is one of the atomic object, or none. -/
theorem next [DecidableEq R] (h : Simulates o effect m a) (ho : o.Computes effect) {l : Move Op R}
    (hnext : Monitor.next o m l = some m') :
    ∃ a', Simulates o effect m' a' ∧ ((a' = a ∧ l.event = none) ∨
      ∃ l', Atomic.next effect a l' = some a' ∧ l'.event = l.event) := by
  cases l with
  | call t op =>
    simp only [Monitor.next] at hnext
    split at hnext <;> cases hnext
    next hplace =>
    refine ⟨_, h.goto (p := .waiting op) (by rw [hplace]; exact id) id,
      Or.inr ⟨.call t op, ?_, rfl⟩⟩
    simp only [Atomic.next, h.threads, hplace, Place.atomic]
  | lock t =>
    simp only [Monitor.next] at hnext
    split at hnext <;> cases hnext
    next op hplace hm => exact ⟨a, h.lock ho hplace hm, Or.inl ⟨rfl, rfl⟩⟩
  | step t =>
    simp only [Monitor.next] at hnext
    split at hnext
    · next op l hplace =>
      have hm : m.holder = some t := (h.holder t).mpr (by rw [hplace]; trivial)
      have hagrees := h.held t hm
      rw [hplace] at hagrees
      split at hnext <;> cases hnext
      · next s l' hstep =>
        exact ⟨a, h.keep hm trivial (by rw [hplace]; rfl) ((hagrees.of_step hstep).1 l' rfl),
          Or.inl ⟨rfl, rfl⟩⟩
      · next s r hstep =>
        have heffect := (hagrees.of_step hstep).2 r rfl
        refine ⟨_, h.commit hm op s r, Or.inr ⟨.commit t, ?_, rfl⟩⟩
        simp only [Atomic.next, h.threads, hplace, Place.atomic, heffect]
    · cases hnext
  | unlock t =>
    simp only [Monitor.next] at hnext
    split at hnext <;> cases hnext
    next op r hplace => exact ⟨a, h.unlock hplace, Or.inl ⟨rfl, rfl⟩⟩
  | ret t r =>
    simp only [Monitor.next] at hnext
    split at hnext
    · next op r' hplace =>
      split at hnext <;> cases hnext
      next hr =>
      refine ⟨_, h.goto (p := .outside) (by rw [hplace]; exact id) id,
        Or.inr ⟨.ret t r, ?_, rfl⟩⟩
      simp only [Atomic.next, h.threads, hplace, Place.atomic, if_pos hr]
    · cases hnext

/-- No two threads have the mutex. -/
theorem exclusive (h : Simulates o effect m a) {t u : ℕ} (ht : (m.threads t).Holds)
    (hu : (m.threads u).Holds) : t = u :=
  Option.some.inj (((h.holder t).mpr ht).symm.trans ((h.holder u).mpr hu))

end Simulates

/-- **A monitor is linearizable.** If the body of each operation computes its effect, every run of
the monitor has the calls and returns of a run of the atomic object, with the same state when
nobody has the mutex. -/
theorem Monitor.linearizable [DecidableEq R] {o : StepObject S Op L R} {effect : S → Op → S × R}
    (ho : o.Computes effect) {s : S} {ls : List (Move Op R)} {m : Monitor S Op L R}
    (hrun : run (Monitor.next o) (Monitor.start s) ls = some m) :
    ∃ ms a, run (Atomic.next effect) (Atomic.start s) ms = some a ∧
      ms.filterMap AtomicMove.event = ls.filterMap Move.event ∧ Simulates o effect m a := by
  refine run_simulates (fun m a l m' h hnext => ?_) (Simulates.start s) hrun
  obtain ⟨a', h', ⟨rfl, hnone⟩ | ⟨l', hl', hevent⟩⟩ := Simulates.next h ho hnext
  · exact ⟨[], a', rfl, by rw [hnone]; rfl, h'⟩
  · refine ⟨[l'], a', run_cons_eq_some.mpr ⟨a', hl', rfl⟩, ?_, h'⟩
    rw [List.filterMap_cons, hevent]
    cases l.event <;> rfl

end Doost.Monitors
