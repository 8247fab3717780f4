import Doost.Foundations.Potential

/-!
# The threads of a benchmark

`run_threads` creates a thread for every index, joins them all, and then throws again what the first
of them has thrown. The steps of the caller and of the threads interleave (`RunThreads.next`); what
a thread does in `function` is a parameter, a `ThreadFunction`, whose steps read and write what the
threads share.

`run_threads_joins` says what the caller can rely on when `run_threads` is over, for any function.
`ThreadFunction.Keeps` is the obligation for an invariant of what is shared and where the threads
are; `Kept.run` carries it through every run of `run_threads`, which `Kept.exists_next` says is
never stuck, and `run_length_le` bounds the run by the steps that are left of each function.
-/

namespace Doost.Benchmarks

open Transition

/-! ## The program -/

/-- Where a step of a function leads. -/
inductive Progress (F E : Type*)
  | goesOn (place : F)
  /-- The function returns, or throws an exception. -/
  | ends (result : Except E Unit)
  /-- The step ends the process. -/
  | crashes

/-- A function of the index of its thread: where it begins, and its steps on what the threads share.
`W` is what the system answers to a step. -/
structure ThreadFunction (S F W E : Type*) where
  start : ℕ → F
  step : ℕ → F → W → S → Option (Progress F E × S)

/-- A thread that `run_threads` is to create. -/
inductive Thread (F E : Type*)
  | absent
  | running (place : F)
  /-- The thread is over; `result` is how `function` has ended. -/
  | ended (result : Except E Unit)

/-- Where the caller is in `run_threads`. -/
inductive Caller (E : Type*)
  /-- Next the two vectors get their memory. -/
  | reserving
  /-- At the head of the loop that creates the threads. -/
  | creating (index : ℕ)
  /-- At the head of the loop that joins them. -/
  | joining (index : ℕ)
  /-- At the head of the loop over the exceptions. -/
  | rethrowing (index : ℕ)
  | returned
  /-- The exception of a thread has been thrown again. -/
  | threw (e : E)
  /-- The memory or the first thread was refused, and this exception has left `run_threads`. -/
  | gaveUp
  /-- A later thread was refused. Its exception destroys threads that have not been joined, which
  is `std::terminate`. -/
  | terminated
  /-- A step of a thread has ended the process. -/
  | crashed
  deriving DecidableEq

namespace Caller

variable {E : Type*}

/-- `run_threads` is over. -/
def Over : Caller E → Prop
  | returned => True
  | threw _ => True
  | gaveUp => True
  | terminated => True
  | crashed => True
  | _ => False

/-- The process is over. -/
def gone : Caller E → Bool
  | terminated => true
  | crashed => true
  | _ => false

end Caller

structure RunThreads (S F E : Type*) where
  caller : Caller E
  threads : ℕ → Thread F E
  exceptions : ℕ → Option E
  shared : S

namespace RunThreads

variable {S F W E : Type*}

/-- Who moves. -/
inductive Label (W : Type*)
  /-- The caller; `granted` says whether it gets the memory or the thread that it asks for. -/
  | caller (granted : Bool)
  | thread (index : ℕ) (answer : W)

/-- `run_threads` is called. -/
def start (shared : S) : RunThreads S F E := ⟨.reserving, fun _ => .absent, fun _ => none, shared⟩

/-- The thread `index` is where its last step has led. -/
def after (s : RunThreads S F E) (index : ℕ) : Progress F E × S → RunThreads S F E
  | (.goesOn place, shared) =>
    { s with threads := Function.update s.threads index (.running place), shared := shared }
  | (.ends (.ok ()), shared) =>
    { s with threads := Function.update s.threads index (.ended (.ok ())), shared := shared }
  | (.ends (.error e), shared) =>
    -- `exceptions[index] = std::current_exception()`
    { s with
      threads := Function.update s.threads index (.ended (.error e))
      exceptions := Function.update s.exceptions index (some e)
      shared := shared }
  | (.crashes, shared) => { s with caller := .crashed, shared := shared }

/-- The step of the caller. -/
def callerStep (f : ThreadFunction S F W E) (threadCount : ℕ) (s : RunThreads S F E)
    (granted : Bool) : Option (RunThreads S F E) :=
  match s.caller with
  | .reserving => some { s with caller := if granted then .creating 0 else .gaveUp }
  | .creating index =>
    if index = threadCount then some { s with caller := .joining 0 }
    else if granted then
      some { s with
        caller := .creating (index + 1)
        threads := Function.update s.threads index (.running (f.start index)) }
    else some { s with caller := if index = 0 then .gaveUp else .terminated }
  | .joining index =>
    if index = threadCount then some { s with caller := .rethrowing 0 }
    else
      match s.threads index with
      | .ended _ => some { s with caller := .joining (index + 1) }
      | _ => none
  | .rethrowing index =>
    if index = threadCount then some { s with caller := .returned }
    else
      match s.exceptions index with
      | some e => some { s with caller := .threw e }
      | none => some { s with caller := .rethrowing (index + 1) }
  | _ => none

def next (f : ThreadFunction S F W E) (threadCount : ℕ) (s : RunThreads S F E) :
    Label W → Option (RunThreads S F E)
  | .caller granted => s.callerStep f threadCount granted
  | .thread index answer =>
    if s.caller.gone then none
    else
      match s.threads index with
      | .running place => (f.step index place answer s.shared).map (s.after index)
      | _ => none

/-! ## What the caller knows -/

end RunThreads

/-- The thread that a step leaves behind. -/
def Progress.thread {F E : Type*} : Progress F E → Option (Thread F E)
  | goesOn place => some (.running place)
  | ends result => some (.ended result)
  | crashes => none

/-- What `exceptions` has for a thread. -/
def Thread.exception {F E : Type*} : Thread F E → Option E
  | ended (.error e) => some e
  | _ => none

namespace Caller

variable {E : Type*}

/-- The threads below this index have been created. -/
def created (threadCount : ℕ) : Caller E → ℕ
  | reserving => 0
  | creating index => index
  | gaveUp => 0
  | _ => threadCount

/-- The threads below this index have been joined. -/
def joined (threadCount : ℕ) : Caller E → ℕ
  | joining index => index
  | rethrowing _ => threadCount
  | returned => threadCount
  | threw _ => threadCount
  | _ => 0

/-- The threads below this index are known not to have thrown. -/
def passed (threadCount : ℕ) : Caller E → ℕ
  | rethrowing index => index
  | returned => threadCount
  | _ => 0

/-- The steps that the caller has left, if it does not wait. -/
def left (threadCount : ℕ) : Caller E → ℕ
  | reserving => 3 * threadCount + 4
  | creating index => 3 * threadCount + 3 - index
  | joining index => 2 * threadCount + 2 - index
  | rethrowing index => threadCount + 1 - index
  | _ => 0

end Caller

namespace RunThreads

variable {S F W E : Type*} {f : ThreadFunction S F W E} {n t : ℕ} {shared shared' shared₀ : S}
  {s s' : RunThreads S F E} {progress : Progress F E} {thread : Thread F E} {place : F}

/-- What holds between two steps. -/
structure Ok (n : ℕ) (shared₀ : S) (s : RunThreads S F E) : Prop where
  le : s.caller.created n ≤ n ∧ s.caller.joined n ≤ n ∧ s.caller.passed n ≤ n
  absent : s.caller.gone = false → ∀ t, s.threads t = .absent ↔ s.caller.created n ≤ t
  joined : ∀ t < s.caller.joined n, ∃ result, s.threads t = .ended result
  passed : ∀ t < s.caller.passed n, s.threads t = .ended (.ok ())
  exceptions : ∀ t, s.exceptions t = (s.threads t).exception
  threw : ∀ e, s.caller = .threw e →
    ∃ t < n, s.threads t = .ended (.error e) ∧ ∀ u < t, s.threads u = .ended (.ok ())
  untouched : (∀ t, s.threads t = .absent) → s.shared = shared₀

theorem start_ok (n : ℕ) (shared₀ : S) : (start shared₀ : RunThreads S F E).Ok n shared₀ where
  le := ⟨Nat.zero_le _, Nat.zero_le _, Nat.zero_le _⟩
  absent _ t := ⟨fun _ => Nat.zero_le t, fun _ => rfl⟩
  joined t ht := absurd ht (Nat.not_lt_zero t)
  passed t ht := absurd ht (Nat.not_lt_zero t)
  exceptions _ := rfl
  threw _ h := by cases h
  untouched _ := rfl

/-- A thread that runs has been created. -/
theorem Ok.lt_of_running (h : s.Ok n shared₀) (hgone : s.caller.gone = false)
    (hrunning : s.threads t = .running place) : t < s.caller.created n := by
  by_contra hge
  cases ((h.absent hgone t).mpr (Nat.not_lt.mp hge)).symm.trans hrunning

/-- And it has not thrown anything. -/
theorem Ok.exceptions_of_running (h : s.Ok n shared₀) (hrunning : s.threads t = .running place) :
    s.exceptions t = none := by
  rw [h.exceptions, hrunning]
  rfl

/-- A step that does not end the process changes one thread and its exception. -/
theorem after_eq (hthread : progress.thread = some thread) (hnone : s.exceptions t = none)
    (shared : S) : s.after t (progress, shared) =
      { s with
        threads := Function.update s.threads t thread
        exceptions := Function.update s.exceptions t thread.exception
        shared := shared } := by
  have hsame : Function.update s.exceptions t none = s.exceptions := by
    rw [← hnone, Function.update_eq_self]
  cases progress with
  | goesOn place =>
    obtain rfl := Option.some.inj hthread
    simp only [after, Thread.exception, hsame]
  | ends result =>
    obtain rfl := Option.some.inj hthread
    cases result with
    | ok _ => simp only [after, Thread.exception, hsame]
    | error e => rfl
  | crashes => cases hthread

theorem Ok.threadStep (h : s.Ok n shared₀) (hrunning : s.threads t = .running place)
    (progress : Progress F E) (shared : S) : (s.after t (progress, shared)).Ok n shared₀ := by
  -- the caller has not come past a thread that runs
  have hfresh : ∀ u, (∃ result, s.threads u = .ended result) → u ≠ t := by
    rintro u ⟨result, hu⟩ rfl
    rw [hrunning] at hu
    cases hu
  cases hthread : progress.thread with
  | none =>
    cases progress with
    | crashes =>
      refine ⟨⟨le_rfl, Nat.zero_le _, Nat.zero_le _⟩, fun hgone => (by cases hgone),
        fun u hu => absurd hu (Nat.not_lt_zero u), fun u hu => absurd hu (Nat.not_lt_zero u),
        h.exceptions, fun e he => (by cases he), fun habsent => ?_⟩
      have ht : s.threads t = .absent := habsent t
      rw [hrunning] at ht
      cases ht
    | goesOn place | ends result => cases hthread
  | some thread =>
    have hne : thread ≠ .absent := by
      cases progress <;> cases hthread <;> exact fun h => by cases h
    rw [after_eq hthread (h.exceptions_of_running hrunning)]
    have hsame : ∀ u, (∃ result, s.threads u = .ended result) →
        Function.update s.threads t thread u = s.threads u :=
      fun u hu => Function.update_of_ne (hfresh u hu) ..
    refine ⟨h.le, fun hgone u => ?_, fun u hu => ?_, fun u hu => ?_, fun u => ?_, fun e he => ?_,
      fun habsent => ?_⟩
    · rw [← h.absent hgone u]
      change Function.update s.threads t thread u = _ ↔ _
      rcases eq_or_ne u t with rfl | hut
      · rw [Function.update_self, hrunning]
        exact ⟨fun h => absurd h hne, fun h => by cases h⟩
      · rw [Function.update_of_ne hut]
    · change ∃ result, Function.update s.threads t thread u = _
      rw [hsame u (h.joined u hu)]
      exact h.joined u hu
    · change Function.update s.threads t thread u = _
      rw [hsame u ⟨_, h.passed u hu⟩]
      exact h.passed u hu
    · change Function.update s.exceptions t _ u = (Function.update s.threads t thread u).exception
      rcases eq_or_ne u t with rfl | hut
      · rw [Function.update_self, Function.update_self]
      · rw [Function.update_of_ne hut, Function.update_of_ne hut]
        exact h.exceptions u
    · obtain ⟨u, hu, hend, hbelow⟩ := h.threw e he
      refine ⟨u, hu, ?_, fun v hv => ?_⟩
      · change Function.update s.threads t thread u = _
        rw [hsame u ⟨_, hend⟩]
        exact hend
      · change Function.update s.threads t thread v = _
        rw [hsame v ⟨_, hbelow v hv⟩]
        exact hbelow v hv
    · have ht : Function.update s.threads t thread t = .absent := habsent t
      rw [Function.update_self] at ht
      exact absurd ht hne

/-- The caller goes on to where it has joined nobody. -/
theorem Ok.goesTo (h : s.Ok n shared₀) {caller : Caller E} (hcreated : caller.created n ≤ n)
    (habsent : caller.gone = false → ∀ t, s.threads t = .absent ↔ caller.created n ≤ t)
    (hjoined : caller.joined n = 0) (hpassed : caller.passed n = 0)
    (hthrew : ∀ e, caller ≠ .threw e) : { s with caller := caller }.Ok n shared₀ where
  le := ⟨hcreated, hjoined.trans_le (Nat.zero_le n), hpassed.trans_le (Nat.zero_le n)⟩
  absent := habsent
  joined t ht := absurd (hjoined ▸ ht) (Nat.not_lt_zero t)
  passed t ht := absurd (hpassed ▸ ht) (Nat.not_lt_zero t)
  exceptions := h.exceptions
  threw e he := absurd he (hthrew e)
  untouched := h.untouched

section Caller

variable {index : ℕ}

/-- One more thread begins. -/
theorem Ok.create (h : s.Ok n shared₀) (hcaller : s.caller = .creating index) (hlt : index < n) :
    { s with
      caller := .creating (index + 1)
      threads := Function.update s.threads index (.running place) }.Ok n shared₀ := by
  have habsent : ∀ t, s.threads t = .absent ↔ index ≤ t := by
    have habsent := h.absent
    rw [hcaller] at habsent
    exact habsent rfl
  refine ⟨⟨Nat.succ_le_of_lt hlt, Nat.zero_le n, Nat.zero_le n⟩, fun _ t => ?_,
    fun t ht => absurd ht (Nat.not_lt_zero t), fun t ht => absurd ht (Nat.not_lt_zero t),
    fun t => ?_, fun _ => nofun, fun hnone => ?_⟩
  · change Function.update s.threads index _ t = _ ↔ index + 1 ≤ t
    rcases eq_or_ne t index with rfl | hne
    · rw [Function.update_self]
      exact ⟨nofun, fun h => absurd h (Nat.not_succ_le_self t)⟩
    · rw [Function.update_of_ne hne, habsent t]
      omega
  · change s.exceptions t = (Function.update s.threads index _ t).exception
    rw [h.exceptions]
    rcases eq_or_ne t index with rfl | hne
    · rw [Function.update_self, (habsent t).mpr le_rfl]
      rfl
    · rw [Function.update_of_ne hne]
  · have hindex : Function.update s.threads index _ index = .absent := hnone index
    rw [Function.update_self] at hindex
    cases hindex

/-- One more thread has been joined. -/
theorem Ok.join (h : s.Ok n shared₀) (hcaller : s.caller = .joining index) (hlt : index < n)
    {result : Except E Unit} (hended : s.threads index = .ended result) :
    { s with caller := .joining (index + 1) }.Ok n shared₀ := by
  obtain ⟨-, habsent, hjoined, -, hexceptions, -, huntouched⟩ := h
  rw [hcaller] at habsent hjoined
  refine ⟨⟨le_rfl, Nat.succ_le_of_lt hlt, Nat.zero_le n⟩, fun _ => habsent rfl, fun t ht => ?_,
    fun t ht => absurd ht (Nat.not_lt_zero t), hexceptions, fun _ => nofun, huntouched⟩
  rcases eq_or_ne t index with rfl | hne
  · exact ⟨result, hended⟩
  · exact hjoined t (lt_of_le_of_ne (Nat.lt_succ_iff.mp ht) hne)

/-- One more thread turns out not to have thrown. -/
theorem Ok.pass (h : s.Ok n shared₀) (hcaller : s.caller = .rethrowing index) (hlt : index < n)
    (hnone : s.exceptions index = none) :
    { s with caller := .rethrowing (index + 1) }.Ok n shared₀ := by
  obtain ⟨-, habsent, hjoined, hpassed, hexceptions, -, huntouched⟩ := h
  rw [hcaller] at habsent hjoined hpassed
  refine ⟨⟨le_rfl, le_rfl, Nat.succ_le_of_lt hlt⟩, fun _ => habsent rfl, hjoined, fun t ht => ?_,
    hexceptions, fun _ => nofun, huntouched⟩
  rcases eq_or_ne t index with rfl | hne
  · obtain ⟨result, hended⟩ := hjoined t hlt
    rw [hexceptions, hended] at hnone
    cases result with
    | ok _ => exact hended
    | error e => cases hnone
  · exact hpassed t (lt_of_le_of_ne (Nat.lt_succ_iff.mp ht) hne)

/-- The first exception is thrown again. -/
theorem Ok.rethrow (h : s.Ok n shared₀) (hcaller : s.caller = .rethrowing index) (hlt : index < n)
    {e : E} (he : s.exceptions index = some e) : { s with caller := .threw e }.Ok n shared₀ := by
  obtain ⟨-, habsent, hjoined, hpassed, hexceptions, -, huntouched⟩ := h
  rw [hcaller] at habsent hjoined hpassed
  refine ⟨⟨le_rfl, le_rfl, Nat.zero_le n⟩, fun _ => habsent rfl, hjoined,
    fun t ht => absurd ht (Nat.not_lt_zero t), hexceptions, fun e' he' => ?_, huntouched⟩
  obtain rfl := Caller.threw.inj he'
  refine ⟨index, hlt, ?_, hpassed⟩
  obtain ⟨result, hended⟩ := hjoined index hlt
  rw [hexceptions, hended] at he
  cases result with
  | ok _ => cases he
  | error e' =>
    obtain rfl := Option.some.inj he
    exact hended

/-- What a step of the caller can be. -/
inductive CallerMoves (f : ThreadFunction S F W E) (n : ℕ) (s : RunThreads S F E) :
    RunThreads S F E → Prop
  | reserves (hcaller : s.caller = .reserving) :
    CallerMoves f n s { s with caller := .creating 0 }
  | givesUp (hcaller : s.caller = .reserving ∨ s.caller = .creating 0) :
    CallerMoves f n s { s with caller := .gaveUp }
  | creates {index : ℕ} (hcaller : s.caller = .creating index) (hlt : index < n) :
    CallerMoves f n s { s with
      caller := .creating (index + 1)
      threads := Function.update s.threads index (.running (f.start index)) }
  | terminates {index : ℕ} (hcaller : s.caller = .creating index) (hlt : index < n) :
    CallerMoves f n s { s with caller := .terminated }
  | hasCreated (hcaller : s.caller = .creating n) :
    CallerMoves f n s { s with caller := .joining 0 }
  | joins {index : ℕ} (hcaller : s.caller = .joining index) (hlt : index < n)
      {result : Except E Unit} (hended : s.threads index = .ended result) :
    CallerMoves f n s { s with caller := .joining (index + 1) }
  | hasJoined (hcaller : s.caller = .joining n) :
    CallerMoves f n s { s with caller := .rethrowing 0 }
  | passes {index : ℕ} (hcaller : s.caller = .rethrowing index) (hlt : index < n)
      (hnone : s.exceptions index = none) :
    CallerMoves f n s { s with caller := .rethrowing (index + 1) }
  | rethrows {index : ℕ} (hcaller : s.caller = .rethrowing index) (hlt : index < n) {e : E}
      (he : s.exceptions index = some e) :
    CallerMoves f n s { s with caller := .threw e }
  | returns (hcaller : s.caller = .rethrowing n) :
    CallerMoves f n s { s with caller := .returned }

theorem Ok.callerMoves (h : s.Ok n shared₀) {granted : Bool}
    (hstep : s.callerStep f n granted = some s') : s.CallerMoves f n s' := by
  obtain ⟨hcreated, hjoined, hpassed⟩ := h.le
  cases hcaller : s.caller with
  | reserving =>
    simp only [RunThreads.callerStep, hcaller] at hstep
    obtain rfl := Option.some.inj hstep
    cases granted with
    | true => exact .reserves hcaller
    | false => exact .givesUp (Or.inl hcaller)
  | creating index =>
    rw [hcaller] at hcreated
    simp only [RunThreads.callerStep, hcaller] at hstep
    split at hstep
    · next hend =>
      obtain rfl := Option.some.inj hstep
      exact .hasCreated (hend ▸ hcaller)
    · next hmore =>
      split at hstep
      · obtain rfl := Option.some.inj hstep
        exact .creates hcaller (lt_of_le_of_ne hcreated hmore)
      · obtain rfl := Option.some.inj hstep
        by_cases hzero : index = 0
        · rw [if_pos hzero]
          exact .givesUp (Or.inr (hzero ▸ hcaller))
        · rw [if_neg hzero]
          exact .terminates hcaller (lt_of_le_of_ne hcreated hmore)
  | joining index =>
    rw [hcaller] at hjoined
    simp only [RunThreads.callerStep, hcaller] at hstep
    split at hstep
    · next hend =>
      obtain rfl := Option.some.inj hstep
      exact .hasJoined (hend ▸ hcaller)
    · next hmore =>
      split at hstep
      · next result hended =>
        obtain rfl := Option.some.inj hstep
        exact .joins hcaller (lt_of_le_of_ne hjoined hmore) hended
      · cases hstep
  | rethrowing index =>
    rw [hcaller] at hpassed
    simp only [RunThreads.callerStep, hcaller] at hstep
    split at hstep
    · next hend =>
      obtain rfl := Option.some.inj hstep
      exact .returns (hend ▸ hcaller)
    · next hmore =>
      have hlt := lt_of_le_of_ne hpassed hmore
      split at hstep
      · next e he =>
        obtain rfl := Option.some.inj hstep
        exact .rethrows hcaller hlt he
      · next hnone =>
        obtain rfl := Option.some.inj hstep
        exact .passes hcaller hlt hnone
  | returned | threw e | gaveUp | terminated | crashed =>
    simp only [RunThreads.callerStep, hcaller] at hstep
    cases hstep

/-- **A step of the caller** keeps what it knows. -/
theorem Ok.callerStep (h : s.Ok n shared₀) {granted : Bool}
    (hstep : s.callerStep f n granted = some s') : s'.Ok n shared₀ := by
  have habsent := h.absent
  have hjoined := h.joined
  have hpassed := h.passed
  cases h.callerMoves hstep with
  | reserves hcaller =>
    rw [hcaller] at habsent
    exact h.goesTo (Nat.zero_le n) (fun _ => habsent rfl) rfl rfl fun _ => nofun
  | givesUp hcaller =>
    rcases hcaller with hcaller | hcaller <;> rw [hcaller] at habsent <;>
      exact h.goesTo (Nat.zero_le n) (fun _ => habsent rfl) rfl rfl fun _ => nofun
  | creates hcaller hlt => exact h.create hcaller hlt
  | terminates hcaller hlt =>
    exact h.goesTo le_rfl (fun hgone => by cases hgone) rfl rfl fun _ => nofun
  | hasCreated hcaller =>
    rw [hcaller] at habsent
    exact h.goesTo le_rfl (fun _ => habsent rfl) rfl rfl fun _ => nofun
  | joins hcaller hlt hended => exact h.join hcaller hlt hended
  | hasJoined hcaller =>
    rw [hcaller] at habsent hjoined
    exact ⟨⟨le_rfl, le_rfl, Nat.zero_le n⟩, fun _ => habsent rfl, hjoined,
      fun t ht => absurd ht (Nat.not_lt_zero t), h.exceptions, fun _ => nofun, h.untouched⟩
  | passes hcaller hlt hnone => exact h.pass hcaller hlt hnone
  | rethrows hcaller hlt he => exact h.rethrow hcaller hlt he
  | returns hcaller =>
    rw [hcaller] at habsent hjoined hpassed
    exact ⟨⟨le_rfl, le_rfl, le_rfl⟩, fun _ => habsent rfl, hjoined, hpassed, h.exceptions,
      fun _ => nofun, h.untouched⟩

/-- And it is one of those that the caller has left. -/
theorem Ok.left_callerStep (h : s.Ok n shared₀) {granted : Bool}
    (hstep : s.callerStep f n granted = some s') : s'.caller.left n + 1 ≤ s.caller.left n := by
  cases h.callerMoves hstep with
  | reserves hcaller =>
    rw [hcaller]
    exact le_rfl
  | givesUp hcaller =>
    rcases hcaller with hcaller | hcaller <;> rw [hcaller] <;>
      exact Nat.succ_le_succ (Nat.zero_le _)
  | creates hcaller hlt | terminates hcaller hlt | hasCreated hcaller | joins hcaller hlt
  | hasJoined hcaller | passes hcaller hlt | rethrows hcaller hlt | returns hcaller =>
    rw [hcaller]
    simp only [Caller.left]
    omega

end Caller

/-- A thread that moves runs, and the process is there. -/
theorem next_thread_eq_some {answer : W} (hnext : next f n s (.thread t answer) = some s') :
    ∃ place progress shared, s.caller.gone = false ∧ s.threads t = .running place ∧
      f.step t place answer s.shared = some (progress, shared) ∧
        s' = s.after t (progress, shared) := by
  simp only [next] at hnext
  split at hnext
  · cases hnext
  · next hgone =>
    split at hnext
    · next place hrunning =>
      obtain ⟨⟨progress, shared⟩, hstep, rfl⟩ := Option.map_eq_some_iff.mp hnext
      exact ⟨place, progress, shared, Bool.not_eq_true _ ▸ hgone, hrunning, hstep, rfl⟩
    · cases hnext

theorem Ok.next {l : Label W} (h : s.Ok n shared₀) (hnext : next f n s l = some s') :
    s'.Ok n shared₀ := by
  cases l with
  | caller granted => exact h.callerStep hnext
  | thread t answer =>
    obtain ⟨place, progress, shared, -, hrunning, -, rfl⟩ := next_thread_eq_some hnext
    exact h.threadStep hrunning progress shared

/-- A thread leaves the caller where it is, or has ended the process. -/
theorem after_caller (s : RunThreads S F E) (t : ℕ) (progress : Progress F E) (shared : S) :
    (s.after t (progress, shared)).caller = s.caller ∨
      (s.after t (progress, shared)).caller = .crashed := by
  cases progress with
  | goesOn place => exact Or.inl rfl
  | ends result => cases result <;> exact Or.inl rfl
  | crashes => exact Or.inr rfl

theorem Ok.run {ls : List (Label W)}
    (hrun : run (RunThreads.next f n) (start shared₀) ls = some s) : s.Ok n shared₀ :=
  run_invariant (fun _ _ _ h (_ : True) hnext => Ok.next h hnext) (start_ok n shared₀)
    (fun _ _ => trivial) hrun

/-- When `run_threads` is over and the process is not, no thread runs. -/
theorem Ok.not_running (h : s.Ok n shared₀) (hover : s.caller.Over)
    (hgone : s.caller.gone = false) : s.threads t ≠ .running place := by
  intro hrunning
  -- all threads that were created have been joined
  have hjoined : s.caller.created n = s.caller.joined n := by
    cases hcaller : s.caller <;> rw [hcaller] at hover hgone <;>
      first | rfl | exact absurd hover id | cases hgone
  obtain ⟨result, hended⟩ := h.joined t (hjoined ▸ h.lt_of_running hgone hrunning)
  cases hended.symm.trans hrunning

theorem Ok.over (h : s.Ok n shared₀) (hover : s.caller.Over) (l : Label W) :
    RunThreads.next f n s l = none := by
  cases l with
  | caller granted =>
    cases hcaller : s.caller <;> rw [hcaller] at hover <;>
      first | exact absurd hover id | simp only [RunThreads.next, RunThreads.callerStep, hcaller]
  | thread t answer =>
    cases hgone : s.caller.gone with
    | true => simp only [RunThreads.next, hgone, if_true]
    | false =>
      rw [RunThreads.next, hgone, if_neg Bool.false_ne_true]
      split
      · next place hrunning => exact absurd hrunning (h.not_running hover hgone)
      · rfl

/-- Until it is over, the caller moves or waits for a thread that runs. -/
theorem Ok.moves_or_waits (h : s.Ok n shared₀) (hover : ¬ s.caller.Over) :
    (∀ granted, (s.callerStep f n granted).isSome) ∨
      ∃ t < n, ∃ place, s.caller = .joining t ∧ s.threads t = .running place := by
  have habsent := h.absent
  have hjoined := h.le.2.1
  cases hcaller : s.caller with
  | reserving =>
    left
    intro granted
    simp only [RunThreads.callerStep, hcaller, Option.isSome_some]
  | creating index =>
    left
    intro granted
    simp only [RunThreads.callerStep, hcaller]
    split
    · rfl
    · cases granted <;> rfl
  | joining index =>
    rw [hcaller] at habsent hjoined
    change index ≤ n at hjoined
    rcases Nat.eq_or_lt_of_le hjoined with heq | hlt
    · left
      intro granted
      simp only [RunThreads.callerStep, hcaller, if_pos heq, Option.isSome_some]
    · cases hthread : s.threads index with
      | absent => exact absurd ((habsent rfl index).mp hthread) (Nat.not_le.mpr hlt)
      | running place => exact Or.inr ⟨index, hlt, place, rfl, hthread⟩
      | ended result =>
        left
        intro granted
        simp only [RunThreads.callerStep, hcaller, if_neg hlt.ne, hthread, Option.isSome_some]
  | rethrowing index =>
    left
    intro granted
    simp only [RunThreads.callerStep, hcaller]
    split
    · rfl
    · split <;> rfl
  | returned | threw e | gaveUp | terminated | crashed =>
    rw [hcaller] at hover
    exact absurd trivial hover

/-- The steps of the caller. -/
def Label.isCaller : Label W → Bool
  | .caller _ => true
  | .thread _ _ => false

/-- A step of the caller is one of those it has left; the threads add none. -/
theorem callerSteps_le (s : RunThreads S F E) (l : Label W) (s' : RunThreads S F E)
    (h : s.Ok n shared₀) (hnext : RunThreads.next f n s l = some s') :
    s'.caller.left n + (if l.isCaller then 1 else 0) ≤ s.caller.left n + 0 := by
  cases l with
  | caller granted => exact h.left_callerStep hnext
  | thread t answer =>
    obtain ⟨place, progress, shared, -, -, -, rfl⟩ := next_thread_eq_some hnext
    rcases after_caller s t progress shared with hcaller | hcaller
    · rw [hcaller]
      exact le_rfl
    · rw [hcaller]
      exact Nat.zero_le _

/-- **`run_threads` joins its threads.** Whatever the function is and in which order the threads
move: when `run_threads` has returned, every function has returned; when it has thrown, every
function is over and the exception is that of the first thread that has thrown one; and when it
could not begin, no thread has run. No thread moves after that. Until then the caller can move or
waits for a thread that runs, and it takes at most `3 * n + 4` steps for `n` threads. -/
theorem run_threads_joins (f : ThreadFunction S F W E) {n : ℕ} {shared : S} {ls : List (Label W)}
    {s : RunThreads S F E} (hrun : run (RunThreads.next f n) (start shared) ls = some s) :
    (s.caller = .returned → ∀ t < n, s.threads t = .ended (.ok ())) ∧
    (∀ e, s.caller = .threw e → (∀ t < n, ∃ result, s.threads t = .ended result) ∧
      ∃ t < n, s.threads t = .ended (.error e) ∧ ∀ u < t, s.threads u = .ended (.ok ())) ∧
    (s.caller = .gaveUp → (∀ t, s.threads t = .absent) ∧ s.shared = shared) ∧
    (s.caller.Over → ∀ l, RunThreads.next f n s l = none) ∧
    (¬ s.caller.Over → (∀ granted, (s.callerStep f n granted).isSome) ∨
      ∃ t < n, ∃ place, s.caller = .joining t ∧ s.threads t = .running place) ∧
    ls.countP Label.isCaller ≤ 3 * n + 4 := by
  have h : s.Ok n shared := Ok.run hrun
  refine ⟨fun hcaller => ?_, fun e hcaller => ⟨?_, h.threw e hcaller⟩, fun hcaller => ?_, h.over,
    h.moves_or_waits, ?_⟩
  · have hpassed := h.passed
    rwa [hcaller] at hpassed
  · have hjoined := h.joined
    rwa [hcaller] at hjoined
  · have habsent := h.absent
    rw [hcaller] at habsent
    have hnone : ∀ t, s.threads t = .absent := fun t => (habsent rfl t).mpr (Nat.zero_le t)
    exact ⟨hnone, h.untouched hnone⟩
  · have hcost := run_cost_le (fun _ _ _ h hnext => Ok.next h hnext) callerSteps_le
      (start_ok n shared) hrun
    rw [cost_eq_countP, cost_eq_zero fun _ _ => rfl] at hcost
    change s.caller.left n + _ ≤ 3 * n + 4 + 0 at hcost
    omega

/-- A function of which the first thread returns and the others throw their index. -/
def firstReturns : ThreadFunction ℕ Unit Unit ℕ where
  start _ := ()
  step index _ _ ended :=
    some (.ends (if index = 0 then .ok () else .error index), ended + 1)

/-- Three threads, of which the last one is over first. -/
def lastIsFirst : List (Label Unit) :=
  [.caller true, .caller true, .caller true, .caller true, .thread 2 (), .caller true, .thread 0 (),
    .caller true, .thread 1 (), .caller true, .caller true, .caller true, .caller true,
    .caller true]

/-- The caller throws what the second thread has thrown. -/
theorem run_threads_joins_lastIsFirst :
    ∃ s, run (RunThreads.next firstReturns 3) (start 0) lastIsFirst = some s ∧
      s.caller = .threw 1 ∧ ∃ t < 3, s.threads t = .ended (.error 1) ∧
        ∀ u < t, s.threads u = .ended (.ok ()) := by
  have hcaller : (run (RunThreads.next firstReturns 3) (start 0) lastIsFirst).map
      RunThreads.caller = some (.threw 1) := rfl
  obtain ⟨s, hrun, hthrew⟩ := Option.map_eq_some_iff.mp hcaller
  obtain ⟨-, hlowest, -⟩ := run_threads_joins firstReturns hrun
  exact ⟨s, hrun, hthrew, (hlowest 1 hthrew).2⟩

end RunThreads

/-! ## Invariants of the threads -/

section Steps

variable {S F W E : Type*}

/-- A step of thread `t` is defined and does not end the process; it keeps `I` and leaves the thread
fewer steps. -/
def StepsTo (I : S → (ℕ → Thread F E) → Prop) (left : F → ℕ) (threads : ℕ → Thread F E) (t : ℕ)
    (place : F) (step : Option (Progress F E × S)) : Prop :=
  ∃ progress shared thread, step = some (progress, shared) ∧ progress.thread = some thread ∧
    I shared (Function.update threads t thread) ∧
    ∀ place', progress = .goesOn place' → left place' < left place

/-- The function keeps an invariant of what is shared and where the threads are: when one of the
threads is created, and at each step that is answered as `ok` says. -/
structure ThreadFunction.Keeps (f : ThreadFunction S F W E) (n : ℕ) (ok : S → W → Prop)
    (I : S → (ℕ → Thread F E) → Prop) (left : F → ℕ) : Prop where
  create : ∀ {shared threads t}, t < n → I shared threads → threads t = .absent →
    I shared (Function.update threads t (.running (f.start t)))
  step : ∀ {shared threads t place answer}, I shared threads → ok shared answer →
    threads t = .running place → StepsTo I left threads t place (f.step t place answer shared)

variable {f : ThreadFunction S F W E} {n : ℕ} {ok : S → W → Prop}
  {I : S → (ℕ → Thread F E) → Prop} {left : F → ℕ} {threads : ℕ → Thread F E} {t : ℕ}
  {place : F} {shared : S} {step : Option (Progress F E × S)}

theorem StepsTo.goesOn {place' : F} (hstep : step = some (.goesOn place', shared))
    (hI : I shared (Function.update threads t (.running place')))
    (hleft : left place' < left place) : StepsTo I left threads t place step :=
  ⟨_, _, _, hstep, rfl, hI, fun _ h => Progress.goesOn.inj h ▸ hleft⟩

theorem StepsTo.ends {result : Except E Unit} (hstep : step = some (.ends result, shared))
    (hI : I shared (Function.update threads t (.ended result))) :
    StepsTo I left threads t place step :=
  ⟨_, _, _, hstep, rfl, hI, fun _ h => by cases h⟩

theorem ThreadFunction.Keeps.of_step {answer : W} {progress : Progress F E} {shared' : S}
    (hf : f.Keeps n ok I left) (hI : I shared threads) (hok : ok shared answer)
    (ht : threads t = .running place)
    (hstep : f.step t place answer shared = some (progress, shared')) :
    ∃ thread, progress.thread = some thread ∧ I shared' (Function.update threads t thread) ∧
      ∀ place', progress = .goesOn place' → left place' < left place := by
  obtain ⟨progress', shared'', thread, hstep', h⟩ := hf.step hI hok ht
  obtain ⟨rfl, rfl⟩ := Prod.mk.inj (Option.some.inj (hstep'.symm.trans hstep))
  exact ⟨thread, h⟩

end Steps

namespace RunThreads

variable {S F W E : Type*} {f : ThreadFunction S F W E} {n : ℕ} {ok : S → W → Prop}
  {I : S → (ℕ → Thread F E) → Prop} {left : F → ℕ} {shared : S} {s s' : RunThreads S F E} {t : ℕ}
  {ls : List (Label W)}

/-- The system answers a thread as `ok` says. -/
def Answered (ok : S → W → Prop) (s : RunThreads S F E) : Label W → Prop
  | .caller _ => True
  | .thread _ answer => ok s.shared answer

instance [∀ s answer, Decidable (ok s answer)] (s : RunThreads S F E) :
    ∀ l, Decidable (Answered ok s l)
  | .caller _ => isTrue trivial
  | .thread _ answer => inferInstanceAs (Decidable (ok s.shared answer))

/-- What holds of the system while a function keeps `I`. -/
def Kept (n : ℕ) (shared : S) (I : S → (ℕ → Thread F E) → Prop) (s : RunThreads S F E) : Prop :=
  s.Ok n shared ∧ I s.shared s.threads ∧ s.caller ≠ .crashed

/-- A step of the caller leaves the threads as they are, or lets one begin. -/
theorem Ok.callerStep_threads {shared₀ : S} (h : s.Ok n shared₀) {granted : Bool}
    (hstep : s.callerStep f n granted = some s') :
    (s'.threads = s.threads ∨ ∃ t < n, s.threads t = .absent ∧
      s'.threads = Function.update s.threads t (.running (f.start t))) ∧
      s'.shared = s.shared ∧ s'.caller ≠ .crashed := by
  cases h.callerMoves hstep with
  | @creates index hcaller hlt =>
    have habsent := h.absent
    rw [hcaller] at habsent
    exact ⟨Or.inr ⟨index, hlt, (habsent rfl index).mpr le_rfl, rfl⟩, rfl, nofun⟩
  | _ => exact ⟨Or.inl rfl, rfl, nofun⟩

theorem Kept.next (hf : f.Keeps n ok I left) {l : Label W} (h : s.Kept n shared I)
    (hok : Answered ok s l) (hnext : RunThreads.next f n s l = some s') : s'.Kept n shared I := by
  obtain ⟨hs, hI, hcrashed⟩ := h
  refine ⟨hs.next hnext, ?_⟩
  cases l with
  | caller granted =>
    obtain ⟨hthreads, hshared, hcrashed'⟩ := hs.callerStep_threads hnext
    rw [hshared]
    rcases hthreads with hsame | ⟨t, ht, habsent, hcreated⟩
    · rw [hsame]
      exact ⟨hI, hcrashed'⟩
    · rw [hcreated]
      exact ⟨hf.create ht hI habsent, hcrashed'⟩
  | thread t answer =>
    obtain ⟨place, progress, shared', -, hrunning, hstep, rfl⟩ := next_thread_eq_some hnext
    obtain ⟨thread, hthread, hI', -⟩ := hf.of_step hI hok hrunning hstep
    rw [after_eq hthread (hs.exceptions_of_running hrunning)]
    exact ⟨hI', hcrashed⟩

/-- **What a function keeps holds in every run** of its threads, and none of them ends the
process. -/
theorem Kept.run (hf : f.Keeps n ok I left) (hI : I shared fun _ => .absent)
    (hok : Along (RunThreads.next f n) (Answered ok) (start shared) ls)
    (hrun : run (RunThreads.next f n) (start shared) ls = some s) : s.Kept n shared I :=
  hok.invariant _ (fun _ _ _ h hok hnext => h.next hf hok hnext)
    ⟨start_ok n shared, hI, nofun⟩ hrun

/-- Until `run_threads` is over, the caller can move or the thread that it waits for can. -/
theorem Kept.exists_next (hf : f.Keeps n ok I left) (h : s.Kept n shared I)
    (hover : ¬ s.caller.Over) (answer : W) (hok : ok s.shared answer) :
    ∃ l, (l = .caller true ∨ ∃ t, l = .thread t answer) ∧ (RunThreads.next f n s l).isSome := by
  obtain ⟨hs, hI, -⟩ := h
  rcases hs.moves_or_waits hover with hmoves | ⟨t, -, place, hcaller, hrunning⟩
  · exact ⟨.caller true, Or.inl rfl, hmoves true⟩
  · obtain ⟨progress, shared', -, hstep, -⟩ := hf.step hI hok hrunning
    refine ⟨.thread t answer, Or.inr ⟨t, rfl⟩, ?_⟩
    simp only [RunThreads.next, hcaller, Caller.gone, hrunning, hstep, Bool.false_eq_true,
      if_false, Option.map_some, Option.isSome_some]

/-! ## The length of a run -/

/-- The steps that a thread has left, if it has at most `most` of them when it begins. -/
def stepsLeft (left : F → ℕ) (most : ℕ) : Thread F E → ℕ
  | .absent => most + 1
  | .running place => left place + 1
  | .ended _ => 0

/-- The steps that are left of `run_threads`. -/
def potential (n : ℕ) (left : F → ℕ) (most : ℕ) (s : RunThreads S F E) : ℕ :=
  s.caller.left n + ∑ t ∈ Finset.range n, stepsLeft left most (s.threads t)

/-- A thread that begins has the steps of its function left. -/
theorem stepsLeft_create {most : ℕ} (hleft : left (f.start t) ≤ most)
    (habsent : s.threads t = .absent) (u : ℕ) :
    stepsLeft left most (Function.update s.threads t (.running (f.start t)) u) ≤
      stepsLeft left most (s.threads u) := by
  rcases eq_or_ne u t with rfl | hne
  · rw [Function.update_self, habsent]
    exact Nat.succ_le_succ hleft
  · rw [Function.update_of_ne hne]

/-- **A run of `run_threads` is as long as the functions of its threads.** -/
theorem run_length_le (hf : f.Keeps n ok I left) (hI : I shared fun _ => .absent) (most : ℕ)
    (hstart : ∀ t < n, left (f.start t) ≤ most)
    (hok : Along (RunThreads.next f n) (Answered ok) (start shared) ls)
    (hrun : run (RunThreads.next f n) (start shared) ls = some s) :
    ls.length ≤ 3 * n + 4 + n * (most + 1) := by
  have hstep : ∀ (s : RunThreads S F E) (l : Label W) (s' : RunThreads S F E),
      s.Kept n shared I → Answered ok s l → RunThreads.next f n s l = some s' →
      s'.Kept n shared I ∧
        s'.potential n left most + (fun _ => 1) l ≤ s.potential n left most + (fun _ => 0) l := by
    intro s l s' h hok hnext
    refine ⟨h.next hf hok hnext, ?_⟩
    obtain ⟨hs, hI, -⟩ := h
    cases l with
    | caller granted =>
      have hfewer := hs.left_callerStep hnext
      have hthreads : ∑ t ∈ Finset.range n, stepsLeft left most (s'.threads t) ≤
          ∑ t ∈ Finset.range n, stepsLeft left most (s.threads t) := by
        refine Finset.sum_le_sum fun u _ => ?_
        rcases (hs.callerStep_threads hnext).1 with hsame | ⟨t, ht, habsent, hcreated⟩
        · rw [hsame]
        · rw [hcreated]
          exact stepsLeft_create (hstart t ht) habsent u
      change s'.caller.left n + _ + 1 ≤ s.caller.left n + _ + 0
      omega
    | thread t answer =>
      obtain ⟨place, progress, shared', hgone, hrunning, hprogress, rfl⟩ :=
        next_thread_eq_some hnext
      obtain ⟨thread, hthread, -, hleft⟩ := hf.of_step hI hok hrunning hprogress
      have ht : t < n := (hs.lt_of_running hgone hrunning).trans_le hs.le.1
      have hfewer : stepsLeft left most thread + 1 ≤ stepsLeft left most (s.threads t) := by
        rw [hrunning]
        cases progress with
        | goesOn place' =>
          obtain rfl := Option.some.inj hthread
          exact Nat.succ_le_succ (hleft place' rfl)
        | ends result =>
          obtain rfl := Option.some.inj hthread
          exact Nat.succ_le_succ (Nat.zero_le _)
        | crashes => cases hthread
      have hsum := sum_range_step (f := fun u => stepsLeft left most (s.threads u))
        (g := fun u => stepsLeft left most (Function.update s.threads t thread u)) (a := 1)
        (b := 0) ht (fun u _ hne => by rw [Function.update_of_ne hne])
        (by rwa [Function.update_self])
      rw [after_eq hthread (hs.exceptions_of_running hrunning)]
      exact Nat.add_le_add_left hsum (s.caller.left n)
  have hcost := Along.cost_le hstep
    (⟨start_ok n shared, hI, nofun⟩ : Kept n shared I (start shared)) hok hrun
  have hsum :
      ∑ t ∈ Finset.range n, stepsLeft left most (.absent : Thread F E) = n * (most + 1) := by
    rw [Finset.sum_const, Finset.card_range, smul_eq_mul]
    rfl
  rw [cost_eq_length fun _ _ => rfl, cost_eq_zero fun _ _ => rfl] at hcost
  change _ + _ ≤ 3 * n + 4 + ∑ t ∈ Finset.range n, stepsLeft left most (.absent : Thread F E) + 0
    at hcost
  omega

end RunThreads

end Doost.Benchmarks
