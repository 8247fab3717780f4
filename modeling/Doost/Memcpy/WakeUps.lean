import Doost.Memcpy.Invariant

/-!
# No lost wake-up

Who sleeps in a `wait`, and who will wake it. A worker asleep on `start_generation` waits for a
generation that has not been announced, or the announcement has not been notified yet
(`StartQueue`). The caller of `copy` is asleep on one `completed_generation` at most, whose value
has not changed, or the worker that has changed it has not notified it yet (`CompletedQueue`).

From this and the invariant of the pool, some thread can always take a step while the owner is in
`copy` or in `stop_workers` (`no_stuck_state`). The runs may contain spurious wake-ups, which are
not needed for it.
-/

namespace Doost.Memcpy

open Transition

/-! ## Sleepers -/

/-- The worker whose generation the call waits for, and the value it has read. -/
def Copy.waitsFor (c : Copy) : Option (ℕ × Generation) :=
  match c.pc with
  | .waitCompleted _ index completed => some (index, completed)
  | _ => none

/-- The call is about to notify `start_generation`. -/
def Copy.NotifiesStart (c : Copy) : Prop :=
  match c.pc with
  | .notifyStart _ => True
  | _ => False

/-- A thread asleep on `start_generation` is a worker in its `wait`. Unless a notification is about
to come, the value that it waits to change is the current one, and the pool is not stopping. -/
def StartQueue (notifies : Prop) (sh : Shared) (ws : ℕ → Worker) : Prop :=
  ∀ t ∈ sh.queues.start, ∃ i o, t = .worker i ∧ ws i = .waitStart o ∧
    (¬ notifies → sh.startGeneration = o ∧ sh.stopping = false)

/-- A thread asleep on a `completed_generation` is the caller `me` in its `wait`. The value that it
waits to change is the current one, or the worker is about to notify it. -/
def CompletedQueue (me : Thread) (waits : Option (ℕ × Generation)) (sh : Shared)
    (ws : ℕ → Worker) : Prop :=
  ∀ j, sh.queues.completed j = [] ∨ (sh.queues.completed j = [me] ∧
    ∃ v, waits = some (j, v) ∧
      ((sh.workerStates j).completedGeneration = v ∨ ∃ g, ws j = .notifyCaller g))

variable {n m i : ℕ} {call : Call} {me : Thread} {sh sh' : Shared} {ws ws' : ℕ → Worker}
  {w w' : Worker} {c c' : Copy} {notifies : Prop} {waits : Option (ℕ × Generation)}

/-! ## Steps of the workers -/

/-- What a step of worker `i` does to the atomics that threads sleep on. -/
structure Worker.Effect (i : ℕ) (sh : Shared) (w : Worker) (sh' : Shared) (w' : Worker) :
    Prop where
  startGeneration : sh'.startGeneration = sh.startGeneration
  stopping : sh'.stopping = sh.stopping
  awake : .worker i ∈ sh.queues.start → ∀ o, w ≠ .waitStart o
  start : sh'.queues.start = sh.queues.start ∨
    (sh'.queues.start = sh.queues.start ++ [.worker i] ∧
      w = .waitStart sh.startGeneration ∧ w' = .waitStart sh.startGeneration)
  completed : (∃ g, w' = .notifyCaller g) ∨
    (sh'.workerStates i).completedGeneration = (sh.workerStates i).completedGeneration
  others : ∀ j, j ≠ i →
    (sh'.workerStates j).completedGeneration = (sh.workerStates j).completedGeneration ∧
      sh'.queues.completed j = sh.queues.completed j
  queue : (∀ g, w ≠ .notifyCaller g) ∧ sh'.queues.completed i = sh.queues.completed i ∨
    sh'.queues.completed i = (sh.queues.completed i).tail

/-- A step that changes nothing that threads share, by a worker that is neither in `wait` nor about
to notify. -/
theorem Worker.Effect.local (hwait : ∀ o, w ≠ .waitStart o) (hnotify : ∀ g, w ≠ .notifyCaller g) :
    w.Effect i sh sh w' where
  startGeneration := rfl
  stopping := rfl
  awake _ := hwait
  start := Or.inl rfl
  completed := Or.inr rfl
  others _ _ := ⟨rfl, rfl⟩
  queue := Or.inl ⟨hnotify, rfl⟩

theorem Worker.workerLoop_effect (hact : w.workerLoop i sh = some (sh', w')) :
    w.Effect i sh sh' w' := by
  cases w with
  | absent => cases hact
  | exited => cases hact
  | loadGeneration o =>
    simp only [Worker.workerLoop] at hact
    split at hact <;> cases hact <;> exact .local (by simp) (by simp)
  | checkStopping o =>
    simp only [Worker.workerLoop] at hact
    split at hact <;> cases hact <;> exact .local (by simp) (by simp)
  | checkStoppingAgain g =>
    simp only [Worker.workerLoop] at hact
    split at hact <;> cases hact <;> exact .local (by simp) (by simp)
  | waitStart o =>
    simp only [Worker.workerLoop] at hact
    split at hact
    · cases hact
    · rename_i hqueue
      split at hact
      · rename_i hsame
        cases hact
        exact ⟨rfl, rfl, fun h => absurd h hqueue, Or.inr ⟨rfl, by rw [hsame], by rw [hsame]⟩,
          Or.inr rfl, fun _ _ => ⟨rfl, rfl⟩, Or.inl ⟨by simp, rfl⟩⟩
      · cases hact
        exact ⟨rfl, rfl, fun h => absurd h hqueue, Or.inl rfl, Or.inr rfl,
          fun _ _ => ⟨rfl, rfl⟩, Or.inl ⟨by simp, rfl⟩⟩
  | copyBytes g d a n k =>
    simp only [Worker.workerLoop] at hact
    split at hact
    · cases hact
      exact ⟨rfl, rfl, fun _ => by simp, Or.inl rfl, Or.inr rfl, fun _ _ => ⟨rfl, rfl⟩,
        Or.inl ⟨by simp, rfl⟩⟩
    · cases hact
      exact .local (by simp) (by simp)
  | storeCompleted g =>
    cases hact
    refine ⟨rfl, rfl, fun _ => by simp, Or.inl rfl, Or.inl ⟨g, rfl⟩, fun j hj => ⟨?_, rfl⟩,
      Or.inl ⟨by simp, rfl⟩⟩
    rw [Shared.setState_of_ne hj]
  | notifyCaller g =>
    cases hact
    exact ⟨rfl, rfl, fun _ => by simp, Or.inl rfl, Or.inr rfl,
      fun j hj => ⟨rfl, Function.update_of_ne hj ..⟩, Or.inr (Function.update_self ..)⟩
  | _ =>
    cases hact
    exact .local (by simp) (by simp)

/-- A worker goes to sleep only if the generation that it has observed is the current one. -/
theorem StartQueue.worker (h : StartQueue notifies sh ws)
    (hact : (ws i).workerLoop i sh = some (sh', w))
    (hsleep : ¬ notifies → ws i = .waitStart sh.startGeneration → sh.stopping = false) :
    StartQueue notifies sh' (Function.update ws i w) := by
  have heffect := Worker.workerLoop_effect hact
  intro t ht
  have hcases : t ∈ sh.queues.start ∨ (t = .worker i ∧ ws i = .waitStart sh.startGeneration ∧
      w = .waitStart sh.startGeneration) := by
    rcases heffect.start with hstart | ⟨hstart, hw, hw'⟩
    · rw [hstart] at ht
      exact Or.inl ht
    · rw [hstart, List.mem_append, List.mem_singleton] at ht
      exact ht.imp_right fun h => ⟨h, hw, hw'⟩
  rw [heffect.startGeneration, heffect.stopping]
  rcases hcases with hold | ⟨rfl, hw, hw'⟩
  · obtain ⟨j, o, rfl, hj, hvalue⟩ := h t hold
    -- a sleeping worker takes no step
    have hji : j ≠ i := by
      rintro rfl
      exact heffect.awake hold o hj
    exact ⟨j, o, rfl, by rwa [Function.update_of_ne hji], hvalue⟩
  · exact ⟨i, _, rfl, by rw [Function.update_self, hw'], fun hn => ⟨rfl, hsleep hn hw⟩⟩

theorem CompletedQueue.worker (h : CompletedQueue me waits sh ws)
    (hact : (ws i).workerLoop i sh = some (sh', w)) :
    CompletedQueue me waits sh' (Function.update ws i w) := by
  have heffect := Worker.workerLoop_effect hact
  intro j
  rcases eq_or_ne j i with rfl | hne
  · rcases h j with hnil | ⟨hqueue, v, hwaits, hvalue⟩
    · left
      rcases heffect.queue with ⟨-, hq⟩ | hq
      · rw [hq, hnil]
      · rw [hq, hnil, List.tail_nil]
    · rcases heffect.queue with ⟨hw, hq⟩ | hq
      · right
        refine ⟨hq.trans hqueue, v, hwaits, ?_⟩
        rw [Function.update_self]
        rcases heffect.completed with hnotify | hsame
        · exact Or.inr hnotify
        · left
          rw [hsame]
          rcases hvalue with hvalue | ⟨g, hg⟩
          · exact hvalue
          · exact absurd hg (hw g)
      · left
        rw [hq, hqueue, List.tail_cons]
  · obtain ⟨hstate, hq⟩ := heffect.others j hne
    rw [hq, hstate, Function.update_of_ne hne]
    exact h j

/-! ## Steps of the caller -/

/-- What a step of a call does to the atomics that threads sleep on. -/
structure Copy.Effect (me : Thread) (sh : Shared) (c : Copy) (sh' : Shared) (c' : Copy) :
    Prop where
  stopping : sh'.stopping = sh.stopping
  start : sh'.queues.start = [] ∨
    (¬ c.NotifiesStart ∧ sh'.queues.start = sh.queues.start)
  startGeneration : c'.NotifiesStart ∨ sh'.startGeneration = sh.startGeneration
  states : ∀ j,
    (sh'.workerStates j).completedGeneration = (sh.workerStates j).completedGeneration
  awake : ∀ j v, c.waitsFor = some (j, v) → me ∉ sh.queues.completed j
  queue : sh'.queues.completed = sh.queues.completed ∨
    ∃ j, sh'.queues.completed =
        Function.update sh.queues.completed j (sh.queues.completed j ++ [me]) ∧
      c'.waitsFor = some (j, (sh.workerStates j).completedGeneration)

theorem completedGeneration_setState {f : WorkerState → WorkerState}
    (hf : ∀ st, (f st).completedGeneration = st.completedGeneration) (j : ℕ) :
    ((sh.setState i f).workerStates j).completedGeneration =
      (sh.workerStates j).completedGeneration := by
  rcases eq_or_ne j i with rfl | hne
  · rw [Shared.setState_self, hf]
  · rw [Shared.setState_of_ne hne]

/-- A step that leaves the atomics alone. -/
theorem Copy.Effect.local (hqueues : sh'.queues = sh.queues)
    (hgeneration : sh'.startGeneration = sh.startGeneration)
    (hstopping : sh'.stopping = sh.stopping)
    (hstates : ∀ j,
      (sh'.workerStates j).completedGeneration = (sh.workerStates j).completedGeneration)
    (hnotify : ¬ c.NotifiesStart) (hwait : c.waitsFor = none) : c.Effect me sh sh' c' where
  stopping := hstopping
  start := Or.inr ⟨hnotify, by rw [hqueues]⟩
  startGeneration := Or.inr hgeneration
  states := hstates
  awake j v h := by
    rw [hwait] at h
    cases h
  queue := Or.inl (by rw [hqueues])

theorem Copy.copy_effect (hact : c.copy me sh = some (sh', c')) : c.Effect me sh sh' c' := by
  obtain ⟨f, pc⟩ := c
  cases pc with
  | enter =>
    simp only [Copy.copy] at hact
    split at hact
    · cases hact
      exact .local rfl rfl rfl (fun _ => rfl) id rfl
    · split at hact <;> cases hact <;> exact .local rfl rfl rfl (fun _ => rfl) id rfl
  | copySelf k =>
    simp only [Copy.copy] at hact
    split at hact <;> cases hact <;> exact .local rfl rfl rfl (fun _ => rfl) id rfl
  | writeDst i =>
    cases hact
    exact .local rfl rfl rfl (completedGeneration_setState fun _ => rfl) id rfl
  | writeSrc i =>
    cases hact
    exact .local rfl rfl rfl (completedGeneration_setState fun _ => rfl) id rfl
  | writeSize i =>
    simp only [Copy.copy] at hact
    split at hact <;> cases hact <;>
      exact .local rfl rfl rfl (completedGeneration_setState fun _ => rfl) id rfl
  | loadGeneration =>
    cases hact
    exact .local rfl rfl rfl (fun _ => rfl) id rfl
  | storeGeneration g =>
    cases hact
    exact ⟨rfl, Or.inr ⟨id, rfl⟩, Or.inl trivial, fun _ => rfl, fun _ _ h => (by cases h),
      Or.inl rfl⟩
  | notifyStart g =>
    cases hact
    exact ⟨rfl, Or.inl rfl, Or.inr rfl, fun _ => rfl, fun _ _ h => (by cases h), Or.inl rfl⟩
  | loadCompleted g i =>
    simp only [Copy.copy] at hact
    split at hact
    · cases hact
      exact .local rfl rfl rfl (fun _ => rfl) id rfl
    · split at hact <;> cases hact <;> exact .local rfl rfl rfl (fun _ => rfl) id rfl
  | waitCompleted g i v =>
    simp only [Copy.copy] at hact
    split at hact
    · cases hact
    · rename_i hqueue
      have hawake : ∀ j u, Copy.waitsFor ⟨f, .waitCompleted g i v⟩ = some (j, u) →
          me ∉ sh.queues.completed j := by
        intro j u h
        obtain ⟨rfl, -⟩ := Prod.mk.inj (Option.some.inj h)
        exact hqueue
      split at hact
      · rename_i hsame
        cases hact
        refine ⟨rfl, Or.inr ⟨id, rfl⟩, Or.inr rfl, fun _ => rfl, hawake, Or.inr ⟨i, rfl, ?_⟩⟩
        rw [hsame]
        rfl
      · cases hact
        exact ⟨rfl, Or.inr ⟨id, rfl⟩, Or.inr rfl, fun _ => rfl, hawake, Or.inl rfl⟩
  | returning v => cases hact

theorem StartQueue.copy (h : StartQueue c.NotifiesStart sh ws)
    (hact : c.copy me sh = some (sh', c')) : StartQueue c'.NotifiesStart sh' ws := by
  have heffect := Copy.copy_effect hact
  intro t ht
  rcases heffect.start with hnil | ⟨hquiet, hsame⟩
  · rw [hnil] at ht
    cases ht
  · rw [hsame] at ht
    obtain ⟨i, o, rfl, hw, hvalue⟩ := h t ht
    refine ⟨i, o, rfl, hw, fun hn => ?_⟩
    rw [heffect.stopping, heffect.startGeneration.resolve_left hn]
    exact hvalue hquiet

theorem CompletedQueue.nil_of_awake (h : CompletedQueue me waits sh ws)
    (hawake : ∀ j v, waits = some (j, v) → me ∉ sh.queues.completed j) (j : ℕ) :
    sh.queues.completed j = [] := by
  rcases h j with hnil | ⟨hqueue, v, hwaits, -⟩
  · exact hnil
  · have hnot := hawake j v hwaits
    simp [hqueue] at hnot

theorem CompletedQueue.copy (h : CompletedQueue me c.waitsFor sh ws)
    (hact : c.copy me sh = some (sh', c')) : CompletedQueue me c'.waitsFor sh' ws := by
  have heffect := Copy.copy_effect hact
  have hnil := h.nil_of_awake heffect.awake
  intro j
  rw [heffect.states]
  rcases heffect.queue with hsame | ⟨i, hqueue, hwaits⟩
  · left
    rw [hsame, hnil]
  · rw [hqueue]
    rcases eq_or_ne j i with rfl | hne
    · right
      rw [Function.update_self, hnil, List.nil_append]
      exact ⟨rfl, _, hwaits, Or.inl rfl⟩
    · left
      rw [Function.update_of_ne hne, hnil]

/-- The value that the call waits to change is not the generation that it waits for. -/
def Copy.Awaits (c : Copy) : Prop :=
  match c.pc with
  | .waitCompleted generation _ completed => completed ≠ generation
  | _ => True

theorem Copy.Awaits.copy (h : c.Awaits) (hact : c.copy me sh = some (sh', c')) : c'.Awaits := by
  obtain ⟨f, pc⟩ := c
  cases pc with
  | enter =>
    simp only [Copy.copy] at hact
    split at hact
    · cases hact
      trivial
    · split at hact <;> cases hact <;> trivial
  | copySelf k =>
    simp only [Copy.copy] at hact
    split at hact <;> cases hact <;> trivial
  | writeSize i =>
    simp only [Copy.copy] at hact
    split at hact <;> cases hact <;> trivial
  | loadCompleted g i =>
    simp only [Copy.copy] at hact
    split at hact
    · cases hact
      trivial
    · split at hact
      · cases hact
        trivial
      · rename_i hne
        cases hact
        exact hne
  | waitCompleted g i v =>
    simp only [Copy.copy] at hact
    split at hact
    · cases hact
    · split at hact <;> cases hact
      · exact h
      · trivial
  | returning v => cases hact
  | _ =>
    cases hact
    trivial

/-! ## Wake-ups -/

/-- A wake-up takes threads out of the queues. -/
theorem StartQueue.wake (h : StartQueue notifies sh ws) (t : Thread) :
    StartQueue notifies (sh.wake t) ws :=
  fun u hu => h u (List.mem_of_mem_filter hu)

theorem CompletedQueue.wake (h : CompletedQueue me waits sh ws) (t : Thread) :
    CompletedQueue me waits (sh.wake t) ws := by
  intro j
  rcases h j with hnil | ⟨hqueue, hvalue⟩
  · left
    simp [Shared.wake, hnil]
  · rcases eq_or_ne me t with rfl | hne
    · left
      simp [Shared.wake, hqueue]
    · right
      refine ⟨?_, hvalue⟩
      simp [Shared.wake, hqueue, hne]

/-! ## Some thread can move -/

/-- A worker can move unless it has not been created, has left, or is asleep. -/
theorem Worker.workerLoop_isSome (habsent : w ≠ .absent) (hexited : w ≠ .exited)
    (hawake : ∀ o, w = .waitStart o → .worker i ∉ sh.queues.start) :
    (w.workerLoop i sh).isSome := by
  cases w with
  | absent => exact absurd rfl habsent
  | exited => exact absurd rfl hexited
  | waitStart o =>
    simp only [Worker.workerLoop]
    rw [if_neg (hawake o rfl)]
    split <;> rfl
  | loadGeneration o =>
    simp only [Worker.workerLoop]
    split <;> rfl
  | checkStopping o =>
    simp only [Worker.workerLoop]
    split <;> rfl
  | checkStoppingAgain g =>
    simp only [Worker.workerLoop]
    split <;> rfl
  | copyBytes g d a k l =>
    simp only [Worker.workerLoop]
    split <;> rfl
  | _ => rfl

/-- A caller can move unless it has returned or is asleep. -/
theorem Copy.copy_isSome (hreturned : c.returned = none)
    (hawake : ∀ j v, c.waitsFor = some (j, v) → me ∉ sh.queues.completed j) :
    (c.copy me sh).isSome := by
  obtain ⟨f, pc⟩ := c
  cases pc with
  | enter =>
    simp only [Copy.copy]
    split
    · rfl
    · split <;> rfl
  | copySelf k =>
    simp only [Copy.copy]
    split <;> rfl
  | writeSize i =>
    simp only [Copy.copy]
    split <;> rfl
  | loadCompleted g i =>
    simp only [Copy.copy]
    split
    · rfl
    · split <;> rfl
  | waitCompleted g i v =>
    simp only [Copy.copy]
    rw [if_neg (hawake i v rfl)]
    split <;> rfl
  | returning v => cases hreturned
  | _ => rfl

/-- A worker that has not completed the announced generation can move. -/
theorem Running.worker_isSome (h : Running n call sh ws) (hi : i < n)
    (hbehind : (sh.workerStates i).completedGeneration ≠ sh.startGeneration)
    (hqueue : StartQueue False sh ws) : ((ws i).workerLoop i sh).isSome := by
  obtain ⟨p, new, hstages, -, -⟩ := h.stages
  obtain ⟨k, hstage⟩ : ∃ k, Stage sh.startGeneration (sh.workerStates i) (ws i) k :=
    ⟨p i, hstages i hi⟩
  have hlive : ws i ≠ .absent ∧ ws i ≠ .exited := by
    constructor <;> intro hw <;> rw [hw] at hstage <;> cases hstage with
      | waiting _ hrest => exact hrest
      | finished hdone _ => exact hbehind hdone
  refine Worker.workerLoop_isSome hlive.1 hlive.2 fun o hw hmem => ?_
  -- a sleeper has observed the announced generation, and this worker has not
  obtain ⟨j, o', hj, hw', hvalue⟩ := hqueue _ hmem
  obtain rfl := Thread.worker.inj hj
  have hgeneration := (hvalue id).1
  rw [hw'] at hstage
  cases hstage with
  | waiting hold hrest =>
    have hobserved : o' = (sh.workerStates i).completedGeneration := hrest
    rw [← hobserved, ← hgeneration] at hold
    exact add_one_ne _ hold
  | finished hdone _ => exact hbehind hdone

/-- While a call has not returned, its caller or a worker can move. -/
theorem InCopy.progress (h : InCopy n call c sh ws) (hstart : StartQueue c.NotifiesStart sh ws)
    (hqueue : CompletedQueue me c.waitsFor sh ws) (hawaits : c.Awaits)
    (hreturned : c.returned = none) :
    (c.copy me sh).isSome ∨ ∃ i < n, ((ws i).workerLoop i sh).isSome := by
  by_cases hasleep : ∃ j v, c.waitsFor = some (j, v) ∧ me ∈ sh.queues.completed j
  swap
  · exact Or.inl (Copy.copy_isSome hreturned fun j v hw hmem => hasleep ⟨j, v, hw, hmem⟩)
  right
  obtain ⟨j, v, hwaits, hmem⟩ := hasleep
  rcases hqueue j with hnil | ⟨-, u, hu, hvalue⟩
  · rw [hnil] at hmem
    cases hmem
  obtain ⟨f, pc⟩ := c
  cases pc with
  | waitCompleted g i x =>
    obtain ⟨rfl, rfl⟩ := Prod.mk.inj (Option.some.inj hwaits)
    obtain ⟨-, rfl⟩ := Prod.mk.inj (Option.some.inj hu)
    obtain ⟨hwait, hi⟩ := h.atPc
    refine ⟨i, hi, ?_⟩
    rcases hvalue with hsame | ⟨g', hw⟩
    · refine hwait.toRunning.worker_isSome hi ?_ hstart
      rw [hsame, hwait.generation]
      exact hawaits
    · rw [hw]
      rfl
  | _ => cases hwaits

/-! ## Leaving -/

/-- The generation in the local `observed_generation`, until the worker observes the next one. -/
def Worker.observed : Worker → Option Generation
  | .enter => some 0
  | .loadGeneration o | .checkStopping o | .waitStart o | .notifyCaller o => some o
  | _ => none

theorem Worker.Resting.observed {o o' : Generation} (h : w.Resting o) (ho : w.observed = some o') :
    o' = o := by
  cases w with
  | enter =>
    obtain rfl : o = 0 := h
    exact (Option.some.inj ho).symm
  | loadGeneration b | checkStopping b | waitStart b | notifyCaller b =>
    obtain rfl : b = o := h
    exact (Option.some.inj ho).symm
  | _ => cases ho

/-- A worker that is leaving observes no other generation. -/
theorem Worker.Leaving.observed (h : w.Leaving) (hstop : sh.stopping = true)
    (hact : w.workerLoop i sh = some (sh', w')) {o : Generation} (ho : w'.observed = some o) :
    w.observed = some o := by
  cases w with
  | loadGeneration b =>
    simp only [Worker.workerLoop] at hact
    split at hact <;> cases hact
    · exact ho
    · cases ho
  | waitStart b =>
    simp only [Worker.workerLoop] at hact
    split at hact
    · cases hact
    · split at hact <;> cases hact <;> exact ho
  | checkStopping b =>
    simp only [Worker.workerLoop, hstop] at hact
    cases hact
    cases ho
  | checkStoppingAgain g =>
    simp only [Worker.workerLoop, hstop] at hact
    cases hact
    cases ho
  | enter | notifyCaller g =>
    cases hact
    exact ho
  | exited => cases hact
  | _ => exact absurd h id

/-! ## The invariant of the sleepers -/

/-- The owner is about to notify `start_generation`. -/
def Owner.NotifiesStart : Owner → Prop
  | .copying c => c.NotifiesStart
  | .stopping _ .bumpGeneration | .stopping _ .notifyStart => True
  | _ => False

/-- The worker whose generation the owner waits for, and the value it has read. -/
def Owner.waitsFor : Owner → Option (ℕ × Generation)
  | .copying c => c.waitsFor
  | _ => none

/-- The value that the owner waits to change is not the generation that it waits for. -/
def Owner.Awaits : Owner → Prop
  | .copying c => c.Awaits
  | _ => True

/-- Which generations the workers can have observed while the pool stops: none but the last one
that was announced, which is no longer the current one once `stop_workers` has counted up. -/
def Owner.Observed (g o : Generation) : Owner → Prop
  | .stopping _ .bumpGeneration => o = g
  | .stopping _ .notifyStart | .stopping _ (.join _) => o ≠ g
  | _ => True

/-- Who sleeps, and who will wake it. -/
structure WakeUps (s : System) : Prop where
  start : StartQueue s.owner.NotifiesStart s.shared s.workers
  completed : CompletedQueue (.caller 0) s.owner.waitsFor s.shared s.workers
  awaits : s.owner.Awaits
  observed : ∀ i o, (s.workers i).observed = some o → s.owner.Observed s.shared.startGeneration o

theorem wakeUps_start (n : ℕ) (memory : Address → Byte) : WakeUps (System.start n memory) where
  start t ht := by cases ht
  completed j := Or.inl rfl
  awaits := trivial
  observed i o ho := by cases ho

theorem CompletedQueue.nil (h : CompletedQueue me none sh ws) (j : ℕ) :
    sh.queues.completed j = [] :=
  h.nil_of_awake (fun j v hw => by cases hw) j

/-- Nobody sleeps on `start_generation` in a pool that all workers have left. -/
theorem StartQueue.left (h : StartQueue notifies sh ws) (hleft : Left sh ws) :
    sh.queues.start = [] := by
  rw [List.eq_nil_iff_forall_not_mem]
  intro t ht
  obtain ⟨i, o, -, hw, -⟩ := h t ht
  rcases hleft.left i with h | h <;> (rw [h] at hw; cases hw)

/-- Nobody sleeps on `start_generation` while the pool stops, once that has been notified. -/
theorem StartQueue.stopping (h : StartQueue False sh ws) (hstop : sh.stopping = true) :
    sh.queues.start = [] := by
  rw [List.eq_nil_iff_forall_not_mem]
  intro t ht
  obtain ⟨i, o, -, -, hvalue⟩ := h t ht
  rw [(hvalue id).2] at hstop
  cases hstop

theorem InCopy.stopping (h : InCopy n call c sh ws) : sh.stopping = false := by
  obtain ⟨f, pc⟩ := c
  have hpc := h.atPc
  cases pc with
  | enter => exact hpc.1.stopping
  | copySelf k => exact hpc.1.stopping
  | writeDst i => exact hpc.toQuiet.stopping
  | writeSrc i => exact hpc.1.toQuiet.stopping
  | writeSize i => exact hpc.1.toQuiet.stopping
  | loadGeneration => exact hpc.toQuiet.stopping
  | storeGeneration g => exact hpc.1.toQuiet.stopping
  | notifyStart g => exact hpc.toRunning.stopping
  | loadCompleted g i => exact hpc.toRunning.stopping
  | waitCompleted g i v => exact hpc.1.toRunning.stopping
  | returning v => exact hpc.1.stopping

/-! ## Every step keeps it -/

variable {s s' : System} {thrown : Bool}

/-- Before `stopping` is set, and after the last thread has been joined, it does not matter which
generations have been observed; in between every worker is leaving. -/
theorem Inv.phase (h : Inv n call s) :
    ((s.shared.stopping = false ∨ Left s.shared s.workers) ∧ ∀ g o, s.owner.Observed g o) ∨
      ((∃ m, Leaving m s.shared s.workers) ∧
        (s.owner.NotifiesStart ∨ ∀ g o, s.owner.Observed g o → o ≠ g)) := by
  obtain ⟨sh, owner, ws⟩ := s
  cases owner with
  | starting m pc =>
    left
    refine ⟨Or.inl ?_, fun _ _ => trivial⟩
    cases pc with
    | setWorkerCount => exact h.2.2.stopping
    | allocateStates => exact h.2.2.1.stopping
    | reserveThreads => exact h.2.2.stopping
    | createThread i => exact h.2.2.stopping
  | idle =>
    have hquiet : Quiet n n sh ws := h
    exact Or.inl ⟨Or.inl hquiet.stopping, fun _ _ => trivial⟩
  | copying c => exact Or.inl ⟨Or.inl (InCopy.stopping h), fun _ _ => trivial⟩
  | stopping thrown pc =>
    cases pc with
    | storeStopping =>
      obtain ⟨m, hstanding⟩ := h
      exact Or.inl ⟨Or.inl hstanding.stopping, fun _ _ => trivial⟩
    | bumpGeneration => exact Or.inr ⟨h, Or.inl trivial⟩
    | notifyStart => exact Or.inr ⟨h, Or.inl trivial⟩
    | join i =>
      obtain ⟨m, hleaving, -⟩ := h
      exact Or.inr ⟨⟨m, hleaving⟩, Or.inr fun _ _ ho => ho⟩
    | _ => exact Or.inl ⟨Or.inr h, fun _ _ => trivial⟩
  | gone thrown => exact Or.inl ⟨Or.inr h, fun _ _ => trivial⟩

namespace WakeUps

theorem worker (hw : WakeUps s) (h : Inv n call s) (hstep : s.workerStep i = some s') :
    WakeUps s' := by
  obtain ⟨sh', w, hact, rfl⟩ := h.workerStep hstep
  have hgeneration := (Worker.workerLoop_effect hact).startGeneration
  refine ⟨hw.start.worker hact fun hquiet hwait => ?_, hw.completed.worker hact, hw.awaits,
    fun j o ho => ?_⟩
  · have hsame := hw.observed i s.shared.startGeneration (by rw [hwait]; rfl)
    rcases h.phase with ⟨hstop | hleft, -⟩ | ⟨-, hnotify | hne⟩
    · exact hstop
    · rcases hleft.left i with h | h <;> (rw [h] at hwait; cases hwait)
    · exact absurd hnotify hquiet
    · exact absurd rfl (hne _ _ hsame)
  · simp only at ho ⊢
    rw [hgeneration]
    rcases h.phase with ⟨-, hall⟩ | ⟨⟨m, hleaving⟩, -⟩
    · exact hall _ _
    · rcases eq_or_ne j i with rfl | hne
      · rw [Function.update_self] at ho
        have hj : j < m := by
          by_contra hge
          rw [hleaving.absent j (by omega)] at hact
          cases hact
        exact hw.observed j o ((hleaving.leaving j hj).observed hleaving.stopping hact ho)
      · rw [Function.update_of_ne hne] at ho
        exact hw.observed j o ho

theorem startWorkers {pc : StartPc} (hw : WakeUps s) (h : Inv n call s)
    (howner : s.owner = .starting m pc) (hstep : s.startWorkers m pc = some s') : WakeUps s' := by
  obtain ⟨sh, owner, ws⟩ := s
  subst howner
  have hcompleted : ∀ j, sh.queues.completed j = [] := hw.completed.nil
  cases pc with
  | setWorkerCount | reserveThreads | allocateStates =>
    cases hstep
    exact ⟨hw.start, fun j => Or.inl (hcompleted j), trivial, fun _ _ _ => trivial⟩
  | createThread i =>
    obtain ⟨-, -, hquiet⟩ := h
    simp only [System.startWorkers] at hstep
    split at hstep
    · cases hstep
      exact ⟨hw.start, fun j => Or.inl (hcompleted j), trivial, fun _ _ _ => trivial⟩
    · cases hstep
      refine ⟨fun t ht => ?_, fun j => Or.inl (hcompleted j), trivial, fun _ _ _ => trivial⟩
      obtain ⟨j, o, rfl, hj, hvalue⟩ := hw.start t ht
      -- the new worker has not been there
      have hji : j ≠ i := by
        rintro rfl
        rw [hquiet.absent j le_rfl] at hj
        cases hj
      exact ⟨j, o, rfl, (Function.update_of_ne hji ..).trans hj, hvalue⟩

theorem stopWorkers {pc : StopPc} (hw : WakeUps s) (h : Inv n call s)
    (howner : s.owner = .stopping thrown pc) (hstep : s.stopWorkers thrown pc = some s') :
    WakeUps s' := by
  obtain ⟨sh, owner, ws⟩ := s
  subst howner
  have hcompleted : ∀ j, sh.queues.completed j = [] := hw.completed.nil
  have hstart := hw.start
  have hobserved := hw.observed
  cases pc with
  | storeStopping =>
    obtain ⟨m, hstanding⟩ := h
    cases hstep
    refine ⟨fun t ht => ?_, fun j => Or.inl (hcompleted j), trivial, fun j o ho => ?_⟩
    · obtain ⟨j, o, rfl, hj, -⟩ := hstart t ht
      exact ⟨j, o, rfl, hj, fun hn => absurd trivial hn⟩
    · have hj : j < m := by
        by_contra hge
        rw [hstanding.absent j (by omega)] at ho
        cases ho
      exact (hstanding.resting j hj).observed ho
  | bumpGeneration =>
    cases hstep
    refine ⟨fun t ht => ?_, fun j => Or.inl (hcompleted j), trivial, fun j o ho => ?_⟩
    · obtain ⟨j, o, rfl, hj, -⟩ := hstart t ht
      exact ⟨j, o, rfl, hj, fun hn => absurd trivial hn⟩
    · have hsame : o = sh.startGeneration := hobserved j o ho
      rw [hsame]
      exact (add_one_ne _).symm
  | notifyStart =>
    cases hstep
    exact ⟨fun t ht => (by cases ht), fun j => Or.inl (hcompleted j), trivial, hobserved⟩
  | join k =>
    simp only [System.stopWorkers] at hstep
    split at hstep
    · cases hstep
      exact ⟨hstart, fun j => Or.inl (hcompleted j), trivial, fun _ _ _ => trivial⟩
    · split at hstep <;> cases hstep
      exact ⟨hstart, fun j => Or.inl (hcompleted j), trivial, hobserved⟩
  | clearStopping =>
    have hnobody : sh.queues.start = [] := hstart.left h
    cases hstep
    refine ⟨fun t ht => ?_, fun j => Or.inl (hcompleted j), trivial, fun _ _ _ => trivial⟩
    rw [hnobody] at ht
    cases ht
  | _ =>
    cases hstep
    exact ⟨hstart, fun j => Or.inl (hcompleted j), trivial, fun _ _ _ => trivial⟩

theorem owner (hw : WakeUps s) (h : Inv n call s) (hstep : s.ownerStep = some s') :
    WakeUps s' := by
  obtain ⟨sh, owner, ws⟩ := s
  cases owner with
  | starting m pc => exact hw.startWorkers h rfl hstep
  | idle => cases hstep
  | copying c =>
    obtain ⟨hstart, hcompleted, hawaits, hobserved⟩ := hw
    simp only [System.ownerStep] at hstep
    split at hstep
    · rename_i v hpc
      obtain ⟨f, pc⟩ := c
      obtain rfl : pc = .returning v := hpc
      cases hstep
      exact ⟨hstart, hcompleted, trivial, fun _ _ _ => trivial⟩
    · obtain ⟨r, hr, rfl⟩ := Option.map_eq_some_iff.mp hstep
      rw [Copy.step_eq_copy (InCopy.defined h)] at hr
      exact ⟨hstart.copy hr, hcompleted.copy hr, Copy.Awaits.copy hawaits hr,
        fun _ _ _ => trivial⟩
  | stopping thrown pc => exact hw.stopWorkers h rfl hstep
  | gone thrown => cases hstep

theorem step {l : Label} (hw : WakeUps s) (h : Inv n call s) (hstep : s.next l = some s') :
    WakeUps s' := by
  cases l with
  | worker i => exact hw.worker h hstep
  | owner => exact hw.owner h hstep
  | throws =>
    obtain ⟨sh, owner, ws⟩ := s
    obtain ⟨hstart, hcompleted, -, -⟩ := hw
    simp only [System.next, System.throwStep] at hstep
    split at hstep
    · cases hstep
      exact ⟨hstart, hcompleted, trivial, fun _ _ _ => trivial⟩
    · cases hstep
      exact ⟨hstart, hcompleted, trivial, fun _ _ _ => trivial⟩
    · split at hstep <;> cases hstep
      exact ⟨hstart, hcompleted, trivial, fun _ _ _ => trivial⟩
    · cases hstep
  | copy dst src size =>
    simp only [System.next] at hstep
    split at hstep
    · obtain ⟨-, howner, rfl⟩ := h.between hstep
      obtain ⟨sh, owner, ws⟩ := s
      cases howner
      exact ⟨hw.start, hw.completed, trivial, fun _ _ _ => trivial⟩
    · cases hstep
  | destroy =>
    simp only [System.next] at hstep
    obtain ⟨-, howner, rfl⟩ := h.between hstep
    obtain ⟨sh, owner, ws⟩ := s
    cases howner
    exact ⟨hw.start, hw.completed, trivial, fun _ _ _ => trivial⟩
  | client address byte =>
    simp only [System.next] at hstep
    obtain ⟨-, howner, rfl⟩ := h.between hstep
    obtain ⟨sh, owner, ws⟩ := s
    cases howner
    exact ⟨hw.start, hw.completed, trivial, fun _ _ _ => trivial⟩
  | wake t =>
    cases hstep
    exact ⟨hw.start.wake t, hw.completed.wake t, hw.awaits, hw.observed⟩

end WakeUps

/-! ## No stuck state -/

/-- The owner is inside an operation. -/
def Owner.Busy : Owner → Prop
  | .idle | .gone _ => False
  | _ => True

/-- The owner is asleep, or joins a thread that has not exited. -/
def System.Blocked (s : System) : Prop :=
  (∃ j, .caller 0 ∈ s.shared.queues.completed j) ∨
    ∃ thrown i, s.owner = .stopping thrown (.join i) ∧ i ≠ s.shared.threads ∧
      s.workers i ≠ .exited

/-- A worker that has been created, has not left, and is not asleep. -/
def System.Awake (s : System) (i : ℕ) : Prop :=
  s.workers i ≠ .absent ∧ s.workers i ≠ .exited ∧ .worker i ∉ s.shared.queues.start

/-- An awake worker can move. -/
theorem System.Awake.isSome (h : s.Awake i) : (s.next (.worker i)).isSome := by
  obtain ⟨habsent, hexited, hawake⟩ := h
  simp only [System.next, System.workerStep, Option.isSome_map]
  exact Worker.workerLoop_isSome habsent hexited fun _ _ => hawake

/-- A worker that can move is awake, unless it sleeps in its `wait`. -/
theorem System.awake_of_isSome (h : ((s.workers i).workerLoop i s.shared).isSome)
    (hstart : StartQueue notifies s.shared s.workers) : s.Awake i := by
  refine ⟨fun hw => ?_, fun hw => ?_, fun hmem => ?_⟩
  · rw [hw] at h
    cases h
  · rw [hw] at h
    cases h
  · obtain ⟨j, o, hj, hw, -⟩ := hstart _ hmem
    obtain rfl := Thread.worker.inj hj
    simp only [hw, Worker.workerLoop, if_pos hmem] at h
    cases h

namespace WakeUps

/-- Nobody waits for a worker that will not move. -/
theorem exists_awake (hw : WakeUps s) (h : Inv n call s) (hblocked : s.Blocked) :
    ∃ i, s.Awake i := by
  rcases hblocked with ⟨j, hmem⟩ | ⟨thrown, i, howner, hi, hexited⟩
  · obtain ⟨sh, owner, ws⟩ := s
    have hcompleted := hw.completed
    cases owner with
    | copying c =>
      rcases hcompleted j with hnil | ⟨-, v, hwaits, -⟩
      · simp only at hmem
        rw [hnil] at hmem
        cases hmem
      · obtain ⟨f, pc⟩ := c
        cases pc with
        | waitCompleted g k u =>
          obtain ⟨rfl, -⟩ := Prod.mk.inj (Option.some.inj hwaits)
          rcases InCopy.progress h hw.start hcompleted hw.awaits rfl with hcopy | ⟨i, -, hi⟩
          · -- the owner itself is asleep
            simp only [Copy.copy] at hcopy
            rw [if_pos hmem] at hcopy
            cases hcopy
          · exact ⟨i, System.awake_of_isSome hi hw.start⟩
        | _ => cases hwaits
    | _ =>
      simp only at hmem
      rw [hcompleted.nil j] at hmem
      cases hmem
  · obtain ⟨sh, owner, ws⟩ := s
    simp only at howner hi hexited
    subst howner
    obtain ⟨m, hleaving, hjoined⟩ := h
    rw [hleaving.threads] at hi
    have hlt : i < m := by
      by_contra hge
      have habsent := hleaving.absent m le_rfl
      rw [hjoined m (by omega)] at habsent
      cases habsent
    refine ⟨i, fun habsent => ?_, hexited, fun hmem => ?_⟩
    · have hi := hleaving.leaving i hlt
      rw [habsent] at hi
      exact hi
    · simp only at hmem
      rw [hw.start.stopping hleaving.stopping] at hmem
      cases hmem

/-- Inside an operation the owner can move, or is blocked. -/
theorem isSome_or_blocked (h : Inv n call s) (hbusy : s.owner.Busy) :
    (s.next .owner).isSome ∨ s.Blocked := by
  obtain ⟨sh, owner, ws⟩ := s
  cases owner with
  | starting m pc =>
    left
    cases pc with
    | createThread i =>
      simp only [System.next, System.ownerStep, System.startWorkers]
      split <;> rfl
    | _ => rfl
  | copying c =>
    by_cases hreturned : c.returned = none
    · by_cases hasleep : ∃ j, .caller 0 ∈ sh.queues.completed j
      · exact Or.inr (Or.inl hasleep)
      · left
        have hcopy : (c.copy (.caller 0) sh).isSome :=
          Copy.copy_isSome hreturned fun j v _ hmem => hasleep ⟨j, hmem⟩
        simp only [System.next, System.ownerStep]
        split
        · rfl
        · rw [Option.isSome_map, Copy.step_eq_copy (InCopy.defined h)]
          exact hcopy
    · left
      obtain ⟨f, pc⟩ := c
      cases pc with
      | returning v => rfl
      | _ => exact absurd rfl hreturned
  | stopping thrown pc =>
    cases pc with
    | join i =>
      by_cases hi : i = sh.threads
      · left
        simp only [System.next, System.ownerStep, System.stopWorkers, if_pos hi]
        rfl
      · by_cases hexited : ws i = .exited
        · left
          simp only [System.next, System.ownerStep, System.stopWorkers, if_neg hi, hexited]
          rfl
        · exact Or.inr (Or.inr ⟨thrown, i, rfl, hi, hexited⟩)
    | _ => exact Or.inl rfl
  | _ => exact absurd hbusy id

end WakeUps

theorem wakeUps_of_run {memory : Address → Byte} {ls : List Label}
    (hrun : run System.next (System.start n memory) ls = some s) :
    ∃ call, Inv n call s ∧ WakeUps s := by
  have hstep : ∀ s l s', ((∃ call, Inv n call s) ∧ WakeUps s) → (fun _ => True) l →
      s.next l = some s' → (∃ call, Inv n call s') ∧ WakeUps s' := by
    rintro s l s' ⟨⟨call, h⟩, hw⟩ - hnext
    exact ⟨h.exists_next hnext, hw.step h hnext⟩
  have hempty : Separate 0 0 0 := Or.inl le_rfl
  obtain ⟨⟨call, h⟩, hw⟩ := run_invariant hstep
    ⟨⟨_, inv_start n ⟨0, 0, 0, hempty, memory, []⟩ memory⟩, wakeUps_start n memory⟩
    (fun _ _ => trivial) hrun
  exact ⟨call, h, hw⟩

/-- **No lost wake-up and no stuck state.** In every reachable state of a pool of `n` workers in
which the owner is inside an operation (the constructor, a call of `copy`, or `stop_workers`), the
owner or a worker can take a step. In particular, when the owner is asleep on a
`completed_generation` or joins a thread that has not exited, some worker that has not exited is
not asleep on `start_generation`. -/
theorem no_stuck_state {memory : Address → Byte} {ls : List Label}
    (hrun : run System.next (System.start n memory) ls = some s) :
    (s.owner.Busy → (s.next .owner).isSome ∨ ∃ i, (s.next (.worker i)).isSome) ∧
      (s.Blocked → ∃ i, s.Awake i) := by
  obtain ⟨call, h, hw⟩ := wakeUps_of_run hrun
  refine ⟨fun hbusy => ?_, hw.exists_awake h⟩
  rcases WakeUps.isSome_or_blocked h hbusy with howner | hblocked
  · exact Or.inl howner
  · obtain ⟨i, hi⟩ := hw.exists_awake h hblocked
    exact Or.inr ⟨i, hi.isSome⟩

/-- A pool of two workers is constructed, and the owner calls `copy` and goes to sleep in the wait
for worker 0. Neither worker has taken a step. -/
def sleepingOwner : List Label :=
  List.replicate 6 .owner ++ [.copy 20 10 3] ++ List.replicate 12 .owner

theorem no_stuck_state_sleepingOwner :
    ∃ s, run System.next (System.start 2 (BitVec.ofNat 8)) sleepingOwner = some s ∧
      s.next .owner = none ∧ ((∃ i, (s.next (.worker i)).isSome) ∧ ∃ i, s.Awake i) := by
  have hfacts : (run System.next (System.start 2 (BitVec.ofNat 8)) sleepingOwner).map (fun s =>
      (s.shared.queues.completed 0, (s.next .owner).isSome, s.owner.waitsFor)) =
      some ([.caller 0], false, some (0, 0)) := by rfl
  obtain ⟨s, hs, hfacts⟩ := Option.map_eq_some_iff.mp hfacts
  obtain ⟨hqueue, howner, hwaits⟩ := Prod.mk.inj hfacts |>.imp_right Prod.mk.inj
  obtain ⟨hprogress, hawake⟩ := no_stuck_state hs
  have hnone : s.next .owner = none := Option.not_isSome_iff_eq_none.mp (by simp [howner])
  have hbusy : s.owner.Busy := by
    cases h : s.owner with
    | copying c => trivial
    | _ =>
      rw [h] at hwaits
      cases hwaits
  have hblocked : s.Blocked := Or.inl ⟨0, by simp [hqueue]⟩
  exact ⟨s, hs, hnone, (hprogress hbusy).resolve_left (by simp [howner]), hawake hblocked⟩

end Doost.Memcpy
