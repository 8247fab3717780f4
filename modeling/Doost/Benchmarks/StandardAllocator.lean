import Doost.Benchmarks.RunThreads
import Doost.Lists.ExceptionSafety
import Doost.Lists.SharedPool

/-!
# Threads over the standard allocator

The benchmark of `standard_allocator_benchmark`: the threads of `run_threads` fill lists whose nodes
come from `std::allocator`, and clear them. Every call on a list is one step. An `allocate` may
throw `std::bad_alloc`; then the list of this thread is destroyed on the way out of its function,
and `run_threads` throws the exception again when all threads have been joined.

`standard_allocator_exact`: however the threads interleave and whatever is refused, no node is in
two lists, and none is left behind.
-/

namespace Doost.Benchmarks

open Transition Pools Doost.Lists

namespace StandardAllocator

/-! ## The program -/

/-- `std::allocator` for `unsigned`. -/
def standardTraits : Traits Unit (BitVec 32) where
  equal _ _ := true
  propagateOnMoveAssignment := true
  selectOnCopyConstruction := id
  rebind := id
  movedFrom := id
  halfMovedFrom := id

/-- The memory of the nodes. The list of a thread has its number. -/
abbrev Heap := NodeHeap UIntPtr Unit (BitVec 32)

/-- Where a thread is in the function of the benchmark. -/
inductive Place
  /-- Next the list is constructed. -/
  | constructing
  /-- At the head of the loop of `fill_list`. -/
  | filling (i : ℕ)
  /-- Next the list is destroyed, and the function ends with `result`. -/
  | leaving (result : Except Lists.Failure Unit)

abbrev Step := Option (Progress Place Lists.Failure × Heap)

/-- A call on the list of the thread, after which it goes on as `progress` says. -/
def call (c : Call UIntPtr Unit (BitVec 32)) (progress : Progress Place Lists.Failure)
    (heap : Heap) : Step :=
  match heap.perform standardTraits c with
  | some (.ok (), heap) => some (progress, heap)
  | some (.error .fault, heap) => some (.crashes, heap)
  | some (.error x, heap) => some (.goesOn (.leaving (.error x)), heap)
  | none => none

/-- The function that `run_threads` is called with. The system answers a step with what `allocate`
returns in it, or refuses the memory. -/
def function (nodeCount : SizeT) : ThreadFunction Heap Place (Option UIntPtr) Lists.Failure where
  start _ := .constructing
  step index place answer heap :=
    match place with
    | .constructing => call ⟨.construct index (), [], []⟩ (.goesOn (.filling 0)) heap
    | .filling i =>
      if i = nodeCount.toNat then call ⟨.clear index, [], []⟩ (.goesOn (.leaving (.ok ()))) heap
      else
        call ⟨.pushFront index (.value (BitVec.ofNat 32 i)) index, [answer], [true]⟩
          (.goesOn (.filling (i + 1))) heap
    | .leaving result => call ⟨.destroy index, [], []⟩ (.ends result) heap

/-- No list and no node. -/
def start : Heap := .start fun _ => true

/-- `allocate` returns memory that nobody has, or throws. -/
def Answers (heap : Heap) (answer : Option UIntPtr) : Prop := heap.mayReturn [answer] = true

instance (heap : Heap) (answer : Option UIntPtr) : Decidable (Answers heap answer) :=
  inferInstanceAs (Decidable (_ = true))

theorem lawful_standardTraits : standardTraits.Lawful :=
  ⟨fun _ => rfl, fun _ _ _ => rfl, fun _ _ _ _ _ => rfl, fun _ => rfl⟩

/-! ## The invariant -/

namespace Place

/-- The list of a thread that pushes `n` nodes. -/
def Fits (n : ℕ) (list : Option (List (BitVec 32))) : Place → Prop
  | constructing => list = none
  | filling i => i ≤ n ∧ list = some (filled i)
  | leaving result => list.isSome = true ∧ ∀ x, result = .error x → x = .badAlloc

/-- The steps that a thread has left in the function. -/
def left (n : ℕ) : Place → ℕ
  | constructing => n + 2
  | filling i => n - i + 1
  | leaving _ => 0

end Place

/-- The threads of `run_threads`. -/
abbrev ListThread := Thread Place Lists.Failure

/-- What holds of a thread that pushes `n` nodes and its list. -/
def ListThread.Fits (n : ℕ) (list : Option (List (BitVec 32))) : ListThread → Prop
  | .absent => list = none
  | .running place => place.Fits n list
  | .ended result => list = none ∧ ∀ x, result = .error x → x = .badAlloc

/-- What holds between two steps: every node is in one list, and a thread has its list. -/
structure Inv (n : ℕ) (heap : Heap) (threads : ℕ → ListThread) : Prop where
  owned : ∃ C, heap.Owned standardTraits C
  fits : ∀ t, (threads t).Fits n (heap.sequences t)

variable {n t : ℕ} {heap heap' : Heap} {threads : ℕ → ListThread} {thread : ListThread}
  {place : Place} {list : Option (List (BitVec 32))} {c : Call UIntPtr Unit (BitVec 32)}

/-- A thread goes on with another list of its own. -/
theorem Inv.update (h : Inv n heap threads) (howned : ∃ C, heap'.Owned standardTraits C)
    (hsequences : heap'.sequences = Function.update heap.sequences t list)
    (hfits : thread.Fits n list) : Inv n heap' (Function.update threads t thread) where
  owned := howned
  fits u := by
    rw [hsequences]
    rcases eq_or_ne u t with rfl | hne
    · rwa [Function.update_self, Function.update_self]
    · rw [Function.update_of_ne hne, Function.update_of_ne hne]
      exact h.fits u

/-- A legal call leaves every node in one list. -/
theorem Inv.owned_perform (h : Inv n heap threads) {r : Except Lists.Failure Unit}
    (hlegal : heap.legal c = true) (hrelease : ∀ i, c.op ≠ .releaseNodes i)
    (hrun : heap.perform standardTraits c = some (r, heap')) :
    ∃ C, heap'.Owned standardTraits C := by
  refine owned_next lawful_standardTraits h.owned hrelease (c := c) ?_
  rw [NodeHeap.next, if_pos hlegal, hrun]
  rfl

/-- The list of a thread is there if it has a sequence. -/
theorem Inv.lists (h : Inv n heap threads) (t : ℕ) :
    (heap.lists t).isSome = (heap.sequences t).isSome := by
  obtain ⟨C, hO⟩ := h.owned
  exact hO.represents.lists_isSome t

/-- A call that needs no node. -/
theorem Inv.call (h : Inv n heap threads) {op : ListOp UIntPtr Unit (BitVec 32)}
    (thread : ListThread) (list : Option (List (BitVec 32))) (hop : heap.acceptsOp op = true)
    (hneeds : heap.needs op = 0) (hpop : ∀ i, op ≠ .popFront i)
    (hrelease : ∀ i, op ≠ .releaseNodes i)
    (hmeaning : heap.sequences.apply id (heap.meaning op) =
      Function.update heap.sequences t list)
    (hfits : thread.Fits n list) :
    ∃ heap', (∀ progress, StandardAllocator.call ⟨op, [], []⟩ progress heap =
        some (progress, heap')) ∧ Inv n heap' (Function.update threads t thread) := by
  obtain ⟨C, hO⟩ := h.owned
  obtain ⟨heap', C', hrun, -, hsequences⟩ :=
    hO.represents.call lawful_standardTraits hop hneeds hpop
  have hlegal : heap.legal ⟨op, [], []⟩ = true := by
    simp [NodeHeap.legal, NodeHeap.mayReturn, hop]
  refine ⟨heap', fun progress => ?_, h.update (h.owned_perform hlegal hrelease hrun)
    (hsequences.trans hmeaning) hfits⟩
  simp only [StandardAllocator.call, hrun]

/-- A `push_front` whose `allocate` returns. -/
theorem Inv.push (h : Inv n heap threads) {i : ℕ} {p : UIntPtr}
    (hlist : heap.sequences t = some (filled i)) (hlt : i < n) (hanswer : Answers heap (some p)) :
    ∃ heap', (∀ progress, StandardAllocator.call
        ⟨.pushFront t (.value (BitVec.ofNat 32 i)) t, [some p], [true]⟩ progress heap =
          some (progress, heap')) ∧
      Inv n heap' (Function.update threads t (.running (.filling (i + 1)))) := by
  obtain ⟨C, hO⟩ := h.owned
  obtain ⟨heap', C', hrun, -, hsequences⟩ :=
    hO.represents.push lawful_standardTraits (BitVec.ofNat 32 i) hlist hanswer
  have howned := h.owned_perform (hO.represents.legal_push hlist hanswer)
    (fun i hi => by cases hi) hrun
  refine ⟨heap', fun progress => ?_, h.update howned hsequences ⟨Nat.succ_le_of_lt hlt, rfl⟩⟩
  simp only [StandardAllocator.call, hrun]

/-- A `push_front` whose `allocate` throws: the list is as it was. -/
theorem Inv.refuse (h : Inv n heap threads) {i : ℕ}
    (hlist : heap.sequences t = some (filled i)) :
    ∃ heap', (∀ progress, StandardAllocator.call
        ⟨.pushFront t (.value (BitVec.ofNat 32 i)) t, [none], [true]⟩ progress heap =
          some (.goesOn (.leaving (.error .badAlloc)), heap')) ∧
      Inv n heap' (Function.update threads t (.running (.leaving (.error .badAlloc)))) := by
  obtain ⟨C, hO⟩ := h.owned
  have hlegal : heap.legal ⟨.pushFront t (.value (BitVec.ofNat 32 i)) t, [none], [true]⟩ =
      true := hO.represents.legal_push hlist rfl
  obtain ⟨r, heap', hrun, rfl, hR⟩ :=
    hO.represents.throws lawful_standardTraits hlegal Nat.zero_lt_one
  have hsequences : heap'.sequences = heap.sequences :=
    hR.sequences.trans hO.represents.sequences.symm
  refine ⟨heap', fun progress => ?_, h.update (t := t)
    (h.owned_perform hlegal (fun i hi => by cases hi) hrun)
    (hsequences.trans (Function.update_eq_self t _).symm) ⟨?_, fun y hy => ?_⟩⟩
  · change heap.perform standardTraits _ = some (.error .badAlloc, heap') at hrun
    rw [StandardAllocator.call, hrun]
  · rw [hlist]
    rfl
  · exact (Except.error.inj hy).symm

/-! ## Every step -/

/-- **Every step of a thread** is defined and touches no memory that is not there; it keeps the
invariant, and is one of those that the thread has left. -/
theorem Inv.step {nodeCount : SizeT} {answer : Option UIntPtr}
    (h : Inv nodeCount.toNat heap threads) (hanswer : Answers heap answer)
    (ht : threads t = .running place) :
    StepsTo (Inv nodeCount.toNat) (Place.left nodeCount.toNat) threads t place
      ((function nodeCount).step t place answer heap) := by
  have hfits := h.fits t
  have hlists := h.lists t
  rw [ht] at hfits
  cases place with
  | constructing =>
    have hlist : heap.sequences t = none := hfits
    have hop : heap.acceptsOp (.construct t ()) = true := by
      rw [hlist] at hlists
      simpa only [NodeHeap.acceptsOp, Option.isNone_iff_eq_none, Option.isSome_none,
        Option.isSome_eq_false_iff] using hlists
    obtain ⟨heap', hcall, hinv⟩ := h.call (.running (.filling 0)) (some []) hop rfl
      (fun i hi => by cases hi) (fun i hi => by cases hi) rfl ⟨Nat.zero_le _, rfl⟩
    refine .goesOn (hcall _) hinv ?_
    simp only [Place.left]
    omega
  | filling i =>
    obtain ⟨hi, hlist⟩ := hfits
    by_cases hend : i = nodeCount.toNat
    · have hop : heap.acceptsOp (.clear t) = true := by
        rw [hlist] at hlists
        exact hlists
      obtain ⟨heap', hcall, hinv⟩ := h.call (.running (.leaving (.ok ()))) (some []) hop rfl
        (fun i hi => by cases hi) (fun i hi => by cases hi) rfl ⟨rfl, fun x hx => by cases hx⟩
      refine .goesOn ((if_pos hend).trans (hcall _)) hinv ?_
      simp only [Place.left]
      omega
    · have hlt : i < nodeCount.toNat := lt_of_le_of_ne hi hend
      cases answer with
      | some p =>
        obtain ⟨heap', hcall, hinv⟩ := h.push hlist hlt hanswer
        refine .goesOn ((if_neg hend).trans (hcall _)) hinv ?_
        simp only [Place.left]
        omega
      | none =>
        obtain ⟨heap', hcall, hinv⟩ := h.refuse hlist
        refine .goesOn ((if_neg hend).trans (hcall _)) hinv ?_
        simp only [Place.left]
        omega
  | leaving result =>
    obtain ⟨hsome, hthrown⟩ := hfits
    have hop : heap.acceptsOp (.destroy t) = true := hlists.trans hsome
    obtain ⟨heap', hcall, hinv⟩ := h.call (.ended result) none hop rfl
      (fun i hi => by cases hi) (fun i hi => by cases hi) rfl ⟨rfl, hthrown⟩
    exact .ends (hcall _) hinv

/-! ## Every run -/

theorem start_inv (n : ℕ) : Inv n start fun _ => .absent where
  owned := ⟨_, represents_start standardTraits _, fun _ hp => hp, trivial, fun _ => rfl⟩
  fits _ := rfl

/-- The threads of the benchmark keep the invariant. -/
theorem function_keeps (nodeCount : SizeT) (threadCount : ℕ) :
    (function nodeCount).Keeps threadCount Answers (Inv nodeCount.toNat)
      (Place.left nodeCount.toNat) where
  create {heap threads t} _ h ht := by
    have hfits := h.fits t
    rw [ht] at hfits
    exact h.update h.owned (Function.update_eq_self t _).symm hfits
  step h hanswer ht := h.step hanswer ht

/-- Without a thread that runs there is no list, and no node. -/
theorem Inv.released (h : Inv n heap threads) (hover : ∀ t place, threads t ≠ .running place)
    (p : UIntPtr) : heap.cells p = none := by
  obtain ⟨C, hO⟩ := h.owned
  refine hO.balanced.empty (fun t => ?_) p
  have hnone : heap.sequences t = none := by
    have hfits := h.fits t
    cases hthread : threads t with
    | running place => exact absurd hthread (hover t place)
    | absent =>
      rw [hthread] at hfits
      exact hfits
    | ended result =>
      rw [hthread] at hfits
      exact hfits.1
  have hlists := h.lists t
  rw [hnone] at hlists
  exact Option.not_isSome_iff_eq_none.mp (Bool.eq_false_iff.mp hlists)

/-- **No thread leaves a node behind, also when memory runs out.** Threads fill lists over
`std::allocator`, which returns memory that nobody has or throws. In every order of the steps and
whatever is refused: no step touches memory that is not there; each list holds the numbers that its
thread has pushed; every node is in exactly one list, and has been allocated and constructed, and
destroyed and deallocated, in turn; what `run_threads` throws again is the exception of `allocate`;
when it has returned or thrown, no node is left; until it is over, the caller or a thread can move,
and it is over after a number of steps that the counts bound. -/
theorem standard_allocator_exact (nodeCount : SizeT) (threadCount : BitVec 32)
    {ls : List (RunThreads.Label (Option UIntPtr))} {s : RunThreads Heap Place Lists.Failure}
    (hanswers : Along (RunThreads.next (function nodeCount) threadCount.toNat)
      (RunThreads.Answered Answers) (RunThreads.start start) ls)
    (hrun : run (RunThreads.next (function nodeCount) threadCount.toNat) (RunThreads.start start)
      ls = some s) :
    s.caller ≠ .crashed ∧
    (∀ t i, s.threads t = .running (.filling i) → s.shared.sequences t = some (filled i)) ∧
    s.shared.Balanced standardTraits ∧
    (∀ x, s.caller = .threw x → x = .badAlloc) ∧
    (s.caller.Over → s.caller ≠ .terminated → ∀ p, s.shared.cells p = none) ∧
    (¬ s.caller.Over → ∀ answer, Answers s.shared answer →
      ∃ l, (l = .caller true ∨ ∃ t, l = .thread t answer) ∧
        (RunThreads.next (function nodeCount) threadCount.toNat s l).isSome) ∧
    ls.length ≤ 3 * threadCount.toNat + 4 + threadCount.toNat * (nodeCount.toNat + 3) := by
  have hkeeps := function_keeps nodeCount threadCount.toNat
  have hstart := start_inv nodeCount.toNat
  obtain ⟨hok, hinv, hcrashed⟩ := RunThreads.Kept.run hkeeps hstart hanswers hrun
  refine ⟨hcrashed, fun t i ht => ?_, ?_, fun x hthrew => ?_, fun hover hterminated => ?_,
    fun hover answer hanswer => ?_, ?_⟩
  · have hfits := hinv.fits t
    rw [ht] at hfits
    exact hfits.2
  · obtain ⟨C, hO⟩ := hinv.owned
    exact hO.balanced
  · obtain ⟨t, -, hended, -⟩ := hok.threw x hthrew
    have hfits := hinv.fits t
    rw [hended] at hfits
    exact hfits.2 x rfl
  · have hgone : s.caller.gone = false := by
      cases hcaller : s.caller <;> first | rfl | exact absurd hcaller ‹_›
    exact hinv.released fun t place => hok.not_running hover hgone
  · exact RunThreads.Kept.exists_next hkeeps ⟨hok, hinv, hcrashed⟩ hover answer hanswer
  · exact RunThreads.run_length_le hkeeps hstart (nodeCount.toNat + 2) (fun _ _ => le_rfl) hanswers
      hrun

/-- Two threads with two nodes each. The second node of thread 0 is refused, after thread 1 has been
given the memory above the first. -/
def secondRefused : List (RunThreads.Label (Option UIntPtr)) :=
  [.caller true, .caller true, .caller true, .caller true, .thread 0 none, .thread 1 none,
    .thread 0 (some 0x1000), .thread 1 (some 0x1010), .thread 0 none, .thread 1 (some 0x1020),
    .thread 0 none, .thread 1 none, .thread 1 none, .caller true, .caller true, .caller true,
    .caller true]

/-- The exception of thread 0 is thrown again, and no node of either is left. -/
theorem standard_allocator_exact_secondRefused :
    ∃ s, run (RunThreads.next (function 2) 2) (RunThreads.start start) secondRefused = some s ∧
      s.caller = .threw .badAlloc ∧ ∀ p, s.shared.cells p = none := by
  have hcaller : (run (RunThreads.next (function 2) 2) (RunThreads.start start)
      secondRefused).map RunThreads.caller = some (.threw .badAlloc) := by
    decide +kernel
  obtain ⟨s, hs, hthrew⟩ := Option.map_eq_some_iff.mp hcaller
  have hanswers : Along (RunThreads.next (function 2) 2) (RunThreads.Answered Answers)
      (RunThreads.start start) secondRefused := by
    decide +kernel
  obtain ⟨-, -, -, -, hreleased, -⟩ := standard_allocator_exact 2 2 hanswers hs
  exact ⟨s, hs, hthrew, hreleased (by rw [hthrew]; trivial) (by rw [hthrew]; exact nofun)⟩

end StandardAllocator

end Doost.Benchmarks
