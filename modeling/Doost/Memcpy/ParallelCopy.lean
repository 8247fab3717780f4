import Doost.Memcpy.Invariant

/-!
# A parallel copy is a `memcpy`

`parallel_copy_is_memcpy`: in every run of a pool, every call of `copy` that returns has copied its
source to its destination and changed nothing else, and each byte of the destination has been
written once, by a worker (by the owner, in a pool without workers). No worker reads its job while
the owner writes the jobs of a call.

The runs are all interleavings of the owner and the workers, with any number of calls before the
one in question, spurious wake-ups, and workers that take their first step at any time.
-/

namespace Doost.Memcpy

open SplitCopy Transition

variable {n : ℕ}

/-- While the owner writes the jobs, no worker is about to read its own. -/
theorem Inv.not_readsFields {call : Call} {s : System} (h : Inv n call s) (hwrites : s.WritesJobs)
    (i : ℕ) : ¬ (s.workers i).ReadsFields := by
  have hquiet : Quiet n n s.shared s.workers := by
    obtain ⟨sh, owner, ws⟩ := s
    cases owner with
    | copying c =>
      obtain ⟨f, pc⟩ := c
      have hpc := h.atPc
      cases pc with
      | writeDst i => exact hpc.toQuiet
      | writeSrc i => exact hpc.1.toQuiet
      | writeSize i => exact hpc.1.toQuiet
      | loadGeneration => exact hpc.toQuiet
      | storeGeneration g => exact hpc.1.toQuiet
      | _ => exact absurd hwrites id
    | _ => exact absurd hwrites id
  rcases Nat.lt_or_ge i n with hi | hi
  · exact (hquiet.resting i hi).not_readsFields
  · rw [hquiet.absent i hi]
    exact id

/-- A call that returns has been carried out. -/
theorem Inv.finished {call : Call} {s : System} (h : Inv n call s) {value : Address}
    (hreturned : s.returned = some value) : value = call.dst ∧ Finished n call s.shared := by
  obtain ⟨sh, owner, ws⟩ := s
  cases owner with
  | copying c =>
    obtain ⟨f, pc⟩ := c
    have hpc := h.atPc
    cases pc with
    | returning v =>
      obtain rfl : v = value := Option.some.inj hreturned
      exact hpc.2
    | _ => cases hreturned
  | _ => cases hreturned

/-- **A parallel copy is a `memcpy`.** In every reachable state of a pool of `n` workers no worker
is about to read its job while the owner writes the jobs; and when a call `copy(dst, src, size)`
made there returns, it returns `dst`, the destination equals the source, every other byte is as it
was when the call was made, and each byte of the destination has been written exactly once since
then, by a worker, or by the owner if there are no workers. -/
theorem parallel_copy_is_memcpy {memory : Address → Byte} {ls : List Label} {s : System}
    (hrun : run System.next (System.start n memory) ls = some s) :
    (s.WritesJobs → ∀ i, ¬ (s.workers i).ReadsFields) ∧
      ∀ (dst src size : ℕ) (called returned : System) (ms : List Label) (value : Address),
        s.next (.copy dst src size) = some called →
        (∀ l ∈ ms, ∀ dst src size, l ≠ .copy dst src size) →
        run System.next called ms = some returned → returned.returned = some value →
        value = dst ∧
        (∀ k < size, returned.shared.memory (dst + k) = returned.shared.memory (src + k)) ∧
        (∀ a, a < dst ∨ dst + size ≤ a → returned.shared.memory a = s.shared.memory a) ∧
        ∃ new, returned.shared.writes = new ++ s.shared.writes ∧
          (∀ k < size, ∃ t, Copier n t ∧ writersOf new (dst + k) = [t]) ∧
          ∀ a, a < dst ∨ dst + size ≤ a → writersOf new a = [] := by
  obtain ⟨call, hinv⟩ := exists_inv_of_run hrun
  refine ⟨hinv.not_readsFields, ?_⟩
  intro dst src size called returned ms value hcall hms hreturn hvalue
  obtain ⟨hseparate, hcalled⟩ := hinv.copy hcall
  obtain ⟨hdst, hfinished⟩ := (hcalled.run hms hreturn).finished hvalue
  obtain ⟨new, hnew, hwritten, hnothing⟩ := hfinished.written
  exact ⟨hdst, hfinished.equal, hfinished.outside, new, hnew, hwritten, hnothing⟩

/-- The construction of a pool of two workers, and a first step of worker 0. -/
def constructTwo : List Label :=
  List.replicate 6 .owner ++ [.worker 0]

/-- A call on two workers. The owner goes to sleep in the wait for worker 0, which copies one byte;
worker 1 takes its first step after that, and copies two. -/
def copyOnTwo : List Label :=
  List.replicate 12 .owner ++ List.replicate 9 (.worker 0) ++ List.replicate 3 .owner ++
    List.replicate 11 (.worker 1) ++ List.replicate 3 .owner

theorem parallel_copy_is_memcpy_twoWorkers :
    ∃ s called returned,
      run System.next (System.start 2 (BitVec.ofNat 8)) constructTwo = some s ∧
      s.next (.copy 20 10 3) = some called ∧
      run System.next called copyOnTwo = some returned ∧ returned.returned = some 20 ∧
      ∀ k < 3, returned.shared.memory (20 + k) = returned.shared.memory (10 + k) := by
  have hfacts : ((run System.next (System.start 2 (BitVec.ofNat 8)) constructTwo).bind fun s =>
      (s.next (.copy 20 10 3)).bind fun called =>
        (run System.next called copyOnTwo).map fun returned => returned.returned) =
      some (some 20) := by rfl
  obtain ⟨s, hs, hfacts⟩ := Option.bind_eq_some_iff.mp hfacts
  obtain ⟨called, hcalled, hfacts⟩ := Option.bind_eq_some_iff.mp hfacts
  obtain ⟨returned, hreturned, hvalue⟩ := Option.map_eq_some_iff.mp hfacts
  have hlabels : ∀ l ∈ copyOnTwo, ∀ dst src size, l ≠ .copy dst src size := by
    simp [copyOnTwo]
  have hcopy := (parallel_copy_is_memcpy hs).2 20 10 3 called returned copyOnTwo 20 hcalled
    hlabels hreturned hvalue
  exact ⟨s, called, returned, hs, hcalled, hreturned, hvalue, hcopy.2.1⟩

end Doost.Memcpy
