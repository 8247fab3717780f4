import Doost.Lists.Outcomes

/-!
# `List` refines finite sequences

A run of calls in which no `allocate` and no constructor throws is a run of `Sequences` operations:
each call does what `NodeHeap.meaning` says, and iteration, `size` and `empty` answer from the
sequences alone (`NodeHeap.Shows`). `run_refines_sequences` puts this together for every run.
-/

namespace Doost.Lists

open Program Transition

variable {P A T : Type} [DecidableEq P]

namespace NodeHeap

/-- Iteration and the observers answer what the sequences say, and no node is visited twice. -/
structure Shows (h : NodeHeap P A T) (s : Sequences ListId T) : Prop where
  lives : ∀ i, (h.lists i).isSome = (s i).isSome
  elements : ∀ i l, s i = some l →
    ∃ nodes, h.elements i = some nodes ∧ nodes.map Prod.snd = l ∧ (nodes.map Prod.fst).Nodup
  size : ∀ i l, s i = some l → h.size i = some l.length
  empty : ∀ i l, s i = some l → h.empty i = some l.isEmpty
  apart : ∀ i j m n p, h.elements i = some m → h.elements j = some n →
    p ∈ m.map Prod.fst → p ∈ n.map Prod.fst → i = j

/-- The call `c` has ended with `r`, in the heap `h'`, and has done what it means. -/
structure Does (tr : Traits A T) (h : NodeHeap P A T) (c : Call P A T)
    (r : Except Failure Unit) (h' : NodeHeap P A T) : Prop where
  shows : h'.Shows (h.sequences.apply tr.movedFrom (h.meaning c.op))
  result : r = .ok () ∨ r = .error .outOfRange
  throws_iff : r = .error .outOfRange ↔ ∃ i, c.op = .popFront i ∧ h.sequences i = some []
  unchanged : r = .error .outOfRange → h' = h.answering c
  keeps : ∀ i, i ∉ (h.meaning c.op).targets → h'.sequences i = h.sequences i

/-- One legal call in which neither `allocate` nor a constructor throws. -/
def nextSucceeding (tr : Traits A T) (h : NodeHeap P A T) (c : Call P A T) :
    Option (NodeHeap P A T) :=
  if h.legal c then
    match h.perform tr c with
    | some (.ok _, h') => some h'
    | some (.error x, h') => if x.thrown then none else some h'
    | none => none
  else none

/-- The meanings of the calls, each in the heap that it finds. -/
def meanings (tr : Traits A T) (h : NodeHeap P A T) :
    List (Call P A T) → List (Sequences.Op ListId T)
  | [] => []
  | c :: calls => h.meaning c.op :: (h.nextSucceeding tr c).elim [] fun h' => h'.meanings tr calls

end NodeHeap

variable {tr : Traits A T} {h h' : NodeHeap P A T} {C C' : Chains P A T} {c : Call P A T}
  {r : Except Failure Unit}

omit [DecidableEq P] in
/-- **The observers on a heap of chains.** -/
theorem Represents.shows (hR : Represents tr h C) : h.Shows C.contents := by
  have hlist : ∀ i l, C.contents i = some l → ∃ a, C.allocator i = some a ∧
      (C.chain i).map Entry.value = l := fun i l hl => Option.map_eq_some_iff.mp hl
  have haddrs : ∀ i m, h.elements i = some m → m.map Prod.fst = addrs (C.chain i) := by
    intro i m hm
    rw [hR.elements] at hm
    obtain ⟨a, -, rfl⟩ := Option.map_eq_some_iff.mp hm
    simp [addrs, Function.comp_def]
  refine ⟨fun i => ?_, fun i l hl => ?_, fun i l hl => ?_, fun i l hl => ?_,
    fun i j m n p hm hn hp hq => ?_⟩
  · rw [hR.lists_isSome, hR.sequences]
  · obtain ⟨a, ha, rfl⟩ := hlist i l hl
    have helements := hR.elements i
    rw [ha, Option.map_some] at helements
    refine ⟨_, helements, ?_, ?_⟩
    · simp [Function.comp_def]
    · rw [haddrs i _ helements]
      exact hR.nodup i
  · obtain ⟨a, ha, rfl⟩ := hlist i l hl
    rw [hR.size ha, List.length_map]
  · obtain ⟨a, ha, rfl⟩ := hlist i l hl
    rw [NodeHeap.empty, hR.list ha, Option.map_some]
    cases C.chain i <;> rfl
  · exact hR.apart i j p (haddrs i m hm ▸ hp) (haddrs j n hn ▸ hq)

/-- A call that has not thrown has done what it means. -/
theorem Performed.does (hR : Represents tr h C) (hP : Performed tr h C c r h' C')
    (hr : ∀ x, r = .error x → x.thrown = false) : h.Does tr c r h' := by
  have hsequences := hR.sequences
  have hcontents := hP.contents hr
  refine ⟨?_, ?_, ?_, hP.unchanged, fun i hi => ?_⟩
  · rw [hsequences, ← hcontents]
    exact hP.represents.shows
  · cases hP.outcome with
    | returns contents popped => exact .inl rfl
    | outOfRange i popped empty => exact .inr rfl
    | throws x thrown => cases thrown.symm.trans (hr x rfl)
  · rw [hsequences]
    cases hP.outcome with
    | returns contents popped =>
      refine ⟨fun hr => (by cases hr), ?_⟩
      rintro ⟨i, hi, hempty⟩
      exact absurd hempty (popped i hi)
    | outOfRange i popped empty => exact ⟨fun _ => ⟨i, popped, empty⟩, fun _ => rfl⟩
    | throws x thrown => cases thrown.symm.trans (hr x rfl)
  · rw [hP.represents.sequences, hcontents, hsequences]
    exact Sequences.apply_of_notMem hi

/-! ## Runs -/

/-- One call of a run. -/
theorem represents_nextSucceeding (htr : tr.Lawful) (hR : Represents tr h C)
    (hnext : h.nextSucceeding tr c = some h') : ∃ C', Represents tr h' C' ∧
      C'.contents = C.contents.apply tr.movedFrom (h.meaning c.op) := by
  rw [NodeHeap.nextSucceeding] at hnext
  split at hnext
  swap
  · cases hnext
  next hc =>
    obtain ⟨r, h₁, hrun, C', hP⟩ := hR.perform htr hc
    have hrun' : h.perform tr c = some (r, h₁) := hrun
    have hend : h₁ = h' ∧ ∀ x, r = .error x → x.thrown = false := by
      cases r with
      | ok u =>
        simp only [hrun'] at hnext
        exact ⟨Option.some.inj hnext, fun _ hx => by cases hx⟩
      | error x =>
        cases hx : x.thrown with
        | true => simp [hrun', hx] at hnext
        | false =>
          simp only [hrun', hx] at hnext
          exact ⟨Option.some.inj hnext, fun y hy => Except.error.inj hy ▸ hx⟩
    obtain ⟨rfl, hr⟩ := hend
    exact ⟨C', hP.represents, hP.contents hr⟩

theorem represents_run (htr : tr.Lawful) (hR : Represents tr h C) {calls : List (Call P A T)}
    (hrun : run (NodeHeap.nextSucceeding tr) h calls = some h') : ∃ C', Represents tr h' C' ∧
      C'.contents = (h.meanings tr calls).foldl (Sequences.apply tr.movedFrom) C.contents := by
  induction calls generalizing h C with
  | nil =>
    obtain rfl := Option.some.inj hrun
    exact ⟨C, hR, rfl⟩
  | cons c calls ih =>
    obtain ⟨m, hm, hrest⟩ := run_cons_eq_some.mp hrun
    obtain ⟨C₁, hR₁, hcontents⟩ := represents_nextSucceeding htr hR hm
    rw [NodeHeap.meanings, List.foldl_cons, ← hcontents, hm]
    exact ih hR₁ hrest

/-- **Every run of calls in which nothing throws is the run of their meanings.** The last part says
of one more call that it is defined, that it does not throw when the answers suffice, and that it
then means what `NodeHeap.meaning` says and leaves the other sequences alone. -/
theorem run_refines_sequences (htr : tr.Lawful) (accessible : P → Bool) (calls : List (Call P A T))
    (h : NodeHeap P A T)
    (hrun : run (NodeHeap.nextSucceeding tr) (NodeHeap.start accessible) calls = some h) :
    h.Shows (((NodeHeap.start accessible).meanings tr calls).foldl (Sequences.apply tr.movedFrom)
      fun _ => none) ∧
      ∀ c, h.legal c → ∃ r h', h.perform tr c = some (r, h') ∧
        ((h.answering c).supplies (h.needs c.op) → ∀ x, r = .error x → x.thrown = false) ∧
        ((∀ x, r = .error x → x.thrown = false) → h.Does tr c r h') := by
  obtain ⟨C, hR, hcontents⟩ := represents_run htr (represents_start tr accessible) hrun
  refine ⟨hcontents ▸ hR.shows, fun c hc => ?_⟩
  obtain ⟨r, h', hrun', C', hP⟩ := hR.perform htr hc
  exact ⟨r, h', hrun', hP.supplied, hP.does hR⟩

/-- The elements 3, 4, 3 in list 0 are copied to list 1, moved to list 2 one by one, and both lists
are changed. -/
def movingRun : List (Call ℕ ℕ ℕ) :=
  [⟨.construct 0 7, [], []⟩, ⟨.pushFront 0 (.value 3) 0, [some 10], [true]⟩,
    ⟨.pushFront 0 (.value 4) 0, [some 11], [true]⟩,
    ⟨.pushFront 0 (.copyOf 10) 0, [some 12], [true]⟩,
    ⟨.copyConstruct 1 0, [some 20, some 21, some 22], [true, true, true]⟩,
    ⟨.construct 2 8, [], []⟩,
    ⟨.moveAssign 2 0 9, [some 30, some 31, some 32], [true, true, true]⟩,
    ⟨.popFront 0, [], []⟩, ⟨.copyAssign 2 2 9, [], []⟩, ⟨.popFront 2, [], []⟩,
    ⟨.emplaceFront 0 (.moveFrom 31) 2, [some 10], [true]⟩]

/-- After `movingRun` the copy still has the elements that list 0 had. -/
theorem run_refines_sequences_movingRun :
    ∃ h, run (NodeHeap.nextSucceeding numbers) (NodeHeap.start fun _ => true) movingRun =
        some h ∧
      h.Shows (((NodeHeap.start fun _ => true).meanings numbers movingRun).foldl
        (Sequences.apply numbers.movedFrom) fun _ => none) ∧
      h.elements 0 = some [(10, 4)] ∧ h.elements 1 = some [(20, 3), (21, 4), (22, 3)] ∧
      h.elements 2 = some [(31, 0), (32, 3)] := by
  have hfacts : (run (NodeHeap.nextSucceeding numbers) (NodeHeap.start fun _ => true)
      movingRun).map (fun h => (h.elements 0, h.elements 1, h.elements 2)) =
        some (some [(10, 4)], some [(20, 3), (21, 4), (22, 3)], some [(31, 0), (32, 3)]) := by
    decide +kernel
  obtain ⟨h, hrun, hh⟩ := Option.map_eq_some_iff.mp hfacts
  simp only [Prod.mk.injEq] at hh
  exact ⟨h, hrun, (run_refines_sequences lawful_numbers _ movingRun h hrun).1, hh⟩

end Doost.Lists
