import Doost.Strings.Invariant

/-!
# `String` refines shared immutable texts

A run of calls is a run of `SharedValues` operations: each call does what `Heap.meaning` says, and
the observers answer from the abstract state alone (`Heap.Shows`). `run_refines` puts this
together for every run.
-/

namespace Doost.Strings

open Transition

/-- The observers of every object answer what the shared texts say. -/
structure Heap.Shows (h : Heap) (s : SharedTexts) : Prop where
  shared : h.shared = s
  hasValue : ∀ x o, s.holder x = some o → h.hasValue x = some o.isSome
  unique : ∀ x o, s.holder x = some o →
    ∃ u, h.unique x = some u ∧ (u = true ↔ ∃ b, o = some b ∧ (s.holders b).ncard = 1)
  cStr_none : ∀ x, s.holder x = some none → h.cStr x = some [0]
  cStr_some : ∀ x b, s.holder x = some (some b) →
    ∃ d, s.value b = some d ∧ h.cStr x = some (d ++ [0])

/-- The meanings of the calls `ops`, each in the heap that it finds. -/
def Heap.meanings (h : Heap) : List StringOp → List SharedOp
  | [] => []
  | op :: ops => h.meaning op :: (h.next op).elim [] fun h' => h'.meanings ops

/-- No objects and no texts. -/
def noTexts : SharedTexts := ⟨fun _ => none, fun _ => none⟩

namespace Ownership

variable {A : Ownership} {t : DebugTrace} {x : ObjectId} {b : UIntPtr}

theorem ncard_holders : (A.shared.holders b).ncard = (A.owners b).length := by
  have hset : A.shared.holders b = ((A.owners b).toFinset : Set ObjectId) := by
    ext x
    simp only [SharedValues.holders, holder_eq_some_iff, Set.mem_ofPred_eq, List.coe_toFinset]
  rw [hset, Set.ncard_coe_finset, List.toFinset_card_of_nodup (A.nodup b)]

theorem cStr_of_mem {d : List UInt8} (hx : x ∈ A.owners b) (hd : A.data b = some d) :
    (A.heap t).cStr x = some d := by
  have hp := pointer_of_mem hx
  simp only [Heap.cStr, heap_strings hp, Option.bind_eq_bind, Option.bind_some,
    pointer_ownerRecord hp, if_neg (A.ne_zero b d hd), heap_blocks hd]
  rfl

/-- **The observers on the heap of a bookkeeping.** -/
theorem shows_heap : (A.heap t).Shows A.shared where
  shared := shared_heap
  hasValue := by
    intro x o ho
    obtain ⟨p, hp, rfl⟩ := Option.map_eq_some_iff.mp ho
    simp only [Heap.hasValue, heap_strings hp, Option.bind_eq_bind, Option.bind_some,
      pointer_ownerRecord hp]
    by_cases hzero : p = 0
    · rw [hzero, asBlock_zero]
      rfl
    · rw [asBlock_of_ne hzero, bne_iff_ne.mpr hzero]
      rfl
  unique := by
    intro x o ho
    obtain ⟨p, hp, rfl⟩ := Option.map_eq_some_iff.mp ho
    refine ⟨p != 0 && (A.owners p).length == 1, ?_, ?_⟩
    · simp only [Heap.unique, heap_strings hp, Option.bind_eq_bind, Option.bind_some,
        pointer_ownerRecord hp, unique_ownerRecord hp]
      rfl
    · simp only [Bool.and_eq_true, bne_iff_ne, beq_iff_eq, asBlock_eq_some_iff, ncard_holders]
      constructor
      · rintro ⟨hne, hlen⟩
        exact ⟨p, ⟨hne, rfl⟩, hlen⟩
      · rintro ⟨b, ⟨hne, rfl⟩, hlen⟩
        exact ⟨hne, hlen⟩
  cStr_none := by
    intro x ho
    obtain ⟨p, hp, hnone⟩ := Option.map_eq_some_iff.mp ho
    have hzero : p = 0 := by
      by_contra hne
      cases (asBlock_of_ne hne).symm.trans hnone
    simp only [Heap.cStr, heap_strings hp, Option.bind_eq_bind, Option.bind_some,
      pointer_ownerRecord hp, if_pos hzero]
    rfl
  cStr_some := by
    intro x b ho
    have hmem := holder_eq_some_iff.mp ho
    obtain ⟨d, hd⟩ := Option.isSome_iff_exists.mp (A.isSome_data b x hmem)
    refine ⟨d.dropLast, congrArg (Option.map List.dropLast) hd, ?_⟩
    rw [cStr_of_mem hmem hd, List.dropLast_append_getLast? 0 (A.terminated b d hd)]

theorem fresh_textMeaning {text : Text} {storage : Option UIntPtr} {null : SharedOp}
    (hnull : null.Fresh A.shared) (hacc : (A.heap t).acceptsText storage text) :
    ((A.heap t).textMeaning x storage null text).Fresh A.shared := by
  by_cases hne : text = .cString none
  · subst hne
    exact hnull
  obtain ⟨value, length, d, -, hmay, hd, -⟩ := readable_of_acceptsText hacc hne
  rw [Heap.textMeaning_of_ne hne, hd]
  cases storage with
  | none => trivial
  | some b =>
    simp only [Heap.mayReturn, Bool.and_eq_true, Option.isNone_iff_eq_none] at hmay
    change (A.data b).map _ = none
    rw [Option.map_eq_none_iff.mp hmay.1.2, Option.map_none]

/-- A text operation puts its text into a new block. -/
theorem fresh_meaning {op : StringOp} (hop : (A.heap t).legal op) :
    ((A.heap t).meaning op).Fresh A.shared := by
  cases op with
  | constructText this text storage =>
    simp only [Heap.legal, Bool.and_eq_true] at hop
    exact fresh_textMeaning trivial hop.2
  | assignText this text replacement storage =>
    simp only [Heap.legal, Bool.and_eq_true] at hop
    exact fresh_textMeaning trivial hop.2
  | _ => trivial

end Ownership

/-! ## Runs -/

/-- One legal call, as a program sees it. -/
theorem shared_next {h h' : Heap} {op : StringOp} (hh : h.Represented)
    (hnext : h.next op = some h') : h'.shared = h.shared.apply (h.meaning op) := by
  obtain ⟨A, t, rfl, hA⟩ := hh
  rw [Heap.next] at hnext
  split at hnext
  · next hop =>
    obtain ⟨r, hr, A', t', hA', -, hshared⟩ := Ownership.perform_becomes hA hop
    rw [hr, Option.map_some] at hnext
    obtain rfl := Option.some.inj hnext
    rw [hA', Ownership.shared_heap, hshared, Ownership.shared_heap]
  · cases hnext

/-- The observers answer what the shared texts say. -/
theorem Heap.Represented.shows {h : Heap} (hh : h.Represented) : h.Shows h.shared := by
  obtain ⟨A, t, rfl, -⟩ := hh
  rw [Ownership.shared_heap]
  exact Ownership.shows_heap

theorem Heap.Represented.live {h : Heap} (hh : h.Represented) : h.shared.Live := by
  obtain ⟨A, t, rfl, hA⟩ := hh
  rw [Ownership.shared_heap]
  exact hA.live

theorem perform_of_next {h h' : Heap} {op : StringOp} (hnext : h.next op = some h') :
    h.legal op ∧ ∃ r, h.perform op = some r ∧ Heap.after r = h' := by
  rw [Heap.next] at hnext
  split at hnext
  · rename_i hop
    exact ⟨hop, Option.map_eq_some_iff.mp hnext⟩
  · cases hnext

theorem fresh_of_legal {h : Heap} {op : StringOp} (hh : h.Represented) (hop : h.legal op) :
    (h.meaning op).Fresh h.shared := by
  obtain ⟨A, t, rfl, -⟩ := hh
  rw [Ownership.shared_heap]
  exact Ownership.fresh_meaning hop

theorem cStr_of_absent {h : Heap} {z : ObjectId} (hz : h.shared.holder z = none) :
    h.cStr z = none := by
  rw [Heap.cStr, Option.map_eq_none_iff.mp hz]
  rfl

/-- An object that a call does not name keeps its block and its characters. -/
theorem next_keeps {h h' : Heap} {op : StringOp} {z : ObjectId} (hh : h.Represented)
    (hnext : h.next op = some h') (hz : z ∉ (h.meaning op).targets) :
    h'.shared.holder z = h.shared.holder z ∧ h'.cStr z = h.cStr z := by
  have hshared := shared_next hh hnext
  have hkeep : h'.shared.holder z = h.shared.holder z := by
    rw [hshared, SharedValues.holder_apply_of_notMem hz]
  refine ⟨hkeep, ?_⟩
  have hshows := hh.shows
  have hshows' := (represented_next hh hnext).shows
  rcases hholder : h.shared.holder z with - | (- | b)
  · rw [cStr_of_absent hholder, cStr_of_absent (hkeep.trans hholder)]
  · rw [hshows.cStr_none z hholder, hshows'.cStr_none z (hkeep.trans hholder)]
  · obtain ⟨d, hd, hcStr⟩ := hshows.cStr_some z b hholder
    obtain ⟨d', hd', hcStr'⟩ := hshows'.cStr_some z b (hkeep.trans hholder)
    have hfresh := fresh_of_legal hh (perform_of_next hnext).1
    rw [hshared, SharedValues.value_apply hh.live hfresh hz hholder, hd] at hd'
    rw [hcStr, hcStr', Option.some.inj hd']

/-- No legal call is undefined. -/
theorem exists_next {h : Heap} {op : StringOp} (hh : h.Represented) (hop : h.legal op) :
    ∃ h', h.next op = some h' := by
  obtain ⟨A, t, rfl, hA⟩ := hh
  obtain ⟨r, hr, -⟩ := Ownership.perform_becomes hA hop
  exact ⟨Heap.after r, by rw [Heap.next, if_pos hop, hr, Option.map_some]⟩

theorem shared_run {h h' : Heap} {ops : List StringOp} (hh : h.Represented)
    (hrun : run Heap.next h ops = some h') :
    h'.shared = (h.meanings ops).foldl SharedValues.apply h.shared := by
  induction ops generalizing h with
  | nil =>
    obtain rfl := Option.some.inj hrun
    rfl
  | cons op ops ih =>
    obtain ⟨m, hm, hrest⟩ := run_cons_eq_some.mp hrun
    rw [Heap.meanings, List.foldl_cons, ← shared_next hh hm, hm]
    exact ih (represented_next hh hm) hrest

/-- **Every run of calls is the run of their meanings.** The last part says of one more call that
it means what `Heap.meaning` says, takes a new block for a new text, and leaves the block and the
characters of every other object as they are. -/
theorem run_refines (t : DebugTrace) (ops : List StringOp) (h : Heap)
    (hrun : run Heap.next (Heap.start t) ops = some h) :
    h.Shows (((Heap.start t).meanings ops).foldl SharedValues.apply noTexts) ∧
      ∀ op, h.legal op → ∃ r, h.perform op = some r ∧
        (h.meaning op).Fresh h.shared ∧
        (Heap.after r).Shows (h.shared.apply (h.meaning op)) ∧
        ∀ z o, z ∉ (h.meaning op).targets → h.shared.holder z = some o →
          (Heap.after r).shared.holder z = some o ∧ (Heap.after r).cStr z = h.cStr z := by
  have hshared := shared_run (represented_start t) hrun
  have hh := represented_run hrun
  have hstart : (Heap.start t).shared = noTexts := rfl
  refine ⟨?_, fun op hop => ?_⟩
  · rw [← hstart, ← hshared]
    exact hh.shows
  · obtain ⟨h', hnext⟩ := exists_next hh hop
    obtain ⟨-, r, hr, rfl⟩ := perform_of_next hnext
    refine ⟨r, hr, fresh_of_legal hh hop, ?_, fun z o hz ho => ?_⟩
    · rw [← shared_next hh hnext]
      exact (represented_next hh hnext).shows
    · obtain ⟨hkeep, hcStr⟩ := next_keeps hh hnext hz
      exact ⟨hkeep.trans ho, hcStr⟩

/-- Assignments between owners of one block, to oneself, and of a text. -/
def assignmentRun : List StringOp :=
  [.constructText 0 (.view (some (.outside [97, 98, 99])) 2) (some 4096), .copyConstruct 1 0,
    .copyAssign 0 1, .moveAssign 1 1, .moveAssign 0 1, .defaultConstruct 2,
    .assignText 2 (.cString (some (.outside [120, 0]))) 3 (some 8192), .swap 0 2, .swap 1 1]

/-- After `assignmentRun` object 1 is null and the two texts have changed places. -/
theorem run_refines_assignmentRun :
    ∃ h, run Heap.next (Heap.start ⟨false, none, fun _ => []⟩) assignmentRun = some h ∧
      h.Shows (((Heap.start ⟨false, none, fun _ => []⟩).meanings assignmentRun).foldl
        SharedValues.apply noTexts) ∧
      h.unique 0 = some true ∧ h.hasValue 1 = some false ∧ h.cStr 0 = some [120, 0] ∧
      h.cStr 2 = some [97, 98, 0] := by
  have hfacts : (run Heap.next (Heap.start ⟨false, none, fun _ => []⟩) assignmentRun).map
      (fun h => (h.unique 0, h.hasValue 1, h.cStr 0, h.cStr 2)) =
        some (some true, some false, some [120, 0], some [97, 98, 0]) := by rfl
  obtain ⟨h, hrun, hh⟩ := Option.map_eq_some_iff.mp hfacts
  simp only [Prod.mk.injEq] at hh
  exact ⟨h, hrun, (run_refines _ assignmentRun h hrun).1, hh⟩

end Doost.Strings
