import Doost.Strings.Renaming

/-!
# The private operations on valid heaps

On the heap of an `Ownership` each private operation of `String` has a defined result, the heap of
the changed bookkeeping: `attach_heap`, `detach_heap`, `moveFrom_heap` and `swap_heap`.
-/

namespace Doost.Strings

open Neighbours

/-! ## The line in the debug trace -/

theorem printEscaped_eq {d : List UInt8} (hd : 0 ∈ d) :
    printEscaped d = some ((Heap.cText d).flatMap escaped) := by
  induction d with
  | nil => exact absurd hd List.not_mem_nil
  | cons c d ih =>
    by_cases hc : c = 0
    · simp [printEscaped, Heap.cText, hc]
    · have hd' : 0 ∈ d := (List.mem_cons.mp hd).resolve_left (Ne.symm hc)
      simp [printEscaped, Heap.cText, hc, ih hd']

/-- The trace after the release of a block with the characters `d`. -/
def DebugTrace.written (t : DebugTrace) (d : List UInt8) : DebugTrace :=
  if t.enabled then
    match t.stream with
    | some stream =>
      t.write stream
        (ascii "String release: \"" ++ (Heap.cText d).flatMap escaped ++ ascii "\"\n")
    | none => t
  else t

theorem DebugTrace.release_eq (t : DebugTrace) {d : List UInt8} (hd : 0 ∈ d) :
    t.release d = some (t.written d) := by
  rw [DebugTrace.release, DebugTrace.written, printEscaped_eq hd]
  split
  · cases t.stream <;> rfl
  · rfl

namespace Ownership

section Compare

variable {A A' : Ownership} {t t' : DebugTrace} {f : ObjectId → StringObject → StringObject}
  {g : UIntPtr → Block → Block}

theorem mapAll_heap_strings (hnone : ∀ z, A.pointer z = none → A'.pointer z = none)
    (hsome : ∀ z c, A.pointer z = some c →
      ∃ c', A'.pointer z = some c' ∧
        f z (ownerRecord c (A.owners c) z) = ownerRecord c' (A'.owners c') z) :
    ((A.heap t).mapAll f g).strings = (A'.heap t').strings := by
  funext z
  change ((A.pointer z).map _).map _ = (A'.pointer z).map _
  cases hz : A.pointer z with
  | none => rw [hnone z hz]; rfl
  | some c =>
    obtain ⟨c', hc', hf⟩ := hsome z c hz
    rw [hc', Option.map_some, Option.map_some, hf, Option.map_some]

theorem mapAll_heap_blocks (hdata : A'.data = A.data)
    (hfirst : ∀ c d, A.data c = some d →
      g c ⟨(A.owners c).head?, d⟩ = ⟨(A'.owners c).head?, d⟩) :
    ((A.heap t).mapAll f g).blocks = (A'.heap t').blocks := by
  funext c
  change ((A.data c).map _).map _ = (A'.data c).map _
  rw [hdata]
  cases hc : A.data c with
  | none => rfl
  | some d => rw [Option.map_some, Option.map_some, hfirst c d hc, Option.map_some]

end Compare

theorem attach_zero_heap {A : Ownership} {x : ObjectId} (hx : A.pointer x = some 0)
    (t : DebugTrace) : (A.heap t).attach x 0 = some (A.heap t) := by
  have hlive : ((A.heap t).strings x).isSome := by rw [isSome_heap_strings, hx]; rfl
  simp only [Heap.attach, Heap.modifyString_eq hlive, Option.bind_eq_bind, Option.bind_some,
    if_pos]
  refine congrArg some (Heap.ext ?_ ?_ rfl)
  · refine mapAll_heap_strings (fun z hz => hz) fun z c hz => ⟨c, hz, ?_⟩
    by_cases hzx : z = x
    · obtain rfl : c = 0 := Option.some.inj (hz.symm.trans (hzx ▸ hx))
      rw [if_pos hzx, ← TaggedBlockPointer.reset_eq, owners_zero, ownerRecord_zero]
      rfl
    · rw [if_neg hzx]
  · exact mapAll_heap_blocks rfl fun c d _ => rfl

section Attach

variable {A : Ownership} {x : ObjectId} {b : UIntPtr} (hx : A.pointer x = some 0)
  (hb : (A.data b).isSome)

theorem attach_heap (t : DebugTrace) :
    (A.heap t).attach x b = some ((A.attach x b hx hb).heap t) := by
  obtain ⟨d, hd⟩ := Option.isSome_iff_exists.mp hb
  have hlive : ((A.heap t).strings x).isSome := by rw [isSome_heap_strings, hx]; rfl
  have hfirst : ∀ f, (A.owners b).head? = some f → (A.pointer f).isSome := fun f hf => by
    rw [pointer_of_mem (List.mem_of_mem_head? hf)]; rfl
  have hxb : x ∉ A.owners b := A.notMem_owners_of_null hx b
  simp only [Heap.attach, Heap.modifyString_eq hlive, Option.bind_eq_bind, Option.bind_some,
    if_neg (A.ne_zero b d hd), Heap.mapAll_blocks, heap_blocks hd, Option.map_some]
  rw [Heap.modifyString_eq (by simp [hx]), Option.bind_some,
    Heap.modifyPointee_eq (by simpa using hfirst), Option.bind_some,
    Heap.setFirst_eq (by simp [hd]), Option.bind_some, Heap.modifyString_eq (by simp [hx])]
  simp only [Heap.mapAll_mapAll]
  refine congrArg some (Heap.ext ?_ ?_ rfl)
  · refine mapAll_heap_strings (fun z hz => ?_) fun z c hz => ?_
    · have hzx : z ≠ x := by
        rintro rfl
        cases hx.symm.trans hz
      exact (Function.update_of_ne hzx ..).trans hz
    · by_cases hzx : z = x
      · subst hzx
        refine ⟨b, Function.update_self .., ?_⟩
        have hzf : (A.owners b).head? ≠ some z := fun h => hxb (List.mem_of_mem_head? h)
        simp only [attach, Function.update_self, ownerRecord_cons_self hxb, if_pos, if_neg hzf,
          TaggedBlockPointer.setUnique_set (A.even b d hd)]
      · refine ⟨c, (Function.update_of_ne hzx ..).trans hz, ?_⟩
        simp only [if_neg hzx]
        by_cases hzf : (A.owners b).head? = some z
        · obtain rfl : c = b :=
            Option.some.inj (hz.symm.trans (pointer_of_mem (List.mem_of_mem_head? hzf)))
          simp only [attach, Function.update_self, ownerRecord_cons_first hxb hzf, if_pos hzf]
          rw [ownerRecord, TaggedBlockPointer.setUnique_set (A.even c d hd)]
        · rw [if_neg hzf]
          by_cases hc : c = b
          · subst hc
            have hzm := mem_owners_of_pointer hz (A.ne_zero c d hd)
            simp only [attach, Function.update_self, ownerRecord_cons_other hzx hzm hzf]
          · simp only [attach, Function.update_of_ne hc]
  · refine mapAll_heap_blocks rfl fun c e _ => ?_
    by_cases hc : c = b
    · simp [hc, attach]
    · simp [hc, attach]

end Attach

section Detach

variable {A : Ownership} {x : ObjectId} {t : DebugTrace}

theorem detach_of_null (hx : A.pointer x = some 0) : A.detach x = A := by
  refine Ownership.ext ?_ ?_ ?_
  · funext z
    by_cases hz : z = x
    · simp [detach, hz, hx]
    · simp [detach, hz]
  · funext b
    exact List.erase_of_not_mem (A.notMem_owners_of_null hx b)
  · funext b
    have hb : A.owners b ≠ [x] := fun h =>
      A.notMem_owners_of_null hx b (h ▸ List.mem_cons_self)
    exact if_neg hb

section Other

variable {b c : UIntPtr} (hx : A.pointer x = some b) (hc : c ≠ b)

include hx hc

theorem owners_detach_of_ne : (A.detach x).owners c = A.owners c :=
  List.erase_of_not_mem (notMem_owners hx hc.symm)

theorem data_detach_of_ne : (A.detach x).data c = A.data c := by
  rw [detach_data, if_neg]
  intro hl
  exact notMem_owners hx hc.symm (hl ▸ List.mem_cons_self)

end Other

/-- `x` is out of the chain of `b`: it is null, the other owners of `b` are chained in the order
of `l` with the uniqueness bit `u`, and all else is as it was. -/
structure Unlinked (A : Ownership) (t : DebugTrace) (x : ObjectId) (b : UIntPtr)
    (l : List ObjectId) (d : List UInt8) (u : Bool) (h : Heap) : Prop where
  trace : h.trace = t
  self : h.strings x = some .null
  owner : ∀ z ∈ l, h.strings z = some ⟨.set b u, prevIn l z, nextIn l z⟩
  other : ∀ z, z ≠ x → z ∉ l → h.strings z = (A.heap t).strings z
  block : h.blocks b = some ⟨l.head?, d⟩
  otherBlock : ∀ c, c ≠ b → h.blocks c = (A.heap t).blocks c

theorem detach_unlinked {b : UIntPtr} {l₁ l₂ : List ObjectId} {d : List UInt8}
    (hl : A.owners b = l₁ ++ x :: l₂) (hd : A.data b = some d) :
    ∃ h, (A.heap t).detach x = h.settleBlock b ∧ A.Unlinked t x b (l₁ ++ l₂) d false h := by
  have hnd : (l₁ ++ x :: l₂).Nodup := hl ▸ A.nodup b
  have hmem : x ∈ A.owners b := hl ▸ List.mem_append_right _ List.mem_cons_self
  have hx := pointer_of_mem hmem
  have hlive : ∀ z ∈ l₁ ++ l₂, (A.pointer z).isSome := fun z hz => by
    rw [pointer_of_mem (b := b) (hl ▸ by simp at hz ⊢; tauto)]; rfl
  have hprev : ∀ p, l₁.getLast? = some p → ((A.heap t).strings p).isSome := fun p hp => by
    rw [isSome_heap_strings]
    exact hlive p (List.mem_append_left _ (List.mem_of_getLast? hp))
  have hnext : ∀ n, l₂.head? = some n → ((A.heap t).strings n).isSome := fun n hn => by
    rw [isSome_heap_strings]
    exact hlive n (List.mem_append_right _ (List.mem_of_mem_head? hn))
  have hxs : (A.heap t).strings x =
      some ⟨.set b ((l₁ ++ x :: l₂).length == 1), l₁.getLast?, l₂.head?⟩ := by
    rw [heap_strings hx, hl, ownerRecord_middle hnd]
  have hxl : x ∉ l₁ ++ l₂ := (List.nodup_middle.mp hnd |> List.nodup_cons.mp).1
  have hpx : l₁.getLast? ≠ some x := fun h =>
    hxl (List.mem_append_left _ (List.mem_of_getLast? h))
  simp only [Heap.detach, hxs, Option.bind_eq_bind, Option.bind_some,
    TaggedBlockPointer.pointer_set (A.even b d hd), if_neg (A.ne_zero b d hd)]
  rw [Heap.setForward_eq (by simp [hd]) hprev, Option.bind_some]
  simp only [Heap.mapAll_strings, hxs, Option.map_some, if_neg hpx, Option.bind_some]
  rw [Heap.modifyPointee_eq (by simpa using hnext), Option.bind_some,
    Heap.modifyString_eq (by simp [hx]), Option.bind_some]
  refine ⟨_, rfl, rfl, ?_, fun z hz => ?_, fun z hzx hzl => ?_, ?_, fun c hc => ?_⟩
  · simp [hxs, StringObject.null]
  · have hzx : z ≠ x := fun h => hxl (h ▸ hz)
    have hzb : z ∈ A.owners b := by
      rw [hl]
      simp only [List.mem_append, List.mem_cons] at hz ⊢
      exact hz.imp_right .inr
    simp only [Heap.mapAll_strings, heap_strings (pointer_of_mem hzb), Option.map_some,
      if_neg hzx, hl]
    rw [ownerRecord_remove hnd hz]
    split <;> split <;> rfl
  · have hzp : l₁.getLast? ≠ some z := fun h =>
      hzl (List.mem_append_left _ (List.mem_of_getLast? h))
    have hzn : l₂.head? ≠ some z := fun h =>
      hzl (List.mem_append_right _ (List.mem_of_mem_head? h))
    simp [hzx, hzp, hzn]
  · simp only [Heap.mapAll_blocks, heap_blocks hd, Option.map_some, hl]
    cases l₁ <;> simp
  · simp [hc]

section Unlinked

variable {b : UIntPtr} {l : List ObjectId} {d : List UInt8} {u : Bool} {h : Heap}
  (hx : A.pointer x = some b) (hl : (A.owners b).erase x = l) (hb : b ≠ 0)

include hx hl

theorem Unlinked.strings_detach (hU : A.Unlinked t x b l d u h) (hb : b ≠ 0)
    (hu : l ≠ [] → u = (l.length == 1)) (t' : DebugTrace) :
    h.strings = ((A.detach x).heap t').strings := by
  funext z
  by_cases hzx : z = x
  · subst hzx
    rw [hU.self, heap_strings_null]
    simp [detach, hx]
  · have hpz : (A.detach x).pointer z = A.pointer z := if_neg hzx
    by_cases hzl : z ∈ l
    · have hz := pointer_of_mem (List.mem_of_mem_erase (hl ▸ hzl : z ∈ (A.owners b).erase x))
      rw [hU.owner z hzl, heap_strings (hpz.trans hz), ownerRecord,
        hu (List.ne_nil_of_mem hzl)]
      simp only [detach, hl]
    · rw [hU.other z hzx hzl]
      change (A.pointer z).map _ = ((A.detach x).pointer z).map _
      rw [hpz]
      refine Option.map_congr fun c hz => ?_
      have hcb : c ≠ b := by
        rintro rfl
        exact hzl (hl ▸ ((A.nodup c).mem_erase_iff.mpr ⟨hzx, mem_owners_of_pointer hz hb⟩))
      rw [owners_detach_of_ne hx hcb]

theorem Unlinked.blocks_detach (hU : A.Unlinked t x b l d u h) (hd : A.data b = some d)
    (hne : l ≠ []) (t' : DebugTrace) : h.blocks = ((A.detach x).heap t').blocks := by
  funext c
  by_cases hc : c = b
  · subst hc
    have hdata : (A.detach x).data c = some d := by
      rw [detach_data, if_neg, hd]
      intro hxs
      rw [hxs, List.erase_cons_head] at hl
      exact hne hl.symm
    rw [hU.block, heap_blocks hdata]
    simp only [detach, hl]
  · rw [hU.otherBlock c hc]
    change (A.data c).map _ = ((A.detach x).data c).map _
    rw [data_detach_of_ne hx hc, owners_detach_of_ne hx hc]

theorem Unlinked.settle_shared (hU : A.Unlinked t x b l d false h) (hd : A.data b = some d)
    (hne : l ≠ []) : h.settleBlock b = some ((A.detach x).heap t) := by
  have hb := A.ne_zero b d hd
  obtain ⟨f, l, rfl⟩ := List.exists_cons_of_ne_nil hne
  have hf := hU.owner f List.mem_cons_self
  simp only [Heap.settleBlock, hU.block, Option.bind_eq_bind, Option.bind_some, List.head?_cons,
    hf, nextIn_cons, if_pos]
  cases l with
  | nil =>
    rw [List.head?_nil, if_pos rfl, Heap.modifyString_eq (by rw [hf]; rfl)]
    have hU' : A.Unlinked t x b [f] d true (h.mapAll (fun z s =>
        if z = f then { s with block := s.block.setUnique true } else s) fun _ k => k) := by
      have hxf : x ≠ f := by
        rintro rfl
        exact (A.nodup b).not_mem_erase (hl ▸ List.mem_cons_self)
      refine ⟨hU.trace, ?_, fun z hz => ?_, fun z hzx hzl => ?_, ?_, fun c hc => ?_⟩
      · simp [hU.self, hxf]
      · obtain rfl := List.mem_singleton.mp hz
        simp [hf, TaggedBlockPointer.setUnique_set (A.even b d hd)]
      · have hzf : z ≠ f := fun h => hzl (List.mem_singleton.mpr h)
        simp [hzf, hU.other z hzx hzl]
      · simp [hU.block]
      · simp [hU.otherBlock c hc]
    exact congrArg some (Heap.ext (hU'.strings_detach hx hl hb (fun _ => rfl) t)
      (hU'.blocks_detach hx hl hd hne t) hU.trace)
  | cons g l =>
    rw [List.head?_cons, if_neg (by simp)]
    exact congrArg some (Heap.ext (hU.strings_detach hx hl hb (fun _ => rfl) t)
      (hU.blocks_detach hx hl hd hne t) hU.trace)

omit hl in
theorem Unlinked.settle_last (hU : A.Unlinked t x b [] d u h) (hl : A.owners b = [x])
    (hd : A.data b = some d) : h.settleBlock b = some ((A.detach x).heap (t.written d)) := by
  have hb := A.ne_zero b d hd
  have hrelease := DebugTrace.release_eq t (List.mem_of_getLast? (A.terminated b d hd))
  simp only [Heap.settleBlock, hU.block, Option.bind_eq_bind, Option.bind_some, List.head?_nil,
    Heap.releaseBlock, hU.trace, hrelease]
  refine congrArg some (Heap.ext ?_ ?_ rfl)
  · exact hU.strings_detach hx (by rw [hl, List.erase_cons_head]) hb (fun h => absurd rfl h) _
  · funext c
    by_cases hc : c = b
    · subst hc
      change Function.update h.blocks c none c = ((A.detach x).data c).map _
      rw [Function.update_self, detach_data, if_pos hl]
      rfl
    · change Function.update h.blocks b none c = ((A.detach x).data c).map _
      rw [Function.update_of_ne hc, hU.otherBlock c hc, data_detach_of_ne hx hc,
        owners_detach_of_ne hx hc]
      rfl

end Unlinked

/-- The characters of the block that goes when `x` lets go of it. -/
def lastText (A : Ownership) (x : ObjectId) : Option (List UInt8) := do
  let b ← A.pointer x
  if A.owners b = [x] then A.data b else none

theorem lastText_of_null (hx : A.pointer x = some 0) : A.lastText x = none := by
  have hne : A.owners 0 ≠ [x] := by
    rw [owners_zero]
    simp
  simp only [lastText, hx, Option.bind_eq_bind, Option.bind_some, if_neg hne]

/-- **`detach` takes `x` out of its chain**, and writes a line to the trace when the chain is
empty then. -/
theorem detach_heap {b : UIntPtr} (hx : A.pointer x = some b) :
    (A.heap t).detach x = some ((A.detach x).heap ((A.lastText x).elim t t.written)) := by
  by_cases hb : b = 0
  · subst hb
    rw [detach_of_null hx, lastText_of_null hx]
    simp [Heap.detach, heap_strings_null hx, StringObject.null]
  · have hmem := mem_owners_of_pointer hx hb
    obtain ⟨d, hd⟩ := Option.isSome_iff_exists.mp (A.isSome_data b x hmem)
    obtain ⟨l₁, l₂, hl⟩ := List.append_of_mem hmem
    have hxl₁ : x ∉ l₁ := fun h =>
      (List.nodup_append.mp (hl ▸ A.nodup b)).2.2 x h x List.mem_cons_self rfl
    have herase : (A.owners b).erase x = l₁ ++ l₂ := by
      rw [hl, List.erase_append_right _ hxl₁, List.erase_cons_head]
    obtain ⟨h, hdetach, hU⟩ := detach_unlinked (t := t) hl hd
    rw [hdetach]
    by_cases hne : l₁ ++ l₂ = []
    · obtain ⟨rfl, rfl⟩ := List.append_eq_nil_iff.mp hne
      rw [hU.settle_last hx hl hd]
      simp [lastText, hx, hl, hd]
    · have hnot : A.owners b ≠ [x] := by
        intro h
        rw [h, List.erase_cons_head] at herase
        exact hne herase.symm
      rw [hU.settle_shared hx herase hd hne]
      simp [lastText, hx, hnot]

end Detach

/-! ## Exchanging two identities -/

section Exchange

variable {A : Ownership} {t : DebugTrace} {x y z : ObjectId} {a b c : UIntPtr}

/-- The neighbours of `x` point back at it, and nobody else does. -/
theorem nextIn_owners_iff (hx : A.pointer x = some a) (hz : A.pointer z = some c) :
    nextIn (A.owners a) x = some z ↔ prevIn (A.owners c) z = some x := by
  constructor
  · intro h
    obtain rfl := Option.some.inj ((pointer_of_mem (mem_of_nextIn h)).symm.trans hz)
    exact (nextIn_eq_some_iff (A.nodup a)).mp h
  · intro h
    obtain rfl := Option.some.inj ((pointer_of_mem (mem_of_prevIn h)).symm.trans hx)
    exact (nextIn_eq_some_iff (A.nodup c)).mpr h

/-- `block->first` is `x` exactly when `x` owns the block and nobody points forward to it. -/
theorem head?_owners_iff (hx : A.pointer x = some a) (hc : c ≠ 0) :
    (A.owners c).head? = some x ↔ prevIn (A.owners a) x = none ∧ c = a := by
  constructor
  · intro h
    have hmem := List.mem_of_mem_head? h
    obtain rfl := Option.some.inj ((pointer_of_mem hmem).symm.trans hx)
    exact ⟨(prevIn_eq_none_iff hmem (A.nodup c)).mpr h, rfl⟩
  · rintro ⟨h, rfl⟩
    exact (prevIn_eq_none_iff (mem_owners_of_pointer hx hc) (A.nodup c)).mp h

/-- **The links in the heap of a bookkeeping.** -/
theorem linked_heap (A : Ownership) (t : DebugTrace) : (A.heap t).Linked where
  null := by
    intro x s hs hzero
    obtain ⟨c, hc, rfl⟩ := Option.map_eq_some_iff.mp hs
    rw [pointer_ownerRecord hc] at hzero
    rw [hzero, owners_zero, ownerRecord_zero]
  live := by
    intro x s hs hne
    obtain ⟨c, hc, rfl⟩ := Option.map_eq_some_iff.mp hs
    rw [pointer_ownerRecord hc] at hne ⊢
    rw [isSome_heap_blocks]
    exact A.isSome_data c x (mem_owners_of_pointer hc hne)
  blocks_zero := by
    rw [← Option.not_isSome_iff_eq_none, isSome_heap_blocks]
    intro hd
    obtain ⟨d, hd⟩ := Option.isSome_iff_exists.mp hd
    exact A.ne_zero 0 d hd rfl
  first_mem := by
    intro b k x hk hfirst
    obtain ⟨d, hd, rfl⟩ := Option.map_eq_some_iff.mp hk
    rw [isSome_heap_strings, pointer_of_mem (List.mem_of_mem_head? hfirst)]
    rfl
  next_iff := by
    intro x s y s' hs hs'
    obtain ⟨c, hc, rfl⟩ := Option.map_eq_some_iff.mp hs
    obtain ⟨d, hd, rfl⟩ := Option.map_eq_some_iff.mp hs'
    exact nextIn_owners_iff hc hd
  next_mem := by
    intro x s y hs hlink
    obtain ⟨c, hc, rfl⟩ := Option.map_eq_some_iff.mp hs
    have hy := pointer_of_mem (mem_of_nextIn hlink)
    refine ⟨?_, _, heap_strings hy, ?_⟩
    · rintro rfl
      exact nextIn_ne_self (A.nodup c) y hlink
    · rw [pointer_ownerRecord hy, pointer_ownerRecord hc]
  previous_mem := by
    intro x s y hs hlink
    obtain ⟨c, hc, rfl⟩ := Option.map_eq_some_iff.mp hs
    have hy := pointer_of_mem (mem_of_prevIn hlink)
    refine ⟨?_, _, heap_strings hy, ?_⟩
    · rintro rfl
      exact prevIn_ne_self (A.nodup c) y hlink
    · rw [pointer_ownerRecord hy, pointer_ownerRecord hc]
  first_iff := by
    intro b k x s hk hs
    obtain ⟨d, hd, rfl⟩ := Option.map_eq_some_iff.mp hk
    obtain ⟨c, hc, rfl⟩ := Option.map_eq_some_iff.mp hs
    rw [pointer_ownerRecord hc, eq_comm (a := c)]
    exact head?_owners_iff hc (A.ne_zero b d hd)

/-- Exchanging two identities in the bookkeeping renames the objects of its heap. -/
theorem heap_exchange (A : Ownership) (x y : ObjectId) :
    (A.exchange x y).heap t = (A.heap t).rename (Equiv.swap x y) := by
  have hinj := (Equiv.swap x y).injective
  refine Heap.ext ?_ ?_ rfl
  · funext z
    rw [Heap.rename_strings, Equiv.symm_swap]
    change (A.pointer (Equiv.swap x y z)).map _ = ((A.pointer (Equiv.swap x y z)).map _).map _
    rw [Option.map_map]
    refine congrArg (fun f => (A.pointer (Equiv.swap x y z)).map f) (funext fun c => ?_)
    have hprevious := prevIn_map hinj (A.owners c) (Equiv.swap x y z)
    have hnext := nextIn_map hinj (A.owners c) (Equiv.swap x y z)
    rw [Equiv.swap_apply_self] at hprevious hnext
    simp only [Function.comp_apply, ownerRecord, StringObject.rename, exchange_owners,
      List.length_map, hprevious, hnext]
  · funext c
    rw [Heap.rename_blocks]
    change (A.data c).map _ = ((A.data c).map _).map _
    rw [Option.map_map]
    refine congrArg (fun f => (A.data c).map f) (funext fun d => ?_)
    rw [Function.comp_apply, Block.rename, exchange_owners, List.head?_map]

theorem swap_heap_of_eq (hx : A.pointer x = some a) (hy : A.pointer y = some a) :
    (A.heap t).swap x y = some (A.heap t) :=
  Heap.Linked.swap_of_eq (heap_strings hx) (heap_strings hy)
    (by rw [pointer_ownerRecord hx, pointer_ownerRecord hy])

/-- **`swap` of owners of different blocks exchanges their identities.** -/
theorem swap_heap (hx : A.pointer x = some a) (hy : A.pointer y = some b) (hab : a ≠ b) :
    (A.heap t).swap x y = some ((A.exchange x y).heap t) := by
  rw [heap_exchange]
  refine (A.linked_heap t).swap_eq (heap_strings hx) (heap_strings hy) ?_
  rwa [pointer_ownerRecord hx, pointer_ownerRecord hy]

/-- **`move_from` into a null `String` exchanges the identities.** -/
theorem moveFrom_heap (hx : A.pointer x = some 0) (hy : A.pointer y = some b) (hxy : x ≠ y) :
    (A.heap t).moveFrom x y = some ((A.exchange x y).heap t) := by
  rw [heap_exchange]
  exact (A.linked_heap t).moveFrom_eq (heap_strings_null hx) (heap_strings hy) hxy

end Exchange

end Ownership

end Doost.Strings
