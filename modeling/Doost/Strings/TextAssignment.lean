import Doost.Strings.Refinement

/-!
# Text assignment

`s = t` constructs a temporary from `t`, swaps it with `s` and destroys it. The temporary is made
before `s` lets go of its block, so that `t` may lie in this block; and it is made before anything
is changed, so that a `new` that throws leaves every object and every block as they are.
-/

namespace Doost.Strings

open Transition

namespace Ownership

variable {A A' : Ownership} {t : DebugTrace} {x z : ObjectId} {a b : UIntPtr} {d : List UInt8}

/-- To own a block, or none, is to point to it. -/
theorem owns_iff_pointer : (A.heap t).Owns z b ↔ A.pointer z = some b := by
  constructor
  · rintro ⟨s, hs, rfl⟩
    obtain ⟨c, hc, rfl⟩ := Option.map_eq_some_iff.mp hs
    rw [pointer_ownerRecord hc]
    exact hc
  · exact fun hz => ⟨_, heap_strings hz, pointer_ownerRecord hz _ _⟩

theorem pointer_eq_of_holder (h : A'.shared.holder z = A.shared.holder z) :
    A'.pointer z = A.pointer z :=
  Option.map_injective asBlock_injective h

/-- The only owner of a block points to it with the uniqueness bit and has no neighbours. -/
theorem strings_of_sole (hx : A.shared.Sole x b) :
    (A.heap t).strings x = some ⟨.set b true, none, none⟩ := by
  have hl := sole_iff.mp hx
  rw [strings_of_mem (hl ▸ List.mem_singleton_self x), hl,
    ownerRecord_cons_self List.not_mem_nil]
  rfl

theorem blocks_of_sole (hx : A.shared.Sole x b) (hd : A.shared.value b = some d) :
    (A.heap t).blocks b = some ⟨some x, d ++ [0]⟩ := by
  rw [heap_blocks (value_eq_some_iff.mp hd), sole_iff.mp hx]
  rfl

theorem sole_iff_owns (ha : a ≠ 0) (hx : (A.heap t).Owns x a) :
    A.shared.Sole x a ↔ ∀ z, (A.heap t).Owns z a → z = x := by
  have hmem := (owns_iff ha).mp hx
  simp only [SharedValues.Sole, holder_eq_some_iff, owns_iff ha]
  exact and_iff_right hmem

/-- When `x` gets a new text, the block that it owned goes if it was the only owner. -/
theorem blocks_eq_none_iff (hA : A.Tidy) (hA' : A'.Tidy) (hb : A.shared.value b = none)
    (hshared : A'.shared = A.shared.apply (.store x b d)) (ha : a ≠ 0)
    (hx : (A.heap t).Owns x a) {t' : DebugTrace} :
    (A'.heap t').blocks a = none ↔ ∀ z, (A.heap t).Owns z a → z = x := by
  have hmem := (owns_iff ha).mp hx
  have hheld : A.shared.Held a := ⟨x, holder_eq_some_iff.mpr hmem⟩
  obtain ⟨v, hv⟩ := Option.isSome_iff_exists.mp ((hA.live a).mpr hheld)
  have hop : (SharedValues.Op.store x b d).Fresh A.shared := hb
  have hloses := SharedValues.loses_iff (v := v) (b := a) hop
  rw [← hshared] at hloses
  have hblocks : (A'.heap t').blocks a = none ↔ ¬ A'.shared.Held a := by
    rw [← hA'.live a, Option.not_isSome_iff_eq_none]
    exact Option.map_eq_none_iff.trans Option.map_eq_none_iff.symm
  rw [hblocks, ← sole_iff_owns ha hx]
  constructor
  · intro hnot
    obtain ⟨-, y, rfl, hsole⟩ := hloses.mp ⟨hv, hheld, hnot⟩
    exact hsole
  · exact fun hsole => (hloses.mpr ⟨hv, x, rfl, hsole⟩).2.2

end Ownership

/-- **A text assignment is all or nothing, wherever its text lies.** When `new` throws, the heap is
the one before the call. When it returns `b`, then `x` is the only owner of this block, whose text
is what `text` stood for before the call; the block that `x` owned is released if and only if `x`
was its only owner; and every other object has its block and its text. -/
theorem assignText_all_or_nothing {t : DebugTrace} {ops : List StringOp} {h : Heap}
    {x y : ObjectId} {text : Text} {storage : Option UIntPtr}
    (hrun : run Heap.next (Heap.start t) ops = some h)
    (hop : h.legal (.assignText x text y storage)) (hne : text ≠ .cString none) :
    ∃ d, h.chars text = some d ∧
      (storage = none → h.perform (.assignText x text y storage) = some (.error h)) ∧
      ∀ b, storage = some b → ∃ h', h.perform (.assignText x text y storage) = some (.ok h') ∧
        h.blocks b = none ∧ h'.blocks b = some ⟨some x, d ++ [0]⟩ ∧
        h'.strings x = some ⟨.set b true, none, none⟩ ∧ (∀ z, h'.Owns z b ↔ z = x) ∧
        (∀ a, a ≠ 0 → h.Owns x a → (h'.blocks a = none ↔ ∀ z, h.Owns z a → z = x)) ∧
        ∀ z, z ≠ x → h'.cStr z = h.cStr z ∧ ∀ c, h'.Owns z c ↔ h.Owns z c := by
  have hh := represented_run hrun
  have hh' := hh
  obtain ⟨A, t, rfl, hA⟩ := hh
  have hlegal := hop
  simp only [Heap.legal, Bool.and_eq_true] at hop
  obtain ⟨a, hx⟩ := Ownership.pointer_of_isSome hop.1.1
  obtain ⟨d, hd, hthrow, hstore⟩ :=
    Ownership.assignText_heap hA hx (Ownership.pointer_of_isNone hop.1.2) hop.2 hne
  refine ⟨d, hd, hthrow, fun b hb => ?_⟩
  obtain ⟨hF, h', hr, A', t', rfl, hA', hshared⟩ := hstore b hb
  have hunused : A.shared.value b = none := Option.map_eq_none_iff.mpr hF.unused
  have hsole : A'.shared.Sole x b := hshared ▸ SharedValues.sole_apply_store hA.live hunused
  have hvalue : A'.shared.value b = some d := by
    have hfresh : (SharedValues.Op.store x b d).Fresh A.shared := hunused
    rw [hshared]
    exact ((SharedValues.makes_iff hfresh).mpr ⟨x, rfl⟩).2
  have hnext : (A.heap t).next (.assignText x text y storage) = some (A'.heap t') := by
    rw [Heap.next, if_pos hlegal, Heap.perform, hr]
    rfl
  have hmeaning : (A.heap t).meaning (.assignText x text y storage) = .store x b d := by
    rw [Heap.meaning, Heap.textMeaning_of_ne hne, hd, hb]
  refine ⟨A'.heap t', hr, Option.map_eq_none_iff.mpr hF.unused,
    Ownership.blocks_of_sole hsole hvalue, Ownership.strings_of_sole hsole, fun z => ?_,
    fun a ha hxa => Ownership.blocks_eq_none_iff hA hA' hunused hshared ha hxa, fun z hz => ?_⟩
  · rw [Ownership.owns_iff hF.ne_zero, Ownership.sole_iff.mp hsole, List.mem_singleton]
  · have htargets : z ∉ ((A.heap t).meaning (.assignText x text y storage)).targets := by
      rw [hmeaning]
      exact mt List.mem_singleton.mp hz
    obtain ⟨hholder, hcStr⟩ := next_keeps hh' hnext htargets
    rw [Ownership.shared_heap, Ownership.shared_heap] at hholder
    refine ⟨hcStr, fun c => ?_⟩
    rw [Ownership.owns_iff_pointer, Ownership.owns_iff_pointer,
      Ownership.pointer_eq_of_holder hholder]

/-- Object 0 is about to get a part of the text that it shares with object 1. -/
def aliasedAssignment (storage : Option UIntPtr) : StringOp :=
  .assignText 0 (.view (some (.inside 4096 1)) 2) 2 storage

/-- Two owners of one block. -/
def sharedRun : List StringOp :=
  [.constructText 0 (.string [97, 98, 99, 100]) (some 4096), .copyConstruct 1 0]

/-- After `sharedRun` the assignment changes nothing when `new` throws, and otherwise leaves the
old block to object 1. -/
theorem assignText_all_or_nothing_sharedRun :
    ∃ h, run Heap.next (Heap.start ⟨true, none, fun _ => []⟩) sharedRun = some h ∧
      h.perform (aliasedAssignment none) = some (.error h) ∧
      ∃ h', h.perform (aliasedAssignment (some 8192)) = some (.ok h') ∧
        h'.blocks 8192 = some ⟨some 0, [98, 99, 0]⟩ ∧ h'.cStr 1 = some [97, 98, 99, 100, 0] := by
  have hfacts : (run Heap.next (Heap.start ⟨true, none, fun _ => []⟩) sharedRun).map
      (fun h => (h.legal (aliasedAssignment none), h.legal (aliasedAssignment (some 8192)),
        h.chars (.view (some (.inside 4096 1)) 2), h.cStr 1)) =
        some (true, true, some [98, 99], some [97, 98, 99, 100, 0]) := by rfl
  obtain ⟨h, hrun, hh⟩ := Option.map_eq_some_iff.mp hfacts
  simp only [Prod.mk.injEq] at hh
  obtain ⟨hnone, hsome, hchars, hcStr⟩ := hh
  have hne : Text.view (some (.inside 4096 1)) 2 ≠ .cString none := by decide
  obtain ⟨-, -, hthrow, -⟩ := assignText_all_or_nothing hrun hnone hne
  obtain ⟨d, hd, -, hstore⟩ := assignText_all_or_nothing hrun hsome hne
  obtain ⟨h', hr, -, hblock, -, -, -, hother⟩ := hstore 8192 rfl
  obtain rfl := Option.some.inj (hd.symm.trans hchars)
  exact ⟨h, hrun, hthrow rfl, h', hr, hblock, (hother 1 (by decide)).1.trans hcStr⟩

end Doost.Strings
