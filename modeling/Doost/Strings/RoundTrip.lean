import Doost.Strings.Observers

/-!
# Texts that come back

A `String` made from a `std::string` or a `std::string_view` keeps all its characters, zeros
included, while the observers stop at the first zero. `round_trip_iff` says that two texts come back
as they were, and compare as they should, if and only if neither has a zero in it.
-/

namespace Doost.Strings

open Transition

/-- A text that comes with its length. -/
def Text.IsCounted : Text → Prop
  | .cString _ => False
  | .view _ _ | .string _ => True

/-- The call constructs the `String` at `x` from the characters `v`, or assigns them to it. -/
def StringOp.Stores (h : Heap) (x : ObjectId) (v : List UInt8) : StringOp → Prop
  | .constructText this text storage | .assignText this text _ storage =>
    this = x ∧ text.IsCounted ∧ h.chars text = some v ∧ storage.isSome
  | _ => False

/-- The objects that a call may change. -/
def StringOp.targets : StringOp → List ObjectId
  | .defaultConstruct this | .constructText this _ _ | .copyConstruct this _
  | .assignText this _ _ _ | .copyAssign this _ | .reset this | .destroy this => [this]
  | .moveConstruct this other | .moveAssign this other | .swap this other
  | .freeSwap this other => [this, other]
  | .setDebugTrace _ => []

/-- All observers of the `String` at `x` answer for the text `v`. -/
structure Heap.ReadsAs (h : Heap) (x : ObjectId) (v : List UInt8) : Prop where
  value : h.value x = some v
  view : ∃ data size, h.view x = some (data, size) ∧ h.readChars (some data) size = some v
  size : h.size x = some (BitVec.ofNat 64 v.length)
  empty : h.empty x = some (decide (v = []))
  equalsView : ∀ data size, h.readChars data size = some v →
    h.equalsView x data size = some true ∧ h.viewEquals data size x = some true

variable {h h' : Heap} {x y : ObjectId} {v w : List UInt8} {op : StringOp}

/-! ## What a call stores -/

theorem StringOp.Stores.meaning (hop : op.Stores h x v) : ∃ b, h.meaning op = .store x b v := by
  have htext : ∀ {text : Text} {storage : Option UIntPtr} {null : SharedOp},
      text.IsCounted → h.chars text = some v → storage.isSome →
        ∃ b, h.textMeaning x storage null text = .store x b v := by
    intro text storage null hcounted hchars hstorage
    obtain ⟨b, rfl⟩ := Option.isSome_iff_exists.mp hstorage
    have hne : text ≠ .cString none := by
      rintro rfl
      exact hcounted
    exact ⟨b, by rw [Heap.textMeaning_of_ne hne, hchars]⟩
  cases op with
  | constructText this text storage | assignText this text replacement storage =>
    obtain ⟨rfl, hcounted, hchars, hstorage⟩ := hop
    exact htext hcounted hchars hstorage
  | _ => exact hop.elim

theorem StringOp.Stores.targets_eq (hop : op.Stores h x v) : op.targets = [x] := by
  cases op with
  | constructText this text storage | assignText this text replacement storage =>
    obtain ⟨rfl, -⟩ := hop
    rfl
  | _ => exact hop.elim

theorem hasText_of_stores (hh : h.Represented) (hop : op.Stores h x v)
    (hnext : h.next op = some h') : h'.HasText x v := by
  obtain ⟨b, hmeaning⟩ := hop.meaning
  have hfresh := fresh_of_legal hh (perform_of_next hnext).1
  have hshared := shared_next hh hnext
  rw [hmeaning] at hfresh hshared
  have hshows := (represented_next hh hnext).shows
  have hholder : h'.shared.holder x = some (some b) := by
    rw [hshared]
    exact (SharedValues.sole_apply_store hh.live hfresh).1
  have hvalue : h'.shared.value b = some v := by
    rw [hshared]
    exact ((SharedValues.makes_iff hfresh).mpr ⟨x, rfl⟩).2
  obtain ⟨d, hd, hcStr⟩ := hshows.cStr_some x b hholder
  obtain rfl := Option.some.inj (hd.symm.trans hvalue)
  exact ⟨hshows.hasValue x (some b) hholder, hcStr⟩

theorem targets_textMeaning {text : Text} {storage : Option UIntPtr} {null : SharedOp}
    (hnull : null.targets = [x]) : (h.textMeaning x storage null text).targets ⊆ [x] := by
  by_cases hne : text = .cString none
  · subst hne
    exact hnull ▸ List.Subset.refl _
  · rw [Heap.textMeaning_of_ne hne]
    cases h.chars text with
    | none => exact List.nil_subset _
    | some d =>
      cases storage with
      | none => exact List.nil_subset _
      | some b => exact List.Subset.refl _

/-- A call changes no other objects. -/
theorem targets_meaning : (h.meaning op).targets ⊆ op.targets := by
  cases op with
  | constructText this text storage | assignText this text replacement storage =>
    exact targets_textMeaning rfl
  | _ => exact List.Subset.refl _

theorem Heap.hasValue_eq (h : Heap) (x : ObjectId) :
    h.hasValue x = (h.shared.holder x).map Option.isSome := by
  change (h.strings x).bind _ = ((h.strings x).map _).map _
  cases h.strings x with
  | none => rfl
  | some s =>
    change some (s.block.pointer != 0) = some (asBlock s.block.pointer).isSome
    by_cases hzero : s.block.pointer = 0
    · rw [hzero, asBlock_zero]
      rfl
    · rw [asBlock_of_ne hzero, bne_iff_ne.mpr hzero]
      rfl

theorem hasText_next (hh : h.Represented) (hx : h.HasText x v) (hop : x ∉ op.targets)
    (hnext : h.next op = some h') : h'.HasText x v := by
  obtain ⟨hholder, hcStr⟩ := next_keeps hh hnext fun hmem => hop (targets_meaning hmem)
  refine ⟨?_, hcStr.trans hx.2⟩
  rw [h'.hasValue_eq, hholder, ← h.hasValue_eq]
  exact hx.1

theorem hasText_run {ops : List StringOp} (hh : h.Represented) (hx : h.HasText x v)
    (hops : ∀ op ∈ ops, x ∉ op.targets) (hrun : run Heap.next h ops = some h') :
    h'.Represented ∧ h'.HasText x v := by
  have hstep : ∀ (q : Heap) (op : StringOp) (q' : Heap), q.Represented ∧ q.HasText x v →
      x ∉ op.targets → q.next op = some q' → q'.Represented ∧ q'.HasText x v :=
    fun q op q' hq hop hnext =>
      ⟨represented_next hq.1 hnext, hasText_next hq.1 hq.2 hop hnext⟩
  exact run_invariant hstep ⟨hh, hx⟩ hops hrun

/-! ## What the observers make of it -/

theorem length_lt_of_cStr {d : List UInt8} (hh : h.Represented) (hx : h.cStr x = some d) :
    d.length < 2 ^ 63 := by
  obtain ⟨A, t, rfl, -⟩ := hh
  simp only [Heap.cStr, Option.bind_eq_bind, Option.bind_eq_some_iff] at hx
  obtain ⟨s, -, hx⟩ := hx
  split at hx
  · obtain rfl := Option.some.inj hx
    simp
  · simp only [Option.bind_eq_some_iff] at hx
    obtain ⟨k, hk, hx⟩ := hx
    obtain rfl := Option.some.inj hx
    obtain ⟨d, hd, rfl⟩ := Option.map_eq_some_iff.mp hk
    have hsize := A.size_lt _ d hd
    change d.length < _
    omega

/-- **One text comes back** if and only if there is no zero in it. -/
theorem readsAs_iff (hh : h.Represented) (hx : h.HasText x v) : h.ReadsAs x v ↔ 0 ∉ v := by
  have hlt := length_lt_of_cStr hh hx.2
  have hle := (Heap.cText_prefix_concat v).length_le
  have hbound : (Heap.cText v).length < 2 ^ 64 := by omega
  rw [← Heap.cText_eq_self_iff]
  constructor
  · intro hreads
    exact Option.some.inj ((Heap.value_of_cStr hbound hx.2).symm.trans hreads.value)
  · intro hv
    have hview := Heap.view_of_cStr hbound hx.2
    rw [hv] at hview
    refine ⟨?_, hview, ?_, ?_, fun data size hread => ?_⟩
    · rw [Heap.value_of_cStr hbound hx.2, hv]
    · rw [Heap.size_of_cStr hx.2, hv]
    · rw [Heap.empty_of_cStr hx.2, hv]
    · have hequals := Heap.equalsView_of_hasText hbound hx hread
      rw [hv, decide_eq_true rfl] at hequals
      exact ⟨hequals, hequals⟩

/-- **The round trip of two texts.** In a run in which a `String` at `x` is made from `v` and, later
and while `x` is as it was, another at `y` from `w`, by construction or by assignment: both read as
their texts, and they are equal exactly when their texts are, if and only if neither text has a
zero in it. -/
theorem round_trip_iff {t : DebugTrace} {ops ops' : List StringOp} {op op' : StringOp}
    {h h₁ h₂ h₃ : Heap} {x y : ObjectId} {v w : List UInt8}
    (hrun : run Heap.next (Heap.start t) ops = some h) (hop : op.Stores h x v)
    (hnext : h.next op = some h₁) (hrun' : run Heap.next h₁ ops' = some h₂)
    (hkeep : ∀ o ∈ ops', x ∉ o.targets) (hop' : op'.Stores h₂ y w)
    (hnext' : h₂.next op' = some h₃) (hxy : x ≠ y) :
    (h₁.ReadsAs x v ∧ h₃.ReadsAs y w ∧ h₃.equals x y = some (decide (v = w)) ∧
      h₃.equals y x = some (decide (w = v))) ↔ 0 ∉ v ∧ 0 ∉ w := by
  have hh := represented_run hrun
  have hh₁ := represented_next hh hnext
  have hx₁ := hasText_of_stores hh hop hnext
  obtain ⟨hh₂, hx₂⟩ := hasText_run hh₁ hx₁ hkeep hrun'
  have hh₃ := represented_next hh₂ hnext'
  have hy₃ := hasText_of_stores hh₂ hop' hnext'
  have hx₃ : h₃.HasText x v := by
    refine hasText_next hh₂ hx₂ ?_ hnext'
    rw [hop'.targets_eq]
    exact mt List.mem_singleton.mp hxy
  rw [readsAs_iff hh₁ hx₁, readsAs_iff hh₃ hy₃]
  constructor
  · exact fun hall => ⟨hall.1, hall.2.1⟩
  · rintro ⟨hv, hw⟩
    refine ⟨hv, hw, ?_, ?_⟩
    · rw [Heap.equals_of_hasText hx₃ hy₃, Heap.cText_eq_self_iff.mpr hv,
        Heap.cText_eq_self_iff.mpr hw]
    · rw [Heap.equals_of_hasText hy₃ hx₃, Heap.cText_eq_self_iff.mpr hv,
        Heap.cText_eq_self_iff.mpr hw]

/-- Objects 1 and 2 share the empty text. -/
def sharedEmptyRun : List StringOp :=
  [.constructText 1 (.string []) (some 8192), .copyConstruct 2 1]

/-- A construction of object 0, a copy of it, and an assignment of a part of its text to
object 1. -/
theorem round_trip_iff_sharedEmptyRun :
    ∃ h₁ h₃ : Heap,
      run Heap.next (Heap.start ⟨false, none, fun _ => []⟩)
        (sharedEmptyRun ++ [.constructText 0 (.string [97, 98]) (some 4096)]) = some h₁ ∧
      run Heap.next h₁ [.copyConstruct 3 0,
        .assignText 1 (.view (some (.inside 4096 0)) 1) 4 (some 12288)] = some h₃ ∧
      h₁.ReadsAs 0 [97, 98] ∧ h₃.ReadsAs 1 [97] ∧ h₃.equals 0 1 = some false := by
  have hfacts : ((run Heap.next (Heap.start ⟨false, none, fun _ => []⟩) sharedEmptyRun).bind
      fun h => (h.next (.constructText 0 (.string [97, 98]) (some 4096))).bind fun h₁ =>
        (run Heap.next h₁ [.copyConstruct 3 0]).bind fun h₂ =>
          (h₂.next (.assignText 1 (.view (some (.inside 4096 0)) 1) 4 (some 12288))).map fun _ =>
            h₂.chars (.view (some (.inside 4096 0)) 1)) = some (some [97]) := by rfl
  obtain ⟨h, hrun, hfacts⟩ := Option.bind_eq_some_iff.mp hfacts
  obtain ⟨h₁, hnext, hfacts⟩ := Option.bind_eq_some_iff.mp hfacts
  obtain ⟨h₂, hrun', hfacts⟩ := Option.bind_eq_some_iff.mp hfacts
  obtain ⟨h₃, hnext', hchars⟩ := Option.map_eq_some_iff.mp hfacts
  have hop : (StringOp.constructText 0 (.string [97, 98]) (some 4096)).Stores h 0 [97, 98] :=
    ⟨rfl, trivial, rfl, rfl⟩
  have hkeep : ∀ o ∈ [StringOp.copyConstruct 3 0], 0 ∉ o.targets := by decide
  have hop' : (StringOp.assignText 1 (.view (some (.inside 4096 0)) 1) 4 (some 12288)).Stores h₂ 1
      [97] := ⟨rfl, trivial, hchars, rfl⟩
  obtain ⟨hx, hy, hequals, -⟩ := (round_trip_iff hrun hop hnext hrun' hkeep hop' hnext'
    (by decide)).mpr ⟨by decide, by decide⟩
  have hrun₁ := run_concat_eq_some.mpr ⟨h, hrun, hnext⟩
  have hrun₃ := run_concat_eq_some.mpr ⟨h₂, hrun', hnext'⟩
  exact ⟨h₁, h₃, hrun₁, hrun₃, hx, hy, hequals⟩

/-- **A zero ends the text for the observers.** The `std::string` of the bytes `a`, 0, `b` comes
back as `a`, is unequal to the `String` made from it, and makes a `String` equal to the one made
from `a`. -/
theorem zero_cuts_text :
    ∃ h, run Heap.next (Heap.start ⟨false, none, fun _ => []⟩)
        [.constructText 0 (.string [97, 0, 98]) (some 4096),
          .constructText 1 (.string [97]) (some 8192)] = some h ∧
      h.value 0 = some [97] ∧ h.size 0 = some 1 ∧
      h.equalsView 0 (some (.outside [97, 0, 98])) 3 = some false ∧
      h.viewEquals (some (.outside [97, 0, 98])) 3 0 = some false ∧
      h.equals 0 1 = some true ∧ ¬ h.ReadsAs 0 [97, 0, 98] := by
  have hfacts : (run Heap.next (Heap.start ⟨false, none, fun _ => []⟩)
      [.constructText 0 (.string [97, 0, 98]) (some 4096),
        .constructText 1 (.string [97]) (some 8192)]).map
      (fun h => (h.value 0, h.size 0, h.equalsView 0 (some (.outside [97, 0, 98])) 3,
        h.viewEquals (some (.outside [97, 0, 98])) 3 0, h.equals 0 1)) =
        some (some [97], some 1, some false, some false, some true) := by rfl
  obtain ⟨h, hrun, hh⟩ := Option.map_eq_some_iff.mp hfacts
  simp only [Prod.mk.injEq] at hh
  obtain ⟨hvalue, hsize, hleft, hright, hequals⟩ := hh
  refine ⟨h, hrun, hvalue, hsize, hleft, hright, hequals, fun hreads => ?_⟩
  cases hvalue.symm.trans hreads.value

end Doost.Strings
