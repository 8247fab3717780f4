import Doost.Strings.RoundTrip

/-!
# The order of `String`

`operator<`, and how it fits together with the two implementations of `operator==`. A null `String`
comes first, and the others are ordered by the bytes of their texts up to the first zero: the three
functions are the comparison of the keys `Heap.key` (`less_eq`, `equals_eq`). `comparison_ordered`
says that in every reachable heap they are one total order.
-/

namespace Doost.Strings

open Transition

namespace Heap

/-- `operator<(const String&, const String&)`. -/
def less (h : Heap) (lhs rhs : ObjectId) : Option Bool := do
  let lhsBlock := (← h.strings lhs).block.pointer
  let rhsBlock := (← h.strings rhs).block.pointer
  if lhsBlock = 0 ∨ rhsBlock = 0 then return lhsBlock == 0 && rhsBlock != 0
  return (← strcmp (← h.cStr lhs) (← h.cStr rhs)) == .lt

/-- What the `String` at `x` is compared by. -/
def key (h : Heap) (x : ObjectId) : Option (List UInt8) :=
  if h.hasValue x = some true then (h.cStr x).map cText else none

/-- `operator<` and the operators `==` on the objects of `h` are one total order. -/
structure Ordered (h : Heap) : Prop where
  trichotomy : ∀ x y, (h.strings x).isSome → (h.strings y).isSome →
    (h.less x y = some true ∧ h.equals x y = some false ∧ h.less y x = some false) ∨
    (h.less x y = some false ∧ h.equals x y = some true ∧ h.less y x = some false) ∨
    (h.less x y = some false ∧ h.equals x y = some false ∧ h.less y x = some true)
  less_trans : ∀ x y z, h.less x y = some true → h.less y z = some true →
    h.less x z = some true
  equals_refl : ∀ x, (h.strings x).isSome → h.equals x x = some true
  equals_symm : ∀ x y, h.equals x y = some true → h.equals y x = some true
  equals_trans : ∀ x y z, h.equals x y = some true → h.equals y z = some true →
    h.equals x z = some true
  less_congr : ∀ x x' y y', h.equals x x' = some true → h.equals y y' = some true →
    h.less x y = h.less x' y'
  null_equals : ∀ x y, h.hasValue x = some false → h.hasValue y = some false →
    h.equals x y = some true
  null_less : ∀ x y, h.hasValue x = some false → h.hasValue y = some true →
    h.less x y = some true
  /-- On texts `operator<` is the lexicographic order of the bytes before the first zero. -/
  less_eq : ∀ x y c d, h.hasValue x = some true → h.hasValue y = some true →
    h.cStr x = some c → h.cStr y = some d → h.less x y = some (decide (cText c < cText d))
  shared : ∀ x y b, h.Owns x b → h.Owns y b → h.equals x y = some true
  view : ∀ x y data size, (h.strings x).isSome → h.hasValue y = some true →
    h.view y = some (data, size) →
    h.equals x y = h.equalsView x (some data) size ∧
      h.equalsView x (some data) size = h.viewEquals (some data) size x

/-! ## Keys -/

theorem compare_eq_lt_iff (v w : List UInt8) : compare v w = .lt ↔ v < w := by
  induction v generalizing w with
  | nil =>
    cases w with
    | nil => simp
    | cons d w => simp
  | cons c v ih =>
    cases w with
    | nil => simp
    | cons d w =>
      rw [List.compare_cons_cons, List.cons_lt_cons_iff, ← ih]
      by_cases hcd : c = d
      · subst hcd
        simp
      · rw [then_of_ne hcd, Std.compare_eq_lt]
        simp [hcd]

variable {h : Heap} {x y : ObjectId} {v w : List UInt8}

theorem key_of_hasText (hx : h.HasText x v) : h.key x = some (cText v) := by
  rw [key, if_pos hx.1, hx.2, Option.map_some, cText_concat]

theorem key_of_null (hx : h.hasValue x = some false) : h.key x = none := by
  rw [key, if_neg (by simp [hx])]

/-- An existing object is null or has a text. -/
theorem Represented.null_or_hasText (hh : h.Represented) (hx : (h.strings x).isSome) :
    h.hasValue x = some false ∨ ∃ v, h.HasText x v := by
  obtain ⟨s, hs⟩ := Option.isSome_iff_exists.mp hx
  have hholder : h.shared.holder x = some (asBlock s.block.pointer) :=
    congrArg (Option.map fun s : StringObject => asBlock s.block.pointer) hs
  rcases ho : asBlock s.block.pointer with - | b
  · exact .inl (hh.shows.hasValue x none (ho ▸ hholder))
  · obtain ⟨d, -, hcStr⟩ := hh.shows.cStr_some x b (ho ▸ hholder)
    exact .inr ⟨d, hh.shows.hasValue x (some b) (ho ▸ hholder), hcStr⟩

theorem strings_of_hasValue {u : Bool} (hx : h.hasValue x = some u) :
    ∃ s, h.strings x = some s ∧ (s.block.pointer != 0) = u := by
  rw [hasValue, Option.bind_eq_bind, Option.bind_eq_some_iff] at hx
  obtain ⟨s, hs, hu⟩ := hx
  exact ⟨s, hs, Option.some.inj hu⟩

theorem pointer_of_null (hx : h.hasValue x = some false) :
    ∃ s, h.strings x = some s ∧ s.block.pointer = 0 := by
  obtain ⟨s, hs, hu⟩ := strings_of_hasValue hx
  exact ⟨s, hs, bne_eq_false_iff_eq.mp hu⟩

/-- **`operator<` compares keys.** -/
theorem Represented.less_eq (hh : h.Represented) (hx : (h.strings x).isSome)
    (hy : (h.strings y).isSome) :
    h.less x y = some (compare (h.key x) (h.key y) == .lt) := by
  rcases hh.null_or_hasText hx with hnx | ⟨v, hv⟩
  · obtain ⟨s, hs, hzero⟩ := pointer_of_null hnx
    rcases hh.null_or_hasText hy with hny | ⟨w, hw⟩
    · obtain ⟨s', hs', hzero'⟩ := pointer_of_null hny
      simp only [less, hs, hs', Option.bind_eq_bind, Option.bind_some, hzero, hzero', or_self,
        if_true, key_of_null hnx, key_of_null hny]
      rfl
    · obtain ⟨s', hs', hne'⟩ := hasValue_eq_true_iff.mp hw.1
      simp only [less, hs, hs', Option.bind_eq_bind, Option.bind_some, hzero, true_or, if_true,
        bne_iff_ne.mpr hne', key_of_null hnx, key_of_hasText hw]
      rfl
  · obtain ⟨s, hs, hne⟩ := hasValue_eq_true_iff.mp hv.1
    rcases hh.null_or_hasText hy with hny | ⟨w, hw⟩
    · obtain ⟨s', hs', hzero'⟩ := pointer_of_null hny
      simp only [less, hs, hs', Option.bind_eq_bind, Option.bind_some, hzero', or_true, if_true,
        beq_eq_false_iff_ne.mpr hne, key_of_hasText hv, key_of_null hny]
      rfl
    · obtain ⟨s', hs', hne'⟩ := hasValue_eq_true_iff.mp hw.1
      simp only [less, hs, hs', hv.2, hw.2, Option.bind_eq_bind, Option.bind_some, hne, hne',
        or_self, if_false, strcmp_concat, key_of_hasText hv, key_of_hasText hw]
      rfl

/-- **`operator==` compares keys.** -/
theorem Represented.equals_eq (hh : h.Represented) (hx : (h.strings x).isSome)
    (hy : (h.strings y).isSome) :
    h.equals x y = some (compare (h.key x) (h.key y) == .eq) := by
  rcases hh.null_or_hasText hx with hnx | ⟨v, hv⟩
  · obtain ⟨s, hs, hzero⟩ := pointer_of_null hnx
    rcases hh.null_or_hasText hy with hny | ⟨w, hw⟩
    · obtain ⟨s', hs', hzero'⟩ := pointer_of_null hny
      simp only [equals, hs, hs', Option.bind_eq_bind, Option.bind_some, hzero, hzero', or_self,
        if_true, key_of_null hnx, key_of_null hny]
      rfl
    · obtain ⟨s', hs', hne'⟩ := hasValue_eq_true_iff.mp hw.1
      simp only [equals, hs, hs', Option.bind_eq_bind, Option.bind_some, hzero, true_or, if_true,
        beq_eq_false_iff_ne.mpr (Ne.symm hne'), key_of_null hnx, key_of_hasText hw]
      rfl
  · obtain ⟨s, hs, hne⟩ := hasValue_eq_true_iff.mp hv.1
    rcases hh.null_or_hasText hy with hny | ⟨w, hw⟩
    · obtain ⟨s', hs', hzero'⟩ := pointer_of_null hny
      simp only [equals, hs, hs', Option.bind_eq_bind, Option.bind_some, hzero', or_true, if_true,
        beq_eq_false_iff_ne.mpr hne, key_of_hasText hv, key_of_null hny]
      rfl
    · rw [equals_of_hasText hv hw, key_of_hasText hv, key_of_hasText hw, ← compare_beq_eq]
      rfl

/-- Only existing objects can be compared. -/
theorem isSome_of_less {u : Bool} (hless : h.less x y = some u) :
    (h.strings x).isSome ∧ (h.strings y).isSome := by
  simp only [less, Option.bind_eq_bind, Option.bind_eq_some_iff] at hless
  obtain ⟨s, hs, s', hs', -⟩ := hless
  simp [hs, hs']

theorem isSome_of_equals {u : Bool} (hequals : h.equals x y = some u) :
    (h.strings x).isSome ∧ (h.strings y).isSome := by
  simp only [equals, Option.bind_eq_bind, Option.bind_eq_some_iff] at hequals
  obtain ⟨s, hs, s', hs', -⟩ := hequals
  simp [hs, hs']

theorem Represented.less_iff (hh : h.Represented) : h.less x y = some true ↔
    (h.strings x).isSome ∧ (h.strings y).isSome ∧ compare (h.key x) (h.key y) = .lt := by
  constructor
  · intro hless
    obtain ⟨hx, hy⟩ := isSome_of_less hless
    rw [hh.less_eq hx hy, Option.some.injEq, beq_iff_eq] at hless
    exact ⟨hx, hy, hless⟩
  · rintro ⟨hx, hy, hlt⟩
    rw [hh.less_eq hx hy, hlt]
    rfl

theorem Represented.equals_iff (hh : h.Represented) : h.equals x y = some true ↔
    (h.strings x).isSome ∧ (h.strings y).isSome ∧ h.key x = h.key y := by
  constructor
  · intro hequals
    obtain ⟨hx, hy⟩ := isSome_of_equals hequals
    rw [hh.equals_eq hx hy, Option.some.injEq, beq_iff_eq,
      Std.LawfulEqOrd.compare_eq_iff_eq] at hequals
    exact ⟨hx, hy, hequals⟩
  · rintro ⟨hx, hy, heq⟩
    rw [hh.equals_eq hx hy, Std.LawfulEqOrd.compare_eq_iff_eq.mpr heq]
    rfl

theorem isSome_of_hasValue {u : Bool} (hx : h.hasValue x = some u) : (h.strings x).isSome := by
  obtain ⟨s, hs, -⟩ := strings_of_hasValue hx
  rw [hs]
  rfl

/-- The text of an object that is not null. -/
theorem Represented.hasText (hh : h.Represented) (hx : h.hasValue x = some true) :
    ∃ v, h.HasText x v := by
  rcases hh.null_or_hasText (isSome_of_hasValue hx) with hnull | htext
  · rw [hx, Option.some.injEq] at hnull
    cases hnull
  · exact htext

/-- The owners of one block have one key. -/
theorem key_eq_of_owns {b : UIntPtr} (hx : h.Owns x b) (hy : h.Owns y b) : h.key x = h.key y := by
  obtain ⟨s, hs, rfl⟩ := hx
  obtain ⟨s', hs', hblock⟩ := hy
  simp only [key, hasValue, cStr, hs, hs', Option.bind_eq_bind, Option.bind_some, hblock]

theorem Represented.length_cText_lt (hh : h.Represented) (hx : h.cStr x = some (v ++ [0])) :
    (cText v).length < 2 ^ 64 := by
  have hlt := length_lt_of_cStr hh hx
  have hle := (cText_prefix_concat v).length_le
  omega

/-- **The order of the objects of a reachable heap.** -/
theorem Represented.ordered (hh : h.Represented) : h.Ordered where
  trichotomy := by
    intro x y hx hy
    have hswap : compare (h.key y) (h.key x) = (compare (h.key x) (h.key y)).swap :=
      Std.OrientedCmp.eq_swap
    rw [hh.less_eq hx hy, hh.equals_eq hx hy, hh.less_eq hy hx, hswap]
    cases compare (h.key x) (h.key y) <;> decide
  less_trans := by
    intro x y z hxy hyz
    obtain ⟨hx, -, hlt⟩ := hh.less_iff.mp hxy
    obtain ⟨-, hz, hlt'⟩ := hh.less_iff.mp hyz
    exact hh.less_iff.mpr ⟨hx, hz, Std.TransCmp.lt_trans hlt hlt'⟩
  equals_refl := fun x hx => hh.equals_iff.mpr ⟨hx, hx, rfl⟩
  equals_symm := by
    intro x y hxy
    obtain ⟨hx, hy, heq⟩ := hh.equals_iff.mp hxy
    exact hh.equals_iff.mpr ⟨hy, hx, heq.symm⟩
  equals_trans := by
    intro x y z hxy hyz
    obtain ⟨hx, -, heq⟩ := hh.equals_iff.mp hxy
    obtain ⟨-, hz, heq'⟩ := hh.equals_iff.mp hyz
    exact hh.equals_iff.mpr ⟨hx, hz, heq.trans heq'⟩
  less_congr := by
    intro x x' y y' hxx hyy
    obtain ⟨hx, hx', heq⟩ := hh.equals_iff.mp hxx
    obtain ⟨hy, hy', heq'⟩ := hh.equals_iff.mp hyy
    rw [hh.less_eq hx hy, hh.less_eq hx' hy', heq, heq']
  null_equals := by
    intro x y hx hy
    refine hh.equals_iff.mpr ⟨isSome_of_hasValue hx, isSome_of_hasValue hy, ?_⟩
    rw [key_of_null hx, key_of_null hy]
  null_less := by
    intro x y hx hy
    obtain ⟨w, hw⟩ := hh.hasText hy
    refine hh.less_iff.mpr ⟨isSome_of_hasValue hx, isSome_of_hasValue hy, ?_⟩
    rw [key_of_null hx, key_of_hasText hw]
    rfl
  less_eq := by
    intro x y c d hx hy hc hd
    rw [hh.less_eq (isSome_of_hasValue hx) (isSome_of_hasValue hy), key, key, if_pos hx, if_pos hy,
      hc, hd]
    change some (compare (cText c) (cText d) == .lt) = _
    congr 1
    rw [Bool.eq_iff_iff, beq_iff_eq, decide_eq_true_iff, compare_eq_lt_iff]
  shared := by
    intro x y b hx hy
    refine hh.equals_iff.mpr ⟨?_, ?_, key_eq_of_owns hx hy⟩
    · obtain ⟨s, hs, -⟩ := hx
      rw [hs]
      rfl
    · obtain ⟨s, hs, -⟩ := hy
      rw [hs]
      rfl
  view := by
    intro x y data size hx hy hview
    refine ⟨?_, rfl⟩
    obtain ⟨w, hw⟩ := hh.hasText hy
    obtain ⟨p, n, hp, hread⟩ := view_of_cStr (hh.length_cText_lt hw.2) hw.2
    obtain ⟨rfl, rfl⟩ := Prod.mk.inj (Option.some.inj (hview.symm.trans hp))
    rcases hh.null_or_hasText hx with hnull | ⟨v, hv⟩
    · rw [hh.equals_eq hx (isSome_of_hasValue hy), key_of_null hnull, key_of_hasText hw,
        equalsView, hnull]
      rfl
    · rw [equals_of_hasText hv hw, equalsView_of_hasText (hh.length_cText_lt hv.2) hv hread]

end Heap

/-- **Comparison of `String`s is one total order** in every reachable heap. -/
theorem comparison_ordered (t : DebugTrace) (ops : List StringOp) (h : Heap)
    (hrun : run Heap.next (Heap.start t) ops = some h) : h.Ordered :=
  (represented_run hrun).ordered

/-- Two null objects, the empty text, two owners of one text, and a byte above 127. -/
def mixedTextsRun : List StringOp :=
  [.defaultConstruct 0, .defaultConstruct 1, .constructText 2 (.string []) (some 4096),
    .constructText 3 (.string [97, 98]) (some 8192), .copyConstruct 4 3,
    .constructText 5 (.string [97, 200]) (some 12288),
    .constructText 6 (.string [97, 98, 0, 99]) (some 16384)]

/-- In `mixedTextsRun` null comes before empty, and the text with a zero in it equals its part
before the zero. -/
theorem comparison_ordered_mixedTextsRun :
    ∃ h, run Heap.next (Heap.start ⟨false, none, fun _ => []⟩) mixedTextsRun = some h ∧
      h.Ordered ∧ h.less 0 2 = some true ∧ h.equals 0 1 = some true ∧ h.less 2 3 = some true ∧
      h.less 4 5 = some true ∧ h.equals 3 4 = some true ∧ h.equals 3 6 = some true := by
  have hfacts : (run Heap.next (Heap.start ⟨false, none, fun _ => []⟩) mixedTextsRun).map
      (fun h => (h.less 0 2, h.equals 0 1, h.less 2 3, h.less 4 5, h.equals 3 4, h.equals 3 6)) =
        some (some true, some true, some true, some true, some true, some true) := by rfl
  obtain ⟨h, hrun, hh⟩ := Option.map_eq_some_iff.mp hfacts
  simp only [Prod.mk.injEq] at hh
  exact ⟨h, hrun, comparison_ordered _ mixedTextsRun h hrun, hh⟩

end Doost.Strings
