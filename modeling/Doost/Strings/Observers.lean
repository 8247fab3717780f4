import Mathlib.Data.List.TakeWhile
import Doost.Strings.Refinement

/-!
# What a `String` shows

`empty`, `size`, `value`, `view` and the operators `==`. No length is kept with a text: each of
them finds the end of the text at the first zero behind `c_str()`. On an object whose characters are
`v` and the final zero they therefore see `cText v`.
-/

namespace Doost.Strings

namespace Heap

/-- `std::strcmp`, by its sign, with `none` for a read past the last character. -/
def strcmp : List UInt8 → List UInt8 → Option Ordering
  | c :: lhs, d :: rhs =>
    if c ≠ d then some (compare c d) else if c = 0 then some .eq else strcmp lhs rhs
  | _, _ => none

/-- `std::memcmp`, by its sign, with `none` for a read past the last character. -/
def memcmp : List UInt8 → List UInt8 → ℕ → Option Ordering
  | _, _, 0 => some .eq
  | c :: lhs, d :: rhs, n + 1 => if c ≠ d then some (compare c d) else memcmp lhs rhs n
  | _, _, _ => none

/-- The pointer that `c_str()` returns. -/
def cStrPointer (h : Heap) (x : ObjectId) : Option CharPtr := do
  let s ← h.strings x
  return if s.block.pointer = 0 then .outside [0] else .inside s.block.pointer 0

/-- `empty()`. -/
def empty (h : Heap) (x : ObjectId) : Option Bool := do
  return (← (← h.cStr x).head?) == 0

/-- `size()`. -/
def size (h : Heap) (x : ObjectId) : Option SizeT := do
  strlen (← h.cStr x)

/-- `value()`. -/
def value (h : Heap) (x : ObjectId) : Option (List UInt8) := do
  let chars ← h.cStr x
  return chars.take (← strlen chars).toNat

/-- `view()`, by its `data()` and its `size()`. -/
def view (h : Heap) (x : ObjectId) : Option (CharPtr × SizeT) := do
  let value ← h.cStrPointer x
  return (value, ← strlen (← h.charsFrom value))

/-- `operator==(const String&, const String&)`. -/
def equals (h : Heap) (lhs rhs : ObjectId) : Option Bool := do
  let lhsBlock := (← h.strings lhs).block.pointer
  let rhsBlock := (← h.strings rhs).block.pointer
  if lhsBlock = 0 ∨ rhsBlock = 0 then return lhsBlock == rhsBlock
  return (← strcmp (← h.cStr lhs) (← h.cStr rhs)) == .eq

/-- `operator==(const String&, std::string_view)`. -/
def equalsView (h : Heap) (lhs : ObjectId) (data : Option CharPtr) (size : SizeT) :
    Option Bool := do
  if !(← h.hasValue lhs) then return false
  let value ← h.cStr lhs
  let length ← strlen value
  if length ≠ size then return false
  if length = 0 then return true
  return (← memcmp value (← h.charsFrom (← data)) length.toNat) == .eq

/-- `operator==(std::string_view, const String&)`. -/
def viewEquals (h : Heap) (data : Option CharPtr) (size : SizeT) (rhs : ObjectId) : Option Bool :=
  h.equalsView rhs data size

/-! ## Characters up to a zero -/

theorem cText_cons (c : UInt8) (v : List UInt8) :
    cText (c :: v) = if c = 0 then [] else c :: cText v := by
  by_cases hc : c = 0 <;> simp [cText, hc]

theorem cText_concat (v : List UInt8) : cText (v ++ [0]) = cText v := by
  induction v with
  | nil => rfl
  | cons c v ih => rw [List.cons_append, cText_cons, cText_cons, ih]

theorem zero_notMem_cText (v : List UInt8) : 0 ∉ cText v := by
  intro hmem
  simpa using List.mem_takeWhile_imp hmem

theorem cText_eq_self_iff {v : List UInt8} : cText v = v ↔ 0 ∉ v := by
  refine ⟨fun hv => hv ▸ zero_notMem_cText v, fun hv => ?_⟩
  rw [cText, List.takeWhile_eq_self_iff]
  exact fun c hc => decide_eq_true fun hzero => hv (hzero ▸ hc)

theorem cText_prefix_concat (v : List UInt8) : cText v <+: v ++ [0] :=
  (List.takeWhile_prefix _).trans (List.prefix_append v [0])

theorem strlen_concat (v : List UInt8) :
    strlen (v ++ [0]) = some (BitVec.ofNat 64 (cText v).length) := by
  rw [strlen, if_pos (List.mem_append_right v List.mem_cons_self), cText_concat]

theorem toNat_length {v : List UInt8} (hv : v.length < 2 ^ 64) :
    (BitVec.ofNat 64 v.length).toNat = v.length := by
  rw [BitVec.toNat_ofNat, Nat.mod_eq_of_lt hv]

theorem compare_zero {c : UInt8} (hc : c ≠ 0) : compare 0 c = .lt :=
  Std.compare_eq_lt.mpr (UInt8.pos_iff_ne_zero.mpr hc)

/-- The first characters that differ decide. -/
theorem then_of_ne {c d : UInt8} (hcd : c ≠ d) (o : Ordering) :
    (compare c d).then o = compare c d := by
  have hne : compare c d ≠ .eq := mt Std.LawfulEqOrd.compare_eq_iff_eq.mp hcd
  cases h : compare c d with
  | eq => exact absurd h hne
  | _ => rfl

/-- Two terminated texts differ as `strcmp` says. -/
theorem strcmp_eq {s t : List UInt8} (hs : 0 ∈ s) (ht : 0 ∈ t) :
    strcmp s t = some (compare (cText s) (cText t)) := by
  induction s generalizing t with
  | nil => exact absurd hs List.not_mem_nil
  | cons c s ih =>
    rcases t with - | ⟨d, t⟩
    · exact absurd ht List.not_mem_nil
    rw [strcmp, cText_cons, cText_cons]
    by_cases hcd : c = d
    · subst hcd
      by_cases hc : c = 0
      · simp [hc]
      · have hs' := (List.mem_cons.mp hs).resolve_left (Ne.symm hc)
        have ht' := (List.mem_cons.mp ht).resolve_left (Ne.symm hc)
        simp only [ne_eq, not_true_eq_false, if_false, if_neg hc, ih hs' ht',
          List.compare_cons_cons, Std.compare_self, Ordering.then]
    · rw [if_pos hcd]
      by_cases hc : c = 0
      · subst hc
        rw [if_pos rfl, if_neg (Ne.symm hcd), compare_zero (Ne.symm hcd), List.compare_nil_cons]
      · rw [if_neg hc]
        by_cases hd : d = 0
        · subst hd
          have hswap : compare c 0 = (compare 0 c).swap := Std.OrientedCmp.eq_swap
          rw [if_pos rfl, hswap, compare_zero hcd, List.compare_cons_nil]
          rfl
        · rw [if_neg hd, List.compare_cons_cons, then_of_ne hcd]

theorem zero_mem_concat (v : List UInt8) : 0 ∈ v ++ [0] :=
  List.mem_append_right v List.mem_cons_self

theorem strcmp_concat (v w : List UInt8) :
    strcmp (v ++ [0]) (w ++ [0]) = some (compare (cText v) (cText w)) := by
  rw [strcmp_eq (zero_mem_concat v) (zero_mem_concat w), cText_concat, cText_concat]

theorem memcmp_eq {s t : List UInt8} {n : ℕ} (hs : n ≤ s.length) (ht : n ≤ t.length) :
    memcmp s t n = some (compare (s.take n) (t.take n)) := by
  induction n generalizing s t with
  | zero => simp [memcmp]
  | succ n ih =>
    rcases s with - | ⟨c, s⟩
    · simp at hs
    rcases t with - | ⟨d, t⟩
    · simp at ht
    rw [memcmp, List.take_succ_cons, List.take_succ_cons, List.compare_cons_cons]
    by_cases hcd : c = d
    · rw [if_neg (not_not_intro hcd), ih (Nat.le_of_succ_le_succ hs) (Nat.le_of_succ_le_succ ht),
        hcd, Std.compare_self, Ordering.then]
    · rw [if_pos hcd, then_of_ne hcd]

theorem compare_beq_eq (v w : List UInt8) : (compare v w == .eq) = decide (v = w) := by
  rw [Bool.eq_iff_iff, beq_iff_eq, decide_eq_true_iff]
  exact Std.LawfulEqOrd.compare_eq_iff_eq

/-! ## The observers on a text -/

/-- The `String` at `x` is not null, and its characters are `v` and the final zero. -/
def HasText (h : Heap) (x : ObjectId) (v : List UInt8) : Prop :=
  h.hasValue x = some true ∧ h.cStr x = some (v ++ [0])

variable {h : Heap} {x y : ObjectId} {v w : List UInt8}

theorem hasValue_eq_true_iff :
    h.hasValue x = some true ↔ ∃ s, h.strings x = some s ∧ s.block.pointer ≠ 0 := by
  rw [hasValue]
  cases h.strings x <;> simp

theorem charsFrom_cStrPointer : (h.cStrPointer x).bind h.charsFrom = h.cStr x := by
  rw [cStrPointer, cStr]
  cases h.strings x with
  | none => rfl
  | some s =>
    simp only [Option.bind_eq_bind, Option.bind_some]
    split
    · rfl
    · simp [charsFrom]

theorem empty_of_cStr (hx : h.cStr x = some (v ++ [0])) :
    h.empty x = some (decide (cText v = [])) := by
  rw [empty, hx]
  cases v with
  | nil => rfl
  | cons c v =>
    by_cases hc : c = 0 <;> simp [cText_cons, hc]

theorem size_of_cStr (hx : h.cStr x = some (v ++ [0])) :
    h.size x = some (BitVec.ofNat 64 (cText v).length) := by
  rw [size, hx]
  exact strlen_concat v

theorem value_of_cStr (hv : (cText v).length < 2 ^ 64) (hx : h.cStr x = some (v ++ [0])) :
    h.value x = some (cText v) := by
  simp only [value, hx, strlen_concat, Option.bind_eq_bind, Option.bind_some, toNat_length hv]
  rw [← List.prefix_iff_eq_take.mp (cText_prefix_concat v)]
  rfl

theorem view_of_cStr (hv : (cText v).length < 2 ^ 64) (hx : h.cStr x = some (v ++ [0])) :
    ∃ p n, h.view x = some (p, n) ∧ h.readChars (some p) n = some (cText v) := by
  have hp := hx
  rw [← charsFrom_cStrPointer, Option.bind_eq_some_iff] at hp
  obtain ⟨p, hp, hchars⟩ := hp
  refine ⟨p, BitVec.ofNat 64 (cText v).length, ?_, ?_⟩
  · simp only [view, hp, hchars, strlen_concat, Option.bind_eq_bind, Option.bind_some]
    rfl
  · rw [readChars]
    split
    · next h0 =>
      have hlen := toNat_length hv
      rw [h0] at hlen
      rw [List.eq_nil_of_length_eq_zero hlen.symm]
    · simp only [Option.bind_eq_bind, Option.bind_some, hchars, toNat_length hv,
        if_pos (cText_prefix_concat v).length_le]
      rw [← List.prefix_iff_eq_take.mp (cText_prefix_concat v)]

theorem equals_of_hasText (hx : h.HasText x v) (hy : h.HasText y w) :
    h.equals x y = some (decide (cText v = cText w)) := by
  obtain ⟨s, hs, hsne⟩ := hasValue_eq_true_iff.mp hx.1
  obtain ⟨s', hs', hsne'⟩ := hasValue_eq_true_iff.mp hy.1
  simp only [equals, hs, hs', hx.2, hy.2, Option.bind_eq_bind, Option.bind_some, hsne, hsne',
    or_self, if_false, strcmp_concat, compare_beq_eq]
  rfl

theorem equalsView_of_hasText {data : Option CharPtr} {size : SizeT}
    (hv : (cText v).length < 2 ^ 64) (hx : h.HasText x v) (hw : h.readChars data size = some w) :
    h.equalsView x data size = some (decide (cText v = w)) := by
  obtain ⟨hlen, hread⟩ := of_readChars hw
  simp only [equalsView, hx.1, hx.2, strlen_concat, Option.bind_eq_bind, Option.bind_some,
    Bool.not_true, Bool.false_eq_true, if_false]
  by_cases hsize : BitVec.ofNat 64 (cText v).length = size
  · have hvw : (cText v).length = size.toNat := by rw [← hsize, toNat_length hv]
    rw [if_neg (not_not_intro hsize)]
    by_cases h0 : BitVec.ofNat 64 (cText v).length = 0
    · have hzero : size.toNat = 0 := by rw [← hsize, h0]; rfl
      rw [if_pos h0, List.eq_nil_of_length_eq_zero (hvw.trans hzero),
        List.eq_nil_of_length_eq_zero (hlen.trans hzero)]
      rfl
    · obtain ⟨p, c, rfl, hc, hle, rfl⟩ := hread (hsize ▸ h0)
      have htext : (v ++ [0]).take (cText v).length = cText v :=
        (List.prefix_iff_eq_take.mp (cText_prefix_concat v)).symm
      rw [if_neg h0, Option.bind_some, hc, Option.bind_some, toNat_length hv,
        memcmp_eq (cText_prefix_concat v).length_le (hvw ▸ hle), htext, hvw, Option.bind_some,
        compare_beq_eq]
      rfl
  · rw [if_pos hsize, decide_eq_false]
    · rfl
    · rintro rfl
      refine hsize ?_
      rw [hlen, BitVec.ofNat_toNat, BitVec.setWidth_eq]

end Heap

end Doost.Strings
