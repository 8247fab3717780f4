import Doost.Foundations.AdjacentSort
import Doost.Strings.Comparison
import Doost.Strings.Swapping

/-!
# Sorting a vector of `String`s

`bubble_sort` of the string benchmark. It only swaps neighbours of which the second is less, which
therefore own different blocks, so that each swap renames them (`swap_eq`): at every moment the heap
is the one at the start with its objects renamed (`Arranged`), and the loops keep the invariants of
a stable sort. `bubble_sort_stable` says what is left in the vector and that nothing else changes.
-/

namespace Doost.Strings

open Transition AdjacentSort

/-- A `std::vector<String>`, by the addresses of its elements. -/
structure StringVector where
  elements : List ObjectId
  nodup : elements.Nodup
  length_lt : elements.length < 2 ^ 64

namespace StringVector

def size (values : StringVector) : SizeT := BitVec.ofNat 64 values.elements.length

/-- `values[i]`, with `none` for an index past the end. -/
def subscript (values : StringVector) (i : SizeT) : Option ObjectId := values.elements[i.toNat]?

end StringVector

namespace Heap

/-- The inner loop of `bubble_sort` from `i` on, if it ends within `fuel` tests. -/
def bubblePass (values : StringVector) (pass : SizeT) : ℕ → SizeT → Heap → Option Heap
  | 0, _, _ => none
  | fuel + 1, i, h =>
    if i < values.size - pass then do
      let lower ← values.subscript (i - 1)
      let upper ← values.subscript i
      let h ← if ← h.less upper lower then h.swap lower upper else some h
      bubblePass values pass fuel (i + 1) h
    else some h

/-- The outer loop of `bubble_sort` from `pass` on, if it and its inner loops end within their
numbers of tests. -/
def bubblePasses (values : StringVector) (inner : ℕ) : ℕ → SizeT → Heap → Option Heap
  | 0, _, _ => none
  | fuel + 1, pass, h =>
    if pass ≠ values.size then do
      let h ← bubblePass values pass inner 1 h
      bubblePasses values inner fuel (pass + 1) h
    else some h

/-- `bubble_sort`, with `fuel` tests for each of its loops. -/
def bubbleSort (fuel : ℕ) (values : StringVector) (h : Heap) : Option Heap :=
  if values.elements.isEmpty then some h else bubblePasses values fuel fuel 0 h

/-! ## Observers after a renaming -/

variable {h h₁ : Heap} {σ : Equiv.Perm ObjectId} {x y : ObjectId} {b : UIntPtr}

/-- The block, the uniqueness bit and the characters of the `String` at `x`. -/
def item (h : Heap) (x : ObjectId) : Option (UIntPtr × Bool × List UInt8) := do
  return ((← h.strings x).block.pointer, ← h.unique x, ← h.cStr x)

theorem rename_cStr (x : ObjectId) : (h.rename σ).cStr (σ x) = h.cStr x := by
  rw [cStr, cStr, rename_strings_apply]
  rcases h.strings x with - | s
  · rfl
  · change (if s.block.pointer = 0 then some [0]
      else ((h.blocks s.block.pointer).map (Block.rename σ)).bind fun k => some k.data) =
        if s.block.pointer = 0 then some [0]
        else (h.blocks s.block.pointer).bind fun k => some k.data
    cases h.blocks s.block.pointer <;> rfl

theorem rename_unique (x : ObjectId) : (h.rename σ).unique (σ x) = h.unique x := by
  rw [unique, unique, rename_strings_apply]
  cases h.strings x <;> rfl

theorem rename_item (x : ObjectId) : (h.rename σ).item (σ x) = h.item x := by
  rw [item, item, rename_unique, rename_cStr, rename_strings_apply]
  cases h.strings x <;> rfl

theorem rename_less (x y : ObjectId) : (h.rename σ).less (σ x) (σ y) = h.less x y := by
  rw [less, less, rename_cStr, rename_cStr, rename_strings_apply, rename_strings_apply]
  cases h.strings x <;> cases h.strings y <;> rfl

theorem Represented.linked (hh : h.Represented) : h.Linked := by
  obtain ⟨A, t, rfl, -⟩ := hh
  exact A.linked_heap t

/-! ## Swaps within a vector -/

/-- The `Strings` of `h` have moved within `values`: `xs` are the places from which its elements
came. -/
def Arranged (h : Heap) (values : StringVector) (h₁ : Heap) (xs : List ObjectId) : Prop :=
  ∃ σ : Equiv.Perm ObjectId, h₁ = h.rename σ ∧ xs.map σ = values.elements ∧
    ∀ z, z ∉ values.elements → σ z = z

variable {values : StringVector} {l₁ l₂ xs : List ObjectId} {i : SizeT}

theorem arranged_self (h : Heap) (values : StringVector) : Arranged h values h values.elements :=
  ⟨Equiv.refl _, rename_refl.symm, List.map_id _, fun _ _ => rfl⟩

/-- What moves within the vector comes from the vector. -/
theorem mem_of_map_eq (hmap : xs.map σ = values.elements)
    (hfix : ∀ z, z ∉ values.elements → σ z = z) (hx : x ∈ xs) : x ∈ values.elements := by
  by_contra hnot
  have hmem : σ x ∈ values.elements := hmap ▸ List.mem_map_of_mem hx
  rw [hfix x hnot] at hmem
  exact hnot hmem

theorem subscript_middle (hmap : (l₁ ++ x :: l₂).map σ = values.elements)
    (hi : i.toNat = l₁.length) : values.subscript i = some (σ x) := by
  rw [StringVector.subscript, ← hmap, hi, List.map_append, List.map_cons,
    List.getElem?_append_right (by rw [List.length_map]), List.length_map, Nat.sub_self]
  rfl

/-- When neighbours change places, the names of their places do too. -/
theorem map_exchange (hnodup : (l₁ ++ x :: y :: l₂).Nodup) :
    (l₁ ++ y :: x :: l₂).map (σ.trans (Equiv.swap (σ x) (σ y))) =
      (l₁ ++ x :: y :: l₂).map σ := by
  obtain ⟨-, hxy, hapart⟩ := List.nodup_append.mp hnodup
  have hother : ∀ z, z ≠ x → z ≠ y → σ.trans (Equiv.swap (σ x) (σ y)) z = σ z := fun z hzx hzy =>
    Equiv.swap_apply_of_ne_of_ne (σ.injective.ne hzx) (σ.injective.ne hzy)
  have hfront : l₁.map (σ.trans (Equiv.swap (σ x) (σ y))) = l₁.map σ := by
    refine List.map_congr_left fun z hz => hother z ?_ ?_
    · exact hapart z hz x (by simp)
    · exact hapart z hz y (by simp)
  have hrest : l₂.map (σ.trans (Equiv.swap (σ x) (σ y))) = l₂.map σ := by
    rw [List.nodup_cons, List.nodup_cons] at hxy
    refine List.map_congr_left fun z hz => hother z ?_ ?_
    · rintro rfl
      exact hxy.1 (List.mem_cons_of_mem y hz)
    · rintro rfl
      exact hxy.2.1 hz
  simp only [List.map_append, List.map_cons, hfront, hrest, Equiv.trans_apply,
    Equiv.swap_apply_left, Equiv.swap_apply_right]

/-- **One test of the inner loop**: two neighbours are compared, and swapped if they are out of
order. -/
theorem Arranged.step (harr : Arranged h values h₁ (l₁ ++ x :: y :: l₂)) (hh : h.Represented)
    (hlive : ∀ z ∈ values.elements, (h.strings z).isSome) (hi : i.toNat = l₁.length + 1) :
    ∃ lower upper, values.subscript (i - 1) = some lower ∧ values.subscript i = some upper ∧
      h₁.less upper lower = some (compare (h.key y) (h.key x) == .lt) ∧
      (compare (h.key y) (h.key x) = .lt →
        ∃ h₂, h₁.swap lower upper = some h₂ ∧ Arranged h values h₂ (l₁ ++ y :: x :: l₂)) := by
  obtain ⟨σ, rfl, hmap, hfix⟩ := harr
  have hx := hlive x (mem_of_map_eq hmap hfix (by simp))
  have hy := hlive y (mem_of_map_eq hmap hfix (by simp))
  have hi1 : (i - 1).toNat = l₁.length := by
    have hle : (1 : SizeT) ≤ i := by
      rw [BitVec.le_def, hi]
      exact Nat.le_add_left 1 _
    rw [BitVec.toNat_sub_of_le hle, hi]
    rfl
  have hmap' : ((l₁ ++ [x]) ++ y :: l₂).map σ = values.elements := by
    rw [List.append_assoc]
    exact hmap
  refine ⟨σ x, σ y, subscript_middle hmap hi1, subscript_middle hmap' (by simpa using hi), ?_,
    fun hlt => ?_⟩
  · rw [rename_less, hh.less_eq hy hx]
  · obtain ⟨s, hs⟩ := Option.isSome_iff_exists.mp hx
    obtain ⟨s', hs'⟩ := Option.isSome_iff_exists.mp hy
    -- owners of one block have one key
    have hne : s.block.pointer ≠ s'.block.pointer := by
      intro heq
      have hkey := key_eq_of_owns ⟨s, hs, rfl⟩ ⟨s', hs', heq.symm⟩
      rw [hkey, Std.LawfulEqOrd.compare_eq_iff_eq.mpr rfl] at hlt
      cases hlt
    have hσs : (h.rename σ).strings (σ x) = some (s.rename σ) := by
      rw [rename_strings_apply, hs, Option.map_some]
    have hσs' : (h.rename σ).strings (σ y) = some (s'.rename σ) := by
      rw [rename_strings_apply, hs', Option.map_some]
    refine ⟨_, (hh.linked.rename σ).swap_eq hσs hσs' hne, σ.trans (Equiv.swap (σ x) (σ y)),
      rename_rename, ?_, fun z hz => ?_⟩
    · rw [map_exchange, hmap]
      exact List.Nodup.of_map σ (hmap ▸ values.nodup)
    · have hz' : ∀ w ∈ l₁ ++ x :: y :: l₂, z ≠ σ w := by
        rintro w hw rfl
        exact hz (hmap ▸ List.mem_map_of_mem hw)
      rw [Equiv.trans_apply, hfix z hz,
        Equiv.swap_apply_of_ne_of_ne (hz' x (by simp)) (hz' y (by simp))]

/-! ## The loops -/

/-- A loop counter below a bound does not wrap. -/
theorem toNat_add_one {j : SizeT} (hij : i < j) : (i + 1).toNat = i.toNat + 1 := by
  have hlt := BitVec.lt_def.mp hij
  have hbound := j.isLt
  rw [BitVec.toNat_add]
  exact Nat.mod_eq_of_lt (by change i.toNat + 1 < 2 ^ 64; omega)

theorem toNat_size (values : StringVector) : values.size.toNat = values.elements.length := by
  rw [StringVector.size, BitVec.toNat_ofNat, Nat.mod_eq_of_lt values.length_lt]

/-- **The inner loop** moves the greatest of the elements it passes over to the end of them. -/
theorem bubblePass_spec {values : StringVector} {pass : SizeT} {sorted : List ObjectId}
    (hh : h.Represented) (hlive : ∀ z ∈ values.elements, (h.strings z).isSome)
    {front rest : List ObjectId} (harr : Arranged h values h₁ ((front ++ x :: rest) ++ sorted))
    (hp : Passing h.key values.elements front x rest sorted)
    (hi : i.toNat = front.length + 1)
    (hend : (values.size - pass).toNat = front.length + 1 + rest.length) :
    ∃ h₂ front' y, (∀ fuel, rest.length < fuel → bubblePass values pass fuel i h₁ = some h₂) ∧
      front'.length = front.length + rest.length ∧
      Passing h.key values.elements front' y [] sorted ∧
      Arranged h values h₂ ((front' ++ [y]) ++ sorted) := by
  induction rest generalizing front x h₁ i with
  | nil =>
    have hstop : ¬ i < values.size - pass := by
      rw [BitVec.lt_def, hi, hend]
      exact Nat.lt_irrefl _
    refine ⟨h₁, front, x, fun fuel hfuel => ?_, rfl, hp, harr⟩
    obtain ⟨fuel, rfl⟩ := Nat.exists_eq_add_one.mpr hfuel
    exact if_neg hstop
  | cons z rest ih =>
    rw [List.length_cons] at hend
    have hgo : i < values.size - pass := by
      rw [BitVec.lt_def, hi, hend]
      omega
    have hnext : (i + 1).toNat = front.length + 1 + 1 := by rw [toNat_add_one hgo, hi]
    have hlength : ∀ w : ObjectId, (front ++ [w]).length = front.length + 1 := fun w =>
      List.length_append
    have hend' : ∀ w : ObjectId, (values.size - pass).toNat =
        (front ++ [w]).length + 1 + rest.length := by
      intro w
      rw [hend, hlength]
      omega
    rw [List.append_assoc, List.cons_append] at harr
    obtain ⟨lower, upper, hlower, hupper, hless, hswap⟩ := harr.step hh hlive hi
    have hround : ∀ fuel, bubblePass values pass (fuel + 1) i h₁ =
        if compare (h.key z) (h.key x) = .lt then
          (h₁.swap lower upper).bind (bubblePass values pass fuel (i + 1))
        else bubblePass values pass fuel (i + 1) h₁ := by
      intro fuel
      rw [bubblePass, if_pos hgo, hlower, hupper]
      simp only [Option.bind_eq_bind, Option.bind_some, hless, beq_iff_eq]
    by_cases hlt : compare (h.key z) (h.key x) = .lt
    · obtain ⟨h₂, hh₂, harr₂⟩ := hswap hlt
      have harr₂' : Arranged h values h₂ (((front ++ [z]) ++ x :: rest) ++ sorted) := by
        simpa using harr₂
      obtain ⟨h₃, front', y, hrun, hlen, hp', harr₃⟩ := ih harr₂' (hp.exchange hlt)
        (by rw [hlength, hnext]) (hend' z)
      refine ⟨h₃, front', y, fun fuel hfuel => ?_, ?_, hp', harr₃⟩
      · obtain ⟨fuel, rfl⟩ := Nat.exists_eq_add_one.mpr (Nat.zero_lt_of_lt hfuel)
        rw [hround, if_pos hlt, hh₂, Option.bind_some]
        exact hrun fuel (Nat.lt_of_succ_lt_succ hfuel)
      · rw [hlen, hlength, List.length_cons]
        omega
    · have harr₂ : Arranged h values h₁ (((front ++ [x]) ++ z :: rest) ++ sorted) := by
        simpa using harr
      obtain ⟨h₃, front', y, hrun, hlen, hp', harr₃⟩ := ih harr₂ (hp.keep hlt)
        (by rw [hlength, hnext]) (hend' x)
      refine ⟨h₃, front', y, fun fuel hfuel => ?_, ?_, hp', harr₃⟩
      · obtain ⟨fuel, rfl⟩ := Nat.exists_eq_add_one.mpr (Nat.zero_lt_of_lt hfuel)
        rw [hround, if_neg hlt]
        exact hrun fuel (Nat.lt_of_succ_lt_succ hfuel)
      · rw [hlen, hlength, List.length_cons]
        omega

/-- **The outer loop** puts one more element into its place in each pass. -/
theorem bubblePasses_spec {values : StringVector} {pass : SizeT} {unsorted sorted : List ObjectId}
    (hh : h.Represented) (hlive : ∀ z ∈ values.elements, (h.strings z).isSome)
    (harr : Arranged h values h₁ (unsorted ++ sorted))
    (hs : Settled h.key values.elements unsorted sorted) (hpass : pass.toNat = sorted.length) :
    ∃ h₂ sorted', (∀ inner fuel, values.elements.length < inner → unsorted.length < fuel →
        bubblePasses values inner fuel pass h₁ = some h₂) ∧
      Settled h.key values.elements [] sorted' ∧ Arranged h values h₂ sorted' := by
  have hlength : unsorted.length + sorted.length = values.elements.length := by
    rw [← List.length_append, hs.stable.perm.length_eq]
  induction hn : unsorted.length generalizing unsorted sorted h₁ pass with
  | zero =>
    obtain rfl := List.eq_nil_of_length_eq_zero hn
    have hstop : ¬ pass ≠ values.size := by
      rw [not_not]
      apply BitVec.eq_of_toNat_eq
      rw [toNat_size, hpass, ← hlength, List.length_nil, Nat.zero_add]
    refine ⟨h₁, sorted, fun inner fuel _ hfuel => ?_, hs, harr⟩
    obtain ⟨fuel, rfl⟩ := Nat.exists_eq_add_one.mpr hfuel
    exact if_neg hstop
  | succ n ih =>
    obtain ⟨x, rest, rfl⟩ := List.exists_cons_of_length_eq_add_one hn
    rw [List.length_cons] at hn hlength
    have hlt : pass < values.size := by
      rw [BitVec.lt_def, toNat_size, hpass, ← hlength]
      omega
    have hend : (values.size - pass).toNat = ([] : List ObjectId).length + 1 + rest.length := by
      rw [BitVec.toNat_sub_of_le (BitVec.le_of_lt hlt), toNat_size, hpass, ← hlength,
        List.length_nil]
      omega
    have hstart : Arranged h values h₁ (([] ++ x :: rest) ++ sorted) := harr
    obtain ⟨h₂, front, y, hrun, hlen, hp, harr₂⟩ :=
      bubblePass_spec hh hlive hstart hs.pass (by rfl : (1 : SizeT).toNat = _) hend
    have harr₂' : Arranged h values h₂ (front ++ y :: sorted) := by simpa using harr₂
    have hnext : (pass + 1).toNat = (y :: sorted).length := by
      rw [toNat_add_one hlt, hpass, List.length_cons]
    rw [List.length_nil, Nat.zero_add] at hlen
    obtain ⟨h₃, sorted', hrun', hs', harr₃⟩ := ih harr₂' hp.finish hnext
      (by rw [List.length_cons]; omega) (hlen.trans (Nat.add_right_cancel hn))
    refine ⟨h₃, sorted', fun inner fuel hinner hfuel => ?_, hs', harr₃⟩
    obtain ⟨fuel, rfl⟩ := Nat.exists_eq_add_one.mpr (Nat.zero_lt_of_lt hfuel)
    rw [bubblePasses, if_pos (by rintro rfl; exact BitVec.lt_irrefl _ hlt),
      hrun inner (by omega)]
    exact hrun' inner fuel hinner (by omega)

/-- `bubble_sort` ends, with a stably sorted rearrangement of the `String`s in the vector. -/
theorem bubbleSort_spec (hh : h.Represented) (values : StringVector)
    (hlive : ∀ z ∈ values.elements, (h.strings z).isSome) :
    ∃ h₂ xs, (∀ fuel, values.elements.length < fuel → bubbleSort fuel values h = some h₂) ∧
      StablyRearranged h.key values.elements xs ∧ Ascending h.key xs ∧
      Arranged h values h₂ xs := by
  have hstart : Arranged h values h (values.elements ++ []) := by
    rw [List.append_nil]
    exact arranged_self h values
  obtain ⟨h₂, xs, hrun, hs, harr⟩ := bubblePasses_spec hh hlive hstart
    (Settled.start h.key values.elements) (by rfl : (0 : SizeT).toNat = _)
  by_cases hempty : values.elements.isEmpty
  · rw [List.isEmpty_iff] at hempty
    refine ⟨h, values.elements, fun fuel _ => ?_, .refl _ _, ?_, arranged_self h values⟩
    · rw [bubbleSort, hempty]
      rfl
    · rw [hempty]
      exact List.Pairwise.nil
  · refine ⟨h₂, xs, fun fuel hfuel => ?_, hs.finish.1, hs.finish.2, harr⟩
    rw [bubbleSort, if_neg hempty]
    exact hrun fuel fuel hfuel hfuel

theorem owns_rename_image : {x | (h.rename σ).Owns x b} = σ '' {x | h.Owns x b} := by
  ext x
  rw [Set.mem_image]
  constructor
  · intro hx
    rw [Set.mem_ofPred_eq, ← σ.apply_symm_apply x, owns_rename] at hx
    exact ⟨σ.symm x, hx, σ.apply_symm_apply x⟩
  · rintro ⟨y, hy, rfl⟩
    exact owns_rename.mpr hy

end Heap

/-- **Sorting shared `String`s.** In a reachable heap `bubble_sort` ends on every vector of existing
objects, with any number of tests above the length of the vector for each loop. It leaves them
ascending, `rearranged` being the places in the vector from which they came; everything else stays
as it was. -/
theorem bubble_sort_stable (t : DebugTrace) (ops : List StringOp) (h : Heap)
    (hrun : run Heap.next (Heap.start t) ops = some h) (values : StringVector)
    (hlive : ∀ x ∈ values.elements, (h.strings x).isSome) :
    ∃ (h' : Heap) (rearranged : List ObjectId),
      (∀ fuel, values.elements.length < fuel → Heap.bubbleSort fuel values h = some h') ∧
      values.elements.Pairwise (fun x y => h'.less y x = some false) ∧
      rearranged.Perm values.elements ∧
      (∀ x ∈ values.elements, rearranged.filter (fun y => h.equals x y = some true) =
        values.elements.filter fun y => h.equals x y = some true) ∧
      values.elements.map h'.item = rearranged.map h.item ∧
      (∀ z, z ∉ values.elements → h'.item z = h.item z) ∧
      ∀ b, {x | h'.Owns x b}.encard = {x | h.Owns x b}.encard := by
  have hh := represented_run hrun
  obtain ⟨h', xs, hsort, hstable, hascending, σ, rfl, hmap, hfix⟩ :=
    Heap.bubbleSort_spec hh values hlive
  have hxs : ∀ x ∈ xs, (h.strings x).isSome := fun x hx =>
    hlive x (hstable.perm.mem_iff.mp hx)
  refine ⟨_, xs, hsort, ?_, hstable.perm, fun x hx => ?_, ?_, fun z hz => ?_, fun b => ?_⟩
  · rw [← hmap, List.pairwise_map]
    refine hascending.imp_of_mem fun {x y} hx hy hle => ?_
    rw [Heap.rename_less, hh.less_eq (hxs y hy) (hxs x hx), beq_eq_false_iff_ne.mpr hle]
  · have hkey : ∀ y, (h.strings y).isSome →
        decide (h.equals x y = some true) = decide (h.key y = h.key x) := by
      intro y hy
      rw [decide_eq_decide, hh.equals_iff, eq_comm (a := h.key y)]
      exact ⟨fun heq => heq.2.2, fun heq => ⟨hlive x hx, hy, heq⟩⟩
    rw [List.filter_congr fun y hy => hkey y (hxs y hy),
      List.filter_congr fun y hy => hkey y (hlive y hy)]
    exact hstable.filter_eq (h.key x)
  · rw [← hmap, List.map_map]
    exact List.map_congr_left fun x _ => Heap.rename_item x
  · have hitem : (h.rename σ).item (σ z) = h.item z := Heap.rename_item z
    rwa [hfix z hz] at hitem
  · rw [Heap.owns_rename_image]
    exact σ.injective.encard_image _

/-- Equal texts with different owners, a null object, and an owner outside the vector. -/
def sharedVectorRun : List StringOp :=
  [.constructText 0 (.string [98]) (some 4096), .constructText 1 (.string [97]) (some 8192),
    .defaultConstruct 2, .copyConstruct 3 0, .constructText 4 (.string [97]) (some 12288),
    .copyConstruct 9 4]

/-- The first five objects of `sharedVectorRun`. -/
def sharedVector : StringVector := ⟨[0, 1, 2, 3, 4], by decide, by decide⟩

/-- Null comes first, and of the two texts `a` the unique one stays before the shared one. -/
theorem bubble_sort_stable_sharedVectorRun :
    ∃ h h', run Heap.next (Heap.start ⟨false, none, fun _ => []⟩) sharedVectorRun = some h ∧
      (∀ fuel, 5 < fuel → Heap.bubbleSort fuel sharedVector h = some h') ∧
      h'.unique 0 = some false ∧ h'.cStr 1 = some [97, 0] ∧ h'.unique 1 = some true ∧
      h'.cStr 2 = some [97, 0] ∧ h'.unique 2 = some false ∧ h'.item 9 = h.item 9 := by
  have hfacts : (run Heap.next (Heap.start ⟨false, none, fun _ => []⟩) sharedVectorRun).bind
      (fun h => (Heap.bubbleSort 6 sharedVector h).map fun h' =>
        (sharedVector.elements.all fun x => (h.strings x).isSome, h'.unique 0, h'.cStr 1,
          h'.unique 1, h'.cStr 2, h'.unique 2)) =
      some (true, some false, some [97, 0], some true, some [97, 0], some false) := by rfl
  obtain ⟨h, hrun, hh⟩ := Option.bind_eq_some_iff.mp hfacts
  obtain ⟨h₁, hsort, hh₁⟩ := Option.map_eq_some_iff.mp hh
  simp only [Prod.mk.injEq, List.all_eq_true] at hh₁
  obtain ⟨hlive, hh₁⟩ := hh₁
  obtain ⟨h', xs, hsort', -, -, -, -, houtside, -⟩ :=
    bubble_sort_stable _ sharedVectorRun h hrun sharedVector hlive
  obtain rfl := Option.some.inj (hsort.symm.trans (hsort' 6 (by decide)))
  exact ⟨h, h₁, hrun, hsort', hh₁.1, hh₁.2.1, hh₁.2.2.1, hh₁.2.2.2.1, hh₁.2.2.2.2,
    houtside 9 (by decide)⟩

end Doost.Strings
