import Doost.Foundations.Decimal
import Doost.Foundations.Scopes
import Doost.Strings.Sorting

/-!
# The string benchmark

`run_benchmark` fills a vector with texts and another one with copies of every eighth of them, sorts
the first vector and counts its unique `String`s before and after. At every moment the heap is the
one at the start with the elements of the two vectors besides (`filled`), so that sorting only
renames these, and the destructors of the vectors bring the first heap back.
-/

namespace Doost.Strings

open Transition AdjacentSort SharedValues

/-! ## The program -/

/-- `make_value`. -/
def makeValue (value : BitVec 32) : List UInt8 :=
  ascii "string-" ++ ascii (String.ofList (Decimal.write value.toNat))

/-- A vector of `size` elements in the array at `data`. -/
def StringVector.at (data : ObjectId) (size : BitVec 32) : StringVector where
  elements := List.range' data size.toNat
  nodup := List.nodup_range'
  length_lt := by
    have hsize := size.isLt
    rw [List.length_range']
    omega

namespace Heap

/-- `count_unique`. -/
def countUnique (values : List ObjectId) (h : Heap) : Option SizeT :=
  values.foldlM (fun result value => do
    return if ← h.unique value then result + 1 else result) 0

/-- The loop of `run_benchmark` that fills the vectors, from `i` on, if it ends within `fuel`
tests: the second vector has `count` elements by then. The arrays of the vectors, which have been
reserved, are at `values` and `aliases`, and `storage i` is what `new` returns in round `i`. -/
def fillVectors (n : BitVec 32) (values aliases : ObjectId)
    (storage : BitVec 32 → Option UIntPtr) :
    ℕ → BitVec 32 → ℕ → Heap → Option (Except Heap (ℕ × Heap))
  | 0, _, _, _ => none
  | fuel + 1, i, count, h =>
    if i ≠ n then do
      match ← h.constructString (values + i.toNat) (makeValue (n - i)) (storage i) with
      | .error h => return .error h
      | .ok h =>
        if i % 8 = 0 then do
          let h ← h.copyConstruct (aliases + count) (values + i.toNat)
          fillVectors n values aliases storage fuel (i + 1) (count + 1) h
        else fillVectors n values aliases storage fuel (i + 1) count h
    else some (.ok (count, h))

/-- What is written for an element of a vector, or for no element. -/
def printed (value : Option ObjectId) (h : Heap) : Option (List UInt8) :=
  match value with
  | none => some []
  | some value => (h.cStr value).map cText

/-- The destructor of a vector. -/
def destroyAll (values : List ObjectId) (h : Heap) : Option Heap := values.foldlM destroy h

end Heap

/-- What `run_benchmark` writes, the time and the memory left out. -/
structure Report where
  stringCount : BitVec 32
  externalAliases : ℕ
  uniqueBefore : SizeT
  uniqueAfter : SizeT
  firstValue : List UInt8
  lastValue : List UInt8

/-- `run_benchmark`, with `fuel` tests for each of its loops. `std::bad_alloc` leaves it with the
heap of that moment. -/
def Heap.runBenchmark (fuel : ℕ) (n : BitVec 32) (values aliases : ObjectId)
    (storage : BitVec 32 → Option UIntPtr) (h : Heap) : Option (Except Heap (Report × Heap)) := do
  match ← h.fillVectors n values aliases storage fuel 0 0 with
  | .error h => return .error h
  | .ok (count, h) =>
    let vector := StringVector.at values n
    let uniqueBefore ← h.countUnique vector.elements
    let h ← Heap.bubbleSort fuel vector h
    let uniqueAfter ← h.countUnique vector.elements
    let firstValue ← h.printed vector.elements.head?
    let lastValue ← h.printed vector.elements.getLast?
    let h ← h.destroyAll (List.range' aliases count)
    let h ← h.destroyAll vector.elements
    return .ok (⟨n, count, uniqueBefore, uniqueAfter, firstValue, lastValue⟩, h)

/-! ## The texts -/

theorem toNat_of_isDigit {c : Char} (hc : Decimal.IsDigit c) :
    (UInt8.ofNat c.toNat).toNat = c.toNat := by
  obtain ⟨-, hle⟩ := hc
  have h9 : '9'.toNat = 57 := rfl
  rw [UInt8.toNat_ofNat']
  omega

/-- The numeral's bytes. -/
theorem makeValue_eq (value : BitVec 32) : makeValue value =
    ascii "string-" ++ (Decimal.write value.toNat).map fun c => UInt8.ofNat c.toNat := by
  rw [makeValue, ascii, ascii]
  simp only [String.toList_ofList]

theorem zero_notMem_makeValue (value : BitVec 32) : 0 ∉ makeValue value := by
  rw [makeValue_eq, List.mem_append, not_or]
  refine ⟨by decide, fun hmem => ?_⟩
  obtain ⟨c, hc, hzero⟩ := List.mem_map.mp hmem
  have hdigit := Decimal.isDigit_of_mem_write hc
  have hvalue := toNat_of_isDigit hdigit
  have h0 : '0'.toNat = 48 := rfl
  rw [hzero, UInt8.toNat_zero] at hvalue
  have hle := hdigit.1
  omega

theorem length_makeValue_le (value : BitVec 32) : (makeValue value).length ≤ 17 := by
  have hlength := Decimal.length_write_le (k := 10) (by decide) (value.isLt.trans (by decide))
  have hprefix : (ascii "string-").length = 7 := by decide
  rw [makeValue_eq, List.length_append, List.length_map, hprefix]
  omega

/-- No numeral begins with a zero, so that of the texts `string-1` comes first. -/
theorem makeValue_one_le {value : BitVec 32} (hvalue : value ≠ 0) :
    makeValue 1 ≤ makeValue value := by
  have hpos : 0 < value.toNat := by
    rw [Nat.pos_iff_ne_zero]
    exact fun hzero => hvalue (BitVec.eq_of_toNat_eq hzero)
  obtain ⟨d, rest, hd, hlt, hwrite⟩ := Decimal.write_eq_cons hpos
  have hone : Decimal.write (1 : BitVec 32).toNat = [Decimal.digit 1] :=
    Decimal.write_of_lt (by decide)
  rw [makeValue_eq, makeValue_eq, hwrite, hone]
  refine List.append_left_le (List.cons_le_cons_iff.mpr ?_)
  have hdigit : (UInt8.ofNat (Decimal.digit d).toNat).toNat = 48 + d := by
    rw [toNat_of_isDigit (Decimal.isDigit_digit hlt), Decimal.toNat_digit hlt]
    rfl
  rcases Nat.lt_or_ge 1 d with h1 | h1
  · refine Or.inl (UInt8.lt_iff_toNat_lt.mpr ?_)
    rw [hdigit]
    exact Nat.add_lt_add_left h1 48
  · obtain rfl : d = 1 := by omega
    exact Or.inr ⟨rfl, List.nil_le _⟩

/-! ## Renamed heaps -/

/-- The bookkeeping of the objects at their new addresses. -/
def Ownership.rename (A : Ownership) (σ : Equiv.Perm ObjectId) : Ownership where
  pointer x := A.pointer (σ.symm x)
  owners b := (A.owners b).map σ
  data := A.data
  nodup b := (A.nodup b).map σ.injective
  mem_owners b x := by
    rw [← A.mem_owners, ← List.mem_map_of_injective σ.injective (a := σ.symm x),
      σ.apply_symm_apply]
  isSome_data b x hx := by
    obtain ⟨y, hy, -⟩ := List.mem_map.mp hx
    exact A.isSome_data b y hy
  ne_zero := A.ne_zero
  even := A.even
  terminated := A.terminated
  size_lt := A.size_lt

theorem Ownership.heap_rename (A : Ownership) (σ : Equiv.Perm ObjectId) (t : DebugTrace) :
    (A.rename σ).heap t = (A.heap t).rename σ := by
  refine Heap.ext (funext fun z => ?_) (funext fun c => ?_) rfl
  · rw [Heap.rename_strings]
    change (A.pointer (σ.symm z)).map _ = ((A.pointer (σ.symm z)).map _).map _
    rw [Option.map_map]
    refine congrArg (fun f => (A.pointer (σ.symm z)).map f) (funext fun c => ?_)
    have hprevious := Neighbours.prevIn_map σ.injective (A.owners c) (σ.symm z)
    have hnext := Neighbours.nextIn_map σ.injective (A.owners c) (σ.symm z)
    rw [σ.apply_symm_apply] at hprevious hnext
    simp only [Function.comp_apply, ownerRecord, StringObject.rename, Ownership.rename,
      List.length_map, hprevious, hnext]
  · rw [Heap.rename_blocks]
    change (A.data c).map _ = ((A.data c).map _).map _
    rw [Option.map_map]
    refine congrArg (fun f => (A.data c).map f) (funext fun d => ?_)
    simp only [Function.comp_apply, Block.rename, Ownership.rename, List.head?_map]

namespace Heap

variable {h g g' : Heap} {σ : Equiv.Perm ObjectId} {x : ObjectId} {b : UIntPtr}
  {n i : BitVec 32} {values aliases : ℕ} {storage : BitVec 32 → Option UIntPtr}

theorem Represented.rename (hh : h.Represented) (σ : Equiv.Perm ObjectId) :
    (h.rename σ).Represented := by
  obtain ⟨A, t, rfl, hA⟩ := hh
  refine ⟨A.rename σ, t, (A.heap_rename σ t).symm, fun b hb => ?_⟩
  change (A.owners b).map σ ≠ []
  rw [Ne, List.map_eq_nil_iff]
  exact hA b hb

theorem holder_rename (x : ObjectId) : (h.rename σ).shared.holder (σ x) = h.shared.holder x := by
  change ((h.rename σ).strings (σ x)).map _ = _
  rw [rename_strings_apply, Option.map_map]
  rfl

theorem value_rename : (h.rename σ).shared.value = h.shared.value := by
  funext b
  change ((h.blocks b).map (Block.rename σ)).map _ = _
  rw [Option.map_map]
  rfl

/-! ## Filling the vectors -/

/-- The arrays of the vectors lie apart, where no `String` is. -/
structure Reserved (h : Heap) (n : BitVec 32) (values aliases : ℕ) : Prop where
  value_absent : ∀ j, j < n.toNat → h.strings (values + j) = none
  alias_absent : ∀ k, k < n.toNat / 8 + 1 → h.strings (aliases + k) = none
  apart : values + n.toNat ≤ aliases ∨ aliases + (n.toNat / 8 + 1) ≤ values

/-- In each round `new` returns a block of its own, at an even address that is not in use. -/
structure Supplied (h : Heap) (n : BitVec 32) (storage : BitVec 32 → Option UIntPtr) : Prop where
  returns : ∀ i, i < n → ∃ b, storage i = some b ∧ b ≠ 0 ∧ b.toNat % 2 = 0 ∧ h.blocks b = none
  distinct : ∀ i j, i < n → j < n → storage i = storage j → i = j

/-- The block that `new` returns in round `j`. -/
def newBlock (storage : BitVec 32 → Option UIntPtr) (j : ℕ) : UIntPtr :=
  (storage (BitVec.ofNat 32 j)).getD 0

/-- The element that round `j` appends to the first vector. -/
def valueHolding (n : BitVec 32) (values : ℕ) (storage : BitVec 32 → Option UIntPtr)
    (j : ℕ) : Holding ObjectId UIntPtr (List UInt8) :=
  ⟨values + j, newBlock storage j, makeValue (n - BitVec.ofNat 32 j)⟩

/-- Element `k` of the second vector: the copy that round `8 * k` makes. -/
def aliasHolding (n : BitVec 32) (aliases : ℕ) (storage : BitVec 32 → Option UIntPtr)
    (k : ℕ) : Holding ObjectId UIntPtr (List UInt8) :=
  ⟨aliases + k, newBlock storage (8 * k), makeValue (n - BitVec.ofNat 32 (8 * k))⟩

/-- The elements of both vectors after `i` rounds. -/
def filled (n : BitVec 32) (values aliases : ℕ) (storage : BitVec 32 → Option UIntPtr)
    (i : ℕ) : List (Holding ObjectId UIntPtr (List UInt8)) :=
  (List.range i).map (valueHolding n values storage) ++
    (List.range ((i + 7) / 8)).map (aliasHolding n aliases storage)

theorem mem_filled {p : Holding ObjectId UIntPtr (List UInt8)} {i : ℕ} :
    p ∈ filled n values aliases storage i ↔
      (∃ j < i, p = valueHolding n values storage j) ∨
        ∃ k, 8 * k < i ∧ p = aliasHolding n aliases storage k := by
  simp only [filled, List.mem_append, List.mem_map, List.mem_range, eq_comm (a := p)]
  refine or_congr Iff.rfl (exists_congr fun k => and_congr_left fun _ => ?_)
  omega

theorem map_range_succ {α : Type} (f : ℕ → α) (i : ℕ) :
    ((List.range (i + 1)).map f).Perm (f i :: (List.range i).map f) := by
  rw [List.range_succ, List.map_append, List.map_singleton]
  exact List.perm_append_singleton _ _

/-- Round `i` makes an element of the first vector, and every eighth round one of the second. -/
theorem filled_succ (n : BitVec 32) (values aliases : ℕ)
    (storage : BitVec 32 → Option UIntPtr) (i : ℕ) : (filled n values aliases storage (i + 1)).Perm
    (if i % 8 = 0 then aliasHolding n aliases storage (i / 8) ::
        valueHolding n values storage i :: filled n values aliases storage i
      else valueHolding n values storage i :: filled n values aliases storage i) := by
  have hvalues := (map_range_succ (valueHolding n values storage) i)
  split
  · next hi =>
    have hcount : (i + 1 + 7) / 8 = i / 8 + 1 := by omega
    have hlast : (i + 7) / 8 = i / 8 := by omega
    rw [filled, filled, hcount, hlast]
    refine (hvalues.append (map_range_succ (aliasHolding n aliases storage) (i / 8))).trans ?_
    exact List.perm_middle
  · next hi =>
    have hcount : (i + 1 + 7) / 8 = (i + 7) / 8 := by omega
    rw [filled, filled, hcount]
    exact hvalues.append_right _

theorem Supplied.newBlock (hs : Supplied h n storage) (hi : i < n) :
    storage i = some (newBlock storage i.toNat) ∧ newBlock storage i.toNat ≠ 0 ∧
      (newBlock storage i.toNat).toNat % 2 = 0 ∧ h.blocks (newBlock storage i.toNat) = none := by
  obtain ⟨b, hb, hne, heven, hnone⟩ := hs.returns i hi
  have heq : Heap.newBlock storage i.toNat = b := by
    rw [Heap.newBlock, BitVec.ofNat_toNat, BitVec.setWidth_eq, hb]
    rfl
  rw [heq]
  exact ⟨hb, hne, heven, hnone⟩

theorem Supplied.newBlock_inj (hs : Supplied h n storage) {j k : ℕ} (hj : j < n.toNat)
    (hk : k < n.toNat) (heq : Heap.newBlock storage j = Heap.newBlock storage k) : j = k := by
  have hround : ∀ m, m < n.toNat → (BitVec.ofNat 32 m).toNat = m := fun m hm => by
    rw [BitVec.toNat_ofNat, Nat.mod_eq_of_lt (hm.trans n.isLt)]
  have hlt : ∀ m, m < n.toNat → BitVec.ofNat 32 m < n := fun m hm => by
    rw [BitVec.lt_def, hround m hm]
    exact hm
  have hstorage : ∀ m, m < n.toNat → storage (BitVec.ofNat 32 m) =
      some (Heap.newBlock storage m) := fun m hm => by
    have hblock := (hs.newBlock (hlt m hm)).1
    rwa [hround m hm] at hblock
  have hindex := hs.distinct _ _ (hlt j hj) (hlt k hk)
    (by rw [hstorage j hj, hstorage k hk, heq])
  rw [← hround j hj, ← hround k hk, hindex]

theorem strings_of_extends {l : List (Holding ObjectId UIntPtr (List UInt8))}
    (hext : Extends h.shared l g.shared) (hx : x ∉ l.map Holding.object)
    (habsent : h.strings x = none) : g.strings x = none := by
  refine Option.map_eq_none_iff.mp ((hext.others x hx).trans ?_)
  change (h.strings x).map _ = none
  rw [habsent, Option.map_none]

theorem blocks_of_extends {l : List (Holding ObjectId UIntPtr (List UInt8))}
    (hext : Extends h.shared l g.shared) (hb : b ∉ l.map Holding.name)
    (hunused : h.blocks b = none) : g.blocks b = none := by
  refine Option.map_eq_none_iff.mp ((hext.kept b hb).trans ?_)
  change (h.blocks b).map _ = none
  rw [hunused, Option.map_none]

/-- With storage for its block the constructor does not throw. -/
theorem ok_of_constructString {this : ObjectId} {bytes : List UInt8} {r : Except Heap Heap}
    (hrun : h.constructString this bytes (some b) = some r) : ∃ g, r = .ok g := by
  simp only [constructString, constructChars, makeBlock, Option.bind_eq_bind,
    Option.bind_eq_some_iff] at hrun
  obtain ⟨m, ⟨text, -, hm⟩, hr⟩ := hrun
  split at hm
  · cases hm
  · obtain rfl := Option.some.inj hm
    simp only [Option.bind_eq_some_iff] at hr
    obtain ⟨g, -, hg⟩ := hr
    exact ⟨g, (Option.some.inj hg).symm⟩

/-- A round constructs an element of the first vector. -/
theorem fill_value (hh : h.Represented) (hreserved : Reserved h n values aliases)
    (hsupplied : Supplied h n storage) (hg : g.Represented)
    (hext : Extends h.shared (filled n values aliases storage i.toNat) g.shared) (hi : i < n) :
    ∃ g', g.constructString (values + i.toNat) (makeValue (n - i)) (storage i) = some (.ok g') ∧
      g'.Represented ∧ Extends h.shared (valueHolding n values storage i.toNat ::
        filled n values aliases storage i.toNat) g'.shared := by
  have hin : i.toNat < n.toNat := BitVec.lt_def.mp hi
  obtain ⟨hstorage, hne, heven, hunused⟩ := hsupplied.newBlock hi
  have habsent : g.strings (values + i.toNat) = none := by
    refine strings_of_extends hext (fun hmem => ?_) (hreserved.value_absent _ hin)
    obtain ⟨p, hp, heq⟩ := List.mem_map.mp hmem
    obtain ⟨j, hj, rfl⟩ | ⟨k, hk, rfl⟩ := mem_filled.mp hp
    · change @Eq ℕ (values + j) (values + i.toNat) at heq
      omega
    · change @Eq ℕ (aliases + k) (values + i.toNat) at heq
      have hapart := hreserved.apart
      omega
  have hfree : g.blocks (newBlock storage i.toNat) = none := by
    refine blocks_of_extends hext (fun hmem => ?_) hunused
    obtain ⟨p, hp, heq⟩ := List.mem_map.mp hmem
    obtain ⟨j, hj, rfl⟩ | ⟨k, hk, rfl⟩ := mem_filled.mp hp
    · exact hj.ne (hsupplied.newBlock_inj (hj.trans hin) hin heq)
    · exact hk.ne (hsupplied.newBlock_inj (hk.trans hin) hin heq)
  have hlength := length_makeValue_le (n - i)
  have hlegal : g.legal (.constructText (values + i.toNat) (.string (makeValue (n - i)))
      (storage i)) := by
    have hbytes : (blockBytes (BitVec.ofNat 64 (makeValue (n - i)).length)).toNat < 2 ^ 63 := by
      have height : sizeofBlock.toNat = 8 := rfl
      have hone : (1 : SizeT).toNat = 1 := rfl
      simp only [blockBytes, BitVec.toNat_add, BitVec.toNat_ofNat, height, hone]
      omega
    simp only [legal, acceptsText, stringData, CharPtr.isArray, mayReturn, hstorage, habsent, hfree,
      Option.isNone_none, List.length_append, List.length_singleton, Bool.true_and, Bool.and_true,
      Bool.and_eq_true, decide_eq_true_eq, bne_iff_ne, beq_iff_eq]
    exact ⟨by omega, ⟨hne, heven⟩, hbytes⟩
  obtain ⟨g', hnext⟩ := exists_next hg hlegal
  obtain ⟨-, r, hr, rfl⟩ := perform_of_next hnext
  have hrun : g.constructString (values + i.toNat) (makeValue (n - i)) (storage i) = some r := hr
  obtain ⟨g', rfl⟩ := ok_of_constructString (hstorage ▸ hrun)
  refine ⟨g', hrun, represented_next hg hnext, ?_⟩
  have hmeaning : g.meaning (.constructText (values + i.toNat) (.string (makeValue (n - i)))
      (storage i)) = .store (values + i.toNat) (newBlock storage i.toNat) (makeValue (n - i)) := by
    rw [hstorage]
    rfl
  have hvalue : valueHolding n values storage i.toNat =
      ⟨values + i.toNat, newBlock storage i.toNat, makeValue (n - i)⟩ := by
    rw [valueHolding, BitVec.ofNat_toNat, BitVec.setWidth_eq]
  have hshared := shared_next hg hnext
  rw [hmeaning] at hshared
  change g'.shared = _ at hshared
  rw [hvalue, hshared]
  refine hext.store hh.live ?_ ?_
  · change (g.strings _).map _ = none
    rw [habsent, Option.map_none]
  · change (g.blocks _).map _ = none
    rw [hfree, Option.map_none]

/-- Every eighth round copies it into the second vector. -/
theorem fill_alias (hh : h.Represented) (hreserved : Reserved h n values aliases)
    (hg : g.Represented) (hext : Extends h.shared (valueHolding n values storage i.toNat ::
      filled n values aliases storage i.toNat) g.shared) (hi : i < n) (h8 : i.toNat % 8 = 0) :
    ∃ g', g.copyConstruct (aliases + i.toNat / 8) (values + i.toNat) = some g' ∧
      g'.Represented ∧ Extends h.shared (aliasHolding n aliases storage (i.toNat / 8) ::
        valueHolding n values storage i.toNat :: filled n values aliases storage i.toNat)
        g'.shared := by
  have hin : i.toNat < n.toNat := BitVec.lt_def.mp hi
  have habsent : g.strings (aliases + i.toNat / 8) = none := by
    refine strings_of_extends hext (fun hmem => ?_) (hreserved.alias_absent _ (by omega))
    obtain ⟨p, hp, heq⟩ := List.mem_map.mp hmem
    have hapart := hreserved.apart
    obtain rfl | hp := List.mem_cons.mp hp
    · change @Eq ℕ (values + i.toNat) (aliases + i.toNat / 8) at heq
      omega
    · obtain ⟨j, hj, rfl⟩ | ⟨k, hk, rfl⟩ := mem_filled.mp hp
      · change @Eq ℕ (values + j) (aliases + i.toNat / 8) at heq
        omega
      · change @Eq ℕ (aliases + k) (aliases + i.toNat / 8) at heq
        omega
  have hpresent : (g.strings (values + i.toNat)).isSome := by
    have hholds := hext.holds _ List.mem_cons_self
    obtain ⟨s, hs, -⟩ := Option.map_eq_some_iff.mp hholds
    exact Option.isSome_iff_exists.mpr ⟨s, hs⟩
  have hlegal : g.legal (.copyConstruct (aliases + i.toNat / 8) (values + i.toNat)) := by
    rw [legal, habsent, hpresent]
    rfl
  obtain ⟨g', hnext⟩ := exists_next hg hlegal
  obtain ⟨-, r, hr, rfl⟩ := perform_of_next hnext
  obtain ⟨g', hcopy, rfl⟩ := Option.map_eq_some_iff.mp hr
  refine ⟨g', hcopy, represented_next hg hnext, ?_⟩
  have halias : aliasHolding n aliases storage (i.toNat / 8) = ⟨aliases + i.toNat / 8,
      (valueHolding n values storage i.toNat).name,
      (valueHolding n values storage i.toNat).value⟩ := by
    have hround : 8 * (i.toNat / 8) = i.toNat := by omega
    rw [aliasHolding, valueHolding, hround]
  have hshared : g'.shared =
      g.shared.apply (.share (aliases + i.toNat / 8) (values + i.toNat)) := shared_next hg hnext
  rw [halias, hshared]
  refine hext.share hh.live List.mem_cons_self ?_
  change (g.strings _).map _ = none
  rw [habsent, Option.map_none]

/-- **The loop fills both vectors.** -/
theorem fillVectors_spec (hh : h.Represented) (hreserved : Reserved h n values aliases)
    (hsupplied : Supplied h n storage) (hg : g.Represented)
    (hext : Extends h.shared (filled n values aliases storage i.toNat) g.shared)
    (hi : i.toNat ≤ n.toNat) :
    ∃ g', (∀ fuel, n.toNat - i.toNat < fuel →
        fillVectors n values aliases storage fuel i ((i.toNat + 7) / 8) g =
          some (.ok ((n.toNat + 7) / 8, g'))) ∧
      g'.Represented ∧ Extends h.shared (filled n values aliases storage n.toNat) g'.shared := by
  induction hk : n.toNat - i.toNat generalizing g i with
  | zero =>
    obtain rfl : i = n := BitVec.eq_of_toNat_eq (by omega)
    refine ⟨g, fun fuel hfuel => ?_, hg, hext⟩
    obtain ⟨fuel, rfl⟩ := Nat.exists_eq_add_one.mpr hfuel
    exact if_neg (not_not_intro rfl)
  | succ k ih =>
    have hlt : i < n := BitVec.lt_def.mpr (by omega)
    have hne : i ≠ n := by
      rintro rfl
      exact BitVec.lt_irrefl _ hlt
    have hnext : (i + 1).toNat = i.toNat + 1 := by
      have hbound := n.isLt
      rw [BitVec.toNat_add]
      exact Nat.mod_eq_of_lt (by change i.toNat + 1 < 2 ^ 32; omega)
    have hmod : i % 8 = 0 ↔ i.toNat % 8 = 0 := by
      rw [← BitVec.toNat_inj, BitVec.toNat_umod]
      rfl
    obtain ⟨g₁, hvalue, hg₁, hext₁⟩ := fill_value hh hreserved hsupplied hg hext hlt
    by_cases h8 : i.toNat % 8 = 0
    · obtain ⟨g₂, halias, hg₂, hext₂⟩ := fill_alias hh hreserved hg₁ hext₁ hlt h8
      have hfilled := filled_succ n values aliases storage i.toNat
      rw [if_pos h8] at hfilled
      obtain ⟨g', hrun, hg', hext'⟩ := ih hg₂ (hnext ▸ hext₂.perm hfilled.symm) (by omega)
        (by omega)
      refine ⟨g', fun fuel hfuel => ?_, hg', hext'⟩
      obtain ⟨fuel, rfl⟩ := Nat.exists_eq_add_one.mpr (Nat.zero_lt_of_lt hfuel)
      have hcount : (i.toNat + 7) / 8 = i.toNat / 8 := by omega
      have hcount' : i.toNat / 8 + 1 = ((i + 1).toNat + 7) / 8 := by omega
      rw [fillVectors, if_pos hne, hvalue, hcount]
      simp only [Option.bind_eq_bind, Option.bind_some, if_pos (hmod.mpr h8), halias]
      rw [hcount']
      exact hrun fuel (by omega)
    · have hfilled := filled_succ n values aliases storage i.toNat
      rw [if_neg h8] at hfilled
      obtain ⟨g', hrun, hg', hext'⟩ := ih hg₁ (hnext ▸ hext₁.perm hfilled.symm) (by omega)
        (by omega)
      refine ⟨g', fun fuel hfuel => ?_, hg', hext'⟩
      obtain ⟨fuel, rfl⟩ := Nat.exists_eq_add_one.mpr (Nat.zero_lt_of_lt hfuel)
      have hcount : (i.toNat + 7) / 8 = ((i + 1).toNat + 7) / 8 := by omega
      rw [fillVectors, if_pos hne, hvalue, hcount]
      simp only [Option.bind_eq_bind, Option.bind_some, if_neg fun h0 => h8 (hmod.mp h0)]
      exact hrun fuel (by omega)

/-! ## Unique elements -/

theorem hasText_of_extends {l : List (Holding ObjectId UIntPtr (List UInt8))}
    {p : Holding ObjectId UIntPtr (List UInt8)} (hg : g.Represented)
    (hext : Extends h.shared l g.shared) (hp : p ∈ l) : g.HasText p.object p.value := by
  have hholder := hext.holds p hp
  obtain ⟨d, hd, hcStr⟩ := hg.shows.cStr_some _ _ hholder
  obtain rfl := Option.some.inj (hd.symm.trans (hext.reads p hp))
  exact ⟨hg.shows.hasValue _ _ hholder, hcStr⟩

/-- The elements without a copy are unique. -/
theorem unique_filled (hh : h.Represented) (hreserved : Reserved h n values aliases)
    (hsupplied : Supplied h n storage) (hg : g.Represented)
    (hext : Extends h.shared (filled n values aliases storage n.toNat) g.shared) {j : ℕ}
    (hj : j < n.toNat) : g.unique (values + j) = some (decide (j % 8 ≠ 0)) := by
  have hmem : valueHolding n values storage j ∈ filled n values aliases storage n.toNat :=
    mem_filled.mpr (Or.inl ⟨j, hj, rfl⟩)
  obtain ⟨u, hu, hiff⟩ := hg.shows.unique _ _ (hext.holds _ hmem)
  change g.unique (values + j) = some u at hu
  have hholders := hext.holders_eq hh.live hmem
  rw [hu, Option.some.injEq, Bool.eq_iff_iff, decide_eq_true_iff, hiff]
  have hsole : (∃ b, some (valueHolding n values storage j).name = some b ∧
      (g.shared.holders b).ncard = 1) ↔
        (g.shared.holders (valueHolding n values storage j).name).ncard = 1 := by
    simp only [Option.some.injEq, exists_eq_left']
  rw [hsole, hholders, Set.ncard_eq_one]
  constructor
  · rintro ⟨z, hz⟩ h8
    have hvalue : values + j ∈ ({z} : Set ObjectId) :=
      hz ▸ ⟨valueHolding n values storage j, hmem, rfl, rfl⟩
    have halias : aliases + j / 8 ∈ ({z} : Set ObjectId) := by
      refine hz ▸ ⟨aliasHolding n aliases storage (j / 8),
        mem_filled.mpr (Or.inr ⟨j / 8, by omega, rfl⟩), rfl, ?_⟩
      have hround : 8 * (j / 8) = j := by omega
      exact congrArg (newBlock storage) hround
    have heq : @Eq ℕ (values + j) (aliases + j / 8) :=
      (Set.mem_singleton_iff.mp hvalue).trans (Set.mem_singleton_iff.mp halias).symm
    have hapart := hreserved.apart
    omega
  · refine fun h8 => ⟨values + j, Set.eq_singleton_iff_unique_mem.mpr
      ⟨⟨_, hmem, rfl, rfl⟩, ?_⟩⟩
    rintro z ⟨q, hq, rfl, hname⟩
    obtain ⟨m, hm, rfl⟩ | ⟨k, hk, rfl⟩ := mem_filled.mp hq
    · rw [hsupplied.newBlock_inj hm hj hname]
      rfl
    · have hround := hsupplied.newBlock_inj hk hj hname
      omega

theorem countUnique_eq {xs : List ObjectId} (hxs : ∀ y ∈ xs, (g.unique y).isSome) :
    g.countUnique xs = some (BitVec.ofNat 64 (xs.countP fun y => g.unique y = some true)) := by
  have hfold : ∀ c : ℕ, xs.foldlM (fun result value => do
      return if ← g.unique value then result + 1 else result) (BitVec.ofNat 64 c) =
        some (BitVec.ofNat 64 (c + xs.countP fun y => g.unique y = some true)) := by
    induction xs with
    | nil => exact fun c => rfl
    | cons y xs ih =>
      intro c
      obtain ⟨u, hu⟩ := Option.isSome_iff_exists.mp (hxs y List.mem_cons_self)
      have hrest := ih fun z hz => hxs z (List.mem_cons_of_mem y hz)
      rw [List.foldlM_cons, hu]
      cases u with
      | true =>
        have hnext : BitVec.ofNat 64 c + 1 = BitVec.ofNat 64 (c + 1) := BitVec.ofNat_add_ofNat c 1
        change xs.foldlM _ (BitVec.ofNat 64 c + 1) = _
        rw [hnext, hrest, List.countP_cons_of_pos (by simp [hu]), Nat.add_assoc, Nat.add_comm 1]
      | false =>
        change xs.foldlM _ (BitVec.ofNat 64 c) = _
        rw [hrest, List.countP_cons_of_neg (by simp [hu])]
  exact (hfold 0).trans (by rw [Nat.zero_add])

theorem countP_range (m : ℕ) :
    (List.range m).countP (fun j => decide (j % 8 ≠ 0)) + (m + 7) / 8 = m := by
  induction m with
  | zero => rfl
  | succ m ih =>
    rw [List.range_succ, List.countP_append, List.countP_singleton]
    split
    · next h8 =>
      rw [decide_eq_true_iff] at h8
      omega
    · next h8 =>
      rw [decide_eq_true_iff, not_not] at h8
      omega

/-- All elements but every eighth are unique. -/
theorem countUnique_filled (hh : h.Represented) (hreserved : Reserved h n values aliases)
    (hsupplied : Supplied h n storage) (hg : g.Represented)
    (hext : Extends h.shared (filled n values aliases storage n.toNat) g.shared) :
    (StringVector.at values n).elements.countP (fun y => g.unique y = some true) =
      n.toNat - (n.toNat + 7) / 8 := by
  have hcount := countP_range n.toNat
  change (List.range' values n.toNat).countP _ = _
  rw [List.range'_eq_map_range, List.countP_map]
  have hcongr : (List.range n.toNat).countP
      ((fun y => decide (g.unique y = some true)) ∘ fun j => values + j) =
        (List.range n.toNat).countP fun j => decide (j % 8 ≠ 0) := by
    refine List.countP_congr fun j hj => ?_
    rw [Function.comp_apply, decide_eq_true_iff,
      unique_filled hh hreserved hsupplied hg hext (List.mem_range.mp hj), Option.some.injEq]
  rw [hcongr]
  omega

/-! ## The destructors -/

/-- **Destroying elements takes them off the list.** -/
theorem destroyAll_spec {l : List (Holding ObjectId UIntPtr (List UInt8))} {xs : List ObjectId}
    (hh : h.Represented) (hg : g.Represented) (hext : Extends h.shared l g.shared)
    (hnodup : xs.Nodup) (hxs : ∀ y ∈ xs, y ∈ l.map Holding.object) :
    ∃ g', g.destroyAll xs = some g' ∧ g'.Represented ∧
      Extends h.shared (l.filter fun p => p.object ∉ xs) g'.shared := by
  induction xs generalizing g l with
  | nil =>
    refine ⟨g, rfl, hg, ?_⟩
    rwa [List.filter_eq_self.mpr fun p _ => decide_eq_true List.not_mem_nil]
  | cons y xs ih =>
    rw [List.nodup_cons] at hnodup
    have hy := hxs y List.mem_cons_self
    obtain ⟨p, hp, rfl⟩ := List.mem_map.mp hy
    obtain ⟨s, hs, -⟩ := Option.map_eq_some_iff.mp (hext.holds p hp)
    have hlegal : g.legal (.destroy p.object) := Option.isSome_iff_exists.mpr ⟨s, hs⟩
    obtain ⟨g₁, hnext⟩ := exists_next hg hlegal
    obtain ⟨-, r, hr, rfl⟩ := perform_of_next hnext
    obtain ⟨g₁, hdestroy, rfl⟩ := Option.map_eq_some_iff.mp hr
    have hext₁ := hext.destroy hh.live hy
    have hshared : g₁.shared = g.shared.apply (.destroy p.object) := shared_next hg hnext
    rw [← hshared] at hext₁
    obtain ⟨g', hrun, hg', hext'⟩ := ih (represented_next hg hnext) hext₁ hnodup.2 fun z hz => by
      obtain ⟨q, hq, rfl⟩ := List.mem_map.mp (hxs z (List.mem_cons_of_mem _ hz))
      have hne : q.object ≠ p.object := fun heq => hnodup.1 (heq ▸ hz)
      exact List.mem_map_of_mem (List.mem_filter.mpr ⟨hq, decide_eq_true hne⟩)
    refine ⟨g', ?_, hg', ?_⟩
    · rw [destroyAll, List.foldlM_cons, hdestroy]
      exact hrun
    · have hfilter : (l.filter fun q => q.object ∉ p.object :: xs) =
          (l.filter fun q => q.object ≠ p.object).filter fun q => q.object ∉ xs := by
        rw [List.filter_filter]
        refine List.filter_congr fun q _ => ?_
        rw [Bool.eq_iff_iff, Bool.and_eq_true]
        simp only [decide_eq_true_iff, List.mem_cons, not_or, and_comm]
      rwa [hfilter]

/-! ## The sorted vector -/

/-- The texts are those of the numbers from 1 to `n`. -/
theorem exists_text_of_element (hg : g.Represented)
    (hext : Extends h.shared (filled n values aliases storage n.toNat) g.shared)
    (hx : x ∈ (StringVector.at values n).elements) :
    ∃ k, k ≠ 0 ∧ k ≤ n ∧ g.HasText x (makeValue k) := by
  obtain ⟨j, hj, rfl⟩ := List.mem_range'.mp hx
  have hlt : (BitVec.ofNat 32 j).toNat = j := by
    rw [BitVec.toNat_ofNat, Nat.mod_eq_of_lt (hj.trans n.isLt)]
  have hsub : (n - BitVec.ofNat 32 j).toNat = n.toNat - j := by
    rw [BitVec.toNat_sub_of_le (BitVec.le_def.mpr (hlt.le.trans hj.le)), hlt]
  refine ⟨n - BitVec.ofNat 32 j, fun hzero => ?_, BitVec.le_def.mpr (by omega), ?_⟩
  · rw [hzero] at hsub
    change 0 = _ at hsub
    omega
  · rw [Nat.one_mul]
    exact hasText_of_extends hg hext (mem_filled.mpr (Or.inl ⟨j, hj, rfl⟩))

theorem exists_element_of_text (hg : g.Represented)
    (hext : Extends h.shared (filled n values aliases storage n.toNat) g.shared) {k : BitVec 32}
    (hk : k ≠ 0) (hkn : k ≤ n) :
    ∃ x ∈ (StringVector.at values n).elements, g.HasText x (makeValue k) := by
  have hle := BitVec.le_def.mp hkn
  have hpos : 0 < k.toNat := Nat.pos_of_ne_zero fun hzero => hk (BitVec.eq_of_toNat_eq hzero)
  have hlt := n.isLt
  have hj : n.toNat - k.toNat < n.toNat := by omega
  have htext := hasText_of_extends hg hext (mem_filled.mpr (Or.inl ⟨n.toNat - k.toNat, hj, rfl⟩))
  have hround : (BitVec.ofNat 32 (n.toNat - k.toNat)).toNat = n.toNat - k.toNat := by
    rw [BitVec.toNat_ofNat, Nat.mod_eq_of_lt (hj.trans hlt)]
  have hsub : n - BitVec.ofNat 32 (n.toNat - k.toNat) = k := by
    apply BitVec.eq_of_toNat_eq
    rw [BitVec.toNat_sub_of_le (BitVec.le_def.mpr (hround.le.trans hj.le)), hround]
    omega
  rw [valueHolding, hsub] at htext
  refine ⟨values + (n.toNat - k.toNat), List.mem_range'.mpr ⟨_, hj, ?_⟩, htext⟩
  rw [Nat.one_mul]

theorem makeValue_le {a b : BitVec 32} {y : ObjectId} (hx : g.HasText x (makeValue a))
    (hy : g.HasText y (makeValue b)) (hle : compare (g.key y) (g.key x) ≠ .lt) :
    makeValue a ≤ makeValue b := by
  rw [key_of_hasText hx, key_of_hasText hy, cText_eq_self_iff.mpr (zero_notMem_makeValue a),
    cText_eq_self_iff.mpr (zero_notMem_makeValue b)] at hle
  rw [← List.not_lt, ← compare_eq_lt_iff]
  exact hle

/-- The first and the last element of the sorted vector. -/
theorem ends_of_ascending (hg : g.Represented)
    (hext : Extends h.shared (filled n values aliases storage n.toNat) g.shared)
    {xs : List ObjectId} (hperm : xs.Perm (StringVector.at values n).elements)
    (hascending : Ascending g.key xs) (hn : n ≠ 0) :
    (∃ x, xs.head? = some x ∧ g.HasText x (makeValue 1)) ∧
      ∃ z k, xs.getLast? = some z ∧ k ≠ 0 ∧ k ≤ n ∧ g.HasText z (makeValue k) ∧
        ∀ m, m ≠ 0 → m ≤ n → makeValue m ≤ makeValue k := by
  have hone : (1 : BitVec 32) ≤ n := by
    rw [BitVec.le_def]
    exact Nat.pos_of_ne_zero fun hzero => hn (BitVec.eq_of_toNat_eq hzero)
  have htext : ∀ y ∈ xs, ∃ k, k ≠ 0 ∧ k ≤ n ∧ g.HasText y (makeValue k) := fun y hy =>
    exists_text_of_element hg hext (hperm.mem_iff.mp hy)
  have helement : ∀ m, m ≠ 0 → m ≤ n → ∃ y ∈ xs, g.HasText y (makeValue m) := by
    intro m hm hmn
    obtain ⟨y, hy, hytext⟩ := exists_element_of_text hg hext hm hmn
    exact ⟨y, hperm.mem_iff.mpr hy, hytext⟩
  have hself : ∀ y, compare (g.key y) (g.key y) ≠ .lt := fun y heq => by
    rw [Std.LawfulEqOrd.compare_eq_iff_eq.mpr rfl] at heq
    cases heq
  obtain ⟨y₁, hy₁, htext₁⟩ := helement 1 (by decide) hone
  constructor
  · obtain ⟨x, rest, rfl⟩ := List.exists_cons_of_ne_nil (List.ne_nil_of_mem hy₁)
    obtain ⟨k, hk, -, hxtext⟩ := htext x List.mem_cons_self
    have hfirst : compare (g.key y₁) (g.key x) ≠ .lt := by
      obtain rfl | hmem := List.mem_cons.mp hy₁
      · exact hself _
      · exact (List.pairwise_cons.mp hascending).1 y₁ hmem
    have heq : makeValue k = makeValue 1 :=
      List.le_antisymm (makeValue_le hxtext htext₁ hfirst) (makeValue_one_le hk)
    exact ⟨x, rfl, heq ▸ hxtext⟩
  · obtain ⟨front, z, rfl⟩ : ∃ front z, xs = front ++ [z] :=
      ⟨_, _, (List.dropLast_concat_getLast (List.ne_nil_of_mem hy₁)).symm⟩
    obtain ⟨k, hk, hkn, hztext⟩ := htext z (List.mem_append_right _ List.mem_cons_self)
    refine ⟨z, k, List.getLast?_concat, hk, hkn, hztext, fun m hm hmn => ?_⟩
    obtain ⟨y, hy, hytext⟩ := helement m hm hmn
    refine makeValue_le hytext hztext ?_
    obtain hmem | hmem := List.mem_append.mp hy
    · exact (List.pairwise_append.mp hascending).2.2 y hmem z List.mem_cons_self
    · obtain rfl := List.mem_singleton.mp hmem
      exact hself _

theorem printed_rename {v : BitVec 32} (hx : g.HasText x (makeValue v)) :
    (g.rename σ).printed (some (σ x)) = some (makeValue v) := by
  change ((g.rename σ).cStr (σ x)).map cText = _
  rw [rename_cStr, hx.2, Option.map_some, cText_concat,
    cText_eq_self_iff.mpr (zero_notMem_makeValue v)]

/-- Renaming keeps the number of unique objects. -/
theorem countUnique_rename {xs : List ObjectId} (hxs : ∀ y ∈ xs, (g.unique y).isSome) :
    (g.rename σ).countUnique (xs.map σ) = g.countUnique xs := by
  have hmap : ∀ y ∈ xs.map σ, ((g.rename σ).unique y).isSome := by
    refine List.forall_mem_map.mpr fun y hy => ?_
    rw [rename_unique]
    exact hxs y hy
  rw [countUnique_eq hmap, countUnique_eq hxs, List.countP_map]
  refine congrArg (fun c => some (BitVec.ofNat 64 c)) (List.countP_congr fun y _ => ?_)
  rw [Function.comp_apply, rename_unique]

end Heap

/-! ## The whole run -/

/-- What `run_benchmark` has to write for `n` strings: the texts are `string-1` to `string-n`, in
the order of their bytes, and every eighth of them is shared. -/
structure Report.Exact (n : BitVec 32) (report : Report) : Prop where
  stringCount : report.stringCount = n
  externalAliases : report.externalAliases = (n.toNat + 7) / 8
  uniqueBefore : report.uniqueBefore.toNat = n.toNat - (n.toNat + 7) / 8
  uniqueAfter : report.uniqueAfter = report.uniqueBefore
  empty : n = 0 → report.firstValue = [] ∧ report.lastValue = []
  firstValue : n ≠ 0 → report.firstValue = makeValue 1
  lastValue : n ≠ 0 → ∃ k, k ≠ 0 ∧ k ≤ n ∧ report.lastValue = makeValue k ∧
    ∀ m, m ≠ 0 → m ≤ n → makeValue m ≤ makeValue k

namespace Heap

variable {h g : Heap} {σ : Equiv.Perm ObjectId} {n : BitVec 32} {values aliases : ℕ}
  {storage : BitVec 32 → Option UIntPtr}

/-- The objects of both vectors are those of the list. -/
theorem mem_objects_filled (x : ObjectId) :
    x ∈ (filled n values aliases storage n.toNat).map Holding.object ↔
      x ∈ List.range' aliases ((n.toNat + 7) / 8) ++ (StringVector.at values n).elements := by
  have hvalues : (StringVector.at values n).elements =
      (List.range n.toNat).map fun j => values + j := List.range'_eq_map_range
  rw [hvalues, List.range'_eq_map_range, filled, List.map_append, List.map_map, List.map_map,
    List.mem_append, List.mem_append, or_comm]
  rfl

theorem nodup_objects (hreserved : Reserved h n values aliases) :
    (List.range' aliases ((n.toNat + 7) / 8) ++ (StringVector.at values n).elements).Nodup := by
  refine List.nodup_append.mpr ⟨List.nodup_range', (StringVector.at values n).nodup, ?_⟩
  rintro x hx y hy rfl
  obtain ⟨k, hk, rfl⟩ := List.mem_range'.mp hx
  obtain ⟨j, hj, heq⟩ := List.mem_range'.mp hy
  have hapart := hreserved.apart
  change @Eq ℕ _ _ at heq
  omega

/-- What is printed for the ends of the sorted vector. -/
theorem exists_ends (hg : g.Represented)
    (hext : Extends h.shared (filled n values aliases storage n.toNat) g.shared)
    {xs : List ObjectId} (hperm : xs.Perm (StringVector.at values n).elements)
    (hascending : Ascending g.key xs) (hmap : xs.map σ = (StringVector.at values n).elements) :
    ∃ firstValue lastValue,
      (g.rename σ).printed (StringVector.at values n).elements.head? = some firstValue ∧
      (g.rename σ).printed (StringVector.at values n).elements.getLast? = some lastValue ∧
      (n = 0 → firstValue = [] ∧ lastValue = []) ∧ (n ≠ 0 → firstValue = makeValue 1) ∧
      (n ≠ 0 → ∃ k, k ≠ 0 ∧ k ≤ n ∧ lastValue = makeValue k ∧
        ∀ m, m ≠ 0 → m ≤ n → makeValue m ≤ makeValue k) := by
  by_cases hn : n = 0
  · subst hn
    exact ⟨[], [], rfl, rfl, fun _ => ⟨rfl, rfl⟩, fun h => absurd rfl h, fun h => absurd rfl h⟩
  · obtain ⟨⟨x, hx, hxtext⟩, z, k, hz, hk, hkn, hztext, hgreatest⟩ :=
      ends_of_ascending hg hext hperm hascending hn
    refine ⟨makeValue 1, makeValue k, ?_, ?_, fun h => absurd h hn, fun _ => rfl,
      fun _ => ⟨k, hk, hkn, rfl, hgreatest⟩⟩
    · rw [← hmap, List.head?_map, hx]
      exact printed_rename hxtext
    · rw [← hmap, List.getLast?_map, hz]
      exact printed_rename hztext

/-- **The destructors bring the first heap back.** -/
theorem destroy_vectors (hh : h.Represented) (hg : g.Represented)
    (hreserved : Reserved h n values aliases)
    (hext : Extends h.shared (filled n values aliases storage n.toNat) g.shared)
    (hfix : ∀ z, z ∉ (StringVector.at values n).elements → σ z = z) :
    ∃ g₃ h', (g.rename σ).destroyAll (List.range' aliases ((n.toNat + 7) / 8)) = some g₃ ∧
      g₃.destroyAll (StringVector.at values n).elements = some h' ∧ h'.shared = h.shared := by
  have hinside : ∀ z, z ∉ (filled n values aliases storage n.toNat).map Holding.object →
      σ z = z := fun z hz =>
    hfix z fun hmem => hz ((mem_objects_filled z).mpr (List.mem_append_right _ hmem))
  have hobjects : ∀ z, z ∈ ((filled n values aliases storage n.toNat).map fun p =>
      (⟨σ p.object, p.name, p.value⟩ : Holding ObjectId UIntPtr (List UInt8))).map
        Holding.object ↔ z ∈ List.range' aliases ((n.toNat + 7) / 8) ++
          (StringVector.at values n).elements := fun z => by
    rw [Extends.map_object_rename, Extends.mem_map_of_fix hinside, mem_objects_filled]
  obtain ⟨h', hdestroy, -, hext'⟩ := destroyAll_spec hh (hg.rename σ)
    (hext.rename hinside holder_rename value_rename) (nodup_objects hreserved)
    fun y hy => (hobjects y).mpr hy
  rw [destroyAll, List.foldlM_append] at hdestroy
  obtain ⟨g₃, hdestroy₃, hdestroy'⟩ := Option.bind_eq_some_iff.mp hdestroy
  refine ⟨g₃, h', hdestroy₃, hdestroy', ?_⟩
  rw [List.filter_eq_nil_iff.mpr] at hext'
  · exact hext'.eq_of_nil
  · intro p hp hnot
    rw [decide_eq_true_iff] at hnot
    exact hnot ((hobjects _).mp (List.mem_map_of_mem hp))

end Heap

/-- **The benchmark reports what it should and leaves no trace.** It runs in a reachable heap, with
arrays reserved for its vectors and storage for all its blocks: the loops end, the counts and the
texts are exact, and in the end every other `String` holds what it did. -/
theorem run_benchmark_exact (t : DebugTrace) (ops : List StringOp) (h : Heap)
    (hrun : run Heap.next (Heap.start t) ops = some h) (n : BitVec 32) (values aliases : ℕ)
    (hreserved : h.Reserved n values aliases) (storage : BitVec 32 → Option UIntPtr)
    (hsupplied : h.Supplied n storage) :
    ∃ (report : Report) (h' : Heap),
      (∀ fuel, n.toNat < fuel →
        h.runBenchmark fuel n values aliases storage = some (.ok (report, h'))) ∧
      report.Exact n ∧ h'.shared = h.shared := by
  have hh := represented_run hrun
  obtain ⟨g, hfill, hg, hext⟩ := Heap.fillVectors_spec (i := 0) hh hreserved hsupplied hh
    (SharedValues.Extends.nil _) (Nat.zero_le _)
  have hunique : ∀ y ∈ (StringVector.at values n).elements, (g.unique y).isSome := by
    intro y hy
    obtain ⟨j, hj, rfl⟩ := List.mem_range'.mp hy
    rw [Nat.one_mul, Heap.unique_filled hh hreserved hsupplied hg hext hj]
    rfl
  have hlive : ∀ y ∈ (StringVector.at values n).elements, (g.strings y).isSome := by
    intro y hy
    obtain ⟨k, -, -, htext⟩ := Heap.exists_text_of_element hg hext hy
    obtain ⟨s, hs, -⟩ := Heap.hasValue_eq_true_iff.mp htext.1
    exact Option.isSome_iff_exists.mpr ⟨s, hs⟩
  obtain ⟨g₂, xs, hsort, hstable, hascending, σ, rfl, hmap, hfix⟩ :=
    Heap.bubbleSort_spec hg (StringVector.at values n) hlive
  obtain ⟨g₃, h', hdestroy₃, hdestroy', hshared⟩ :=
    Heap.destroy_vectors hh hg hreserved hext hfix
  obtain ⟨firstValue, lastValue, hfirst, hlast, hempty, hone, hgreatest⟩ :=
    Heap.exists_ends hg hext hstable.perm hascending hmap
  have hcount := Heap.countUnique_filled hh hreserved hsupplied hg hext
  have hbefore := (Heap.countUnique_eq hunique).trans
    (congrArg (fun c => some (BitVec.ofNat 64 c)) hcount)
  have hafter : (g.rename σ).countUnique (StringVector.at values n).elements =
      some (BitVec.ofNat 64 (n.toNat - (n.toNat + 7) / 8)) := by
    have hxs : ∀ y ∈ xs, (g.unique y).isSome := fun y hy =>
      hunique y (hstable.perm.mem_iff.mp hy)
    rw [← hmap, Heap.countUnique_rename hxs, Heap.countUnique_eq hxs,
      hstable.perm.countP_eq, hcount]
  have hbound := n.isLt
  refine ⟨⟨n, (n.toNat + 7) / 8, BitVec.ofNat 64 (n.toNat - (n.toNat + 7) / 8),
    BitVec.ofNat 64 (n.toNat - (n.toNat + 7) / 8), firstValue, lastValue⟩, h',
    fun fuel hfuel => ?_, ⟨rfl, rfl, ?_, rfl, hempty, hone, hgreatest⟩, hshared⟩
  · have hlength : (StringVector.at values n).elements.length < fuel := by
      change (List.range' values n.toNat).length < fuel
      rwa [List.length_range']
    have hfill' : h.fillVectors n values aliases storage fuel 0 0 =
        some (.ok ((n.toNat + 7) / 8, g)) := hfill fuel (by omega)
    simp only [Heap.runBenchmark, hfill', hbefore, hafter, hsort fuel hlength, hfirst, hlast,
      hdestroy₃, hdestroy', Option.bind_eq_bind, Option.bind_some]
    rfl
  · rw [BitVec.toNat_ofNat]
    omega

/-- What `new` returns in round `i` of `run_benchmark_exact_nineStrings`. -/
def everySixtyFour (i : BitVec 32) : Option UIntPtr := some (BitVec.ofNat 64 (4096 + 64 * i.toNat))

theorem supplied_everySixtyFour {h : Heap} {n : BitVec 32}
    (hblocks : ∀ j, j < n.toNat → h.blocks (BitVec.ofNat 64 (4096 + 64 * j)) = none) :
    h.Supplied n everySixtyFour where
  returns i hi := by
    have hlt := i.isLt
    have haddress : (BitVec.ofNat 64 (4096 + 64 * i.toNat)).toNat = 4096 + 64 * i.toNat := by
      rw [BitVec.toNat_ofNat]
      omega
    refine ⟨_, rfl, fun hzero => ?_, by omega, hblocks _ (BitVec.lt_def.mp hi)⟩
    rw [hzero] at haddress
    change 0 = _ at haddress
    omega
  distinct i j _ _ heq := by
    have hi := i.isLt
    have hj := j.isLt
    have haddress := congrArg BitVec.toNat (Option.some.inj heq)
    rw [BitVec.toNat_ofNat, BitVec.toNat_ofNat] at haddress
    exact BitVec.eq_of_toNat_eq (by omega)

/-- Nine strings in a program that has one of its own: the first and the last are copied. -/
theorem run_benchmark_exact_nineStrings :
    ∃ h report h', run Heap.next (Heap.start ⟨false, none, fun _ => []⟩)
        [.constructText 40 (.string [97]) (some 2048)] = some h ∧
      (∀ fuel, 9 < fuel →
        h.runBenchmark fuel 9 0 20 everySixtyFour = some (.ok (report, h'))) ∧
      report.externalAliases = 2 ∧ report.uniqueAfter.toNat = 7 ∧
      report.firstValue = makeValue 1 ∧ h'.shared = h.shared := by
  have hfacts : (run Heap.next (Heap.start ⟨false, none, fun _ => []⟩)
      [.constructText 40 (.string [97]) (some 2048)]).map (fun h =>
        ((List.range 9).all fun j => (h.strings (0 + j)).isNone,
          (List.range 2).all fun k => (h.strings (20 + k)).isNone,
          (List.range 9).all fun j => (h.blocks (BitVec.ofNat 64 (4096 + 64 * j))).isNone)) =
        some (true, true, true) := by rfl
  obtain ⟨h, hrun, hh⟩ := Option.map_eq_some_iff.mp hfacts
  simp only [Prod.mk.injEq, List.all_eq_true, List.mem_range, Option.isNone_iff_eq_none] at hh
  obtain ⟨report, h', hruns, hexact, hshared⟩ := run_benchmark_exact _ _ h hrun 9 0 20
    ⟨hh.1, hh.2.1, Or.inl (by decide)⟩ everySixtyFour (supplied_everySixtyFour hh.2.2)
  exact ⟨h, report, h', hrun, hruns, hexact.externalAliases,
    (congrArg BitVec.toNat hexact.uniqueAfter).trans hexact.uniqueBefore,
    hexact.firstValue (by decide), hshared⟩

end Doost.Strings
