import Doost.Strings.OwnerChains
import Doost.Strings.Operations

/-!
# What the operations do to a valid heap

On the heap of an `Ownership` every legal call succeeds or throws, and leaves the heap of another
one: one theorem for each operation.
-/

namespace Doost.Strings

/-- What `readChars` returns is `size` characters from `value` on. -/
theorem Heap.of_readChars {h : Heap} {value : Option CharPtr} {size : SizeT} {d : List UInt8}
    (hd : h.readChars value size = some d) :
    d.length = size.toNat ∧ (size ≠ 0 → ∃ p c, value = some p ∧ h.charsFrom p = some c ∧
      size.toNat ≤ c.length ∧ c.take size.toNat = d) := by
  rw [readChars] at hd
  split at hd
  · next h0 =>
    obtain rfl := Option.some.inj hd
    exact ⟨by rw [h0]; rfl, fun hne => absurd h0 hne⟩
  · simp only [Option.bind_eq_bind, Option.bind_eq_some_iff] at hd
    obtain ⟨p, hp, c, hc, hd⟩ := hd
    split at hd
    · next hlen =>
      obtain rfl := Option.some.inj hd
      rw [List.length_take, Nat.min_eq_left hlen]
      exact ⟨rfl, fun _ => ⟨p, c, hp, hc, hlen, rfl⟩⟩
    · cases hd

namespace Ownership

variable {A : Ownership} {t : DebugTrace} {x y : ObjectId} {a b : UIntPtr}

/-! ## Objects and blocks -/

theorem construct_heap (hx : A.pointer x = none) :
    (A.heap t).construct x = (A.addString x hx).heap t := by
  refine Heap.ext ?_ rfl rfl
  funext z
  change Function.update (A.heap t).strings x (some .null) z =
    (Function.update A.pointer x (some 0) z).map fun b => ownerRecord b (A.owners b) z
  by_cases hz : z = x
  · subst hz
    rw [Function.update_self, Function.update_self, Option.map_some, owners_zero,
      ownerRecord_zero]
  · rw [Function.update_of_ne hz, Function.update_of_ne hz]
    rfl

theorem endLifetime_heap (hx : A.pointer x = some 0) :
    (A.heap t).endLifetime x = (A.removeString x hx).heap t := by
  refine Heap.ext ?_ rfl rfl
  funext z
  change Function.update (A.heap t).strings x none z =
    (Function.update A.pointer x none z).map fun b => ownerRecord b (A.owners b) z
  by_cases hz : z = x
  · subst hz
    rw [Function.update_self, Function.update_self, Option.map_none]
  · rw [Function.update_of_ne hz, Function.update_of_ne hz]
    rfl

/-- A constructor that throws leaves no trace. -/
theorem endLifetime_construct (hx : A.pointer x = none) :
    ((A.heap t).construct x).endLifetime x = A.heap t := by
  refine Heap.ext ?_ rfl rfl
  change Function.update (Function.update (A.heap t).strings x _) x none = _
  rw [Function.update_idem, Function.update_eq_self_iff]
  change none = (A.pointer x).map _
  rw [hx, Option.map_none]

theorem placeBlock_heap {d : List UInt8} (hb : A.Fresh b d) :
    (A.heap t).placeBlock b d = (A.addBlock b d hb).heap t := by
  refine Heap.ext rfl ?_ rfl
  funext c
  change Function.update (A.heap t).blocks b (some ⟨none, d⟩) c =
    (Function.update A.data b (some d) c).map fun d => ⟨(A.owners c).head?, d⟩
  by_cases hc : c = b
  · subst hc
    have hnil := owners_of_data_none hb.unused
    rw [Function.update_self, Function.update_self, Option.map_some, hnil, List.head?_nil]
  · rw [Function.update_of_ne hc, Function.update_of_ne hc]
    rfl

/-! ## Texts -/

theorem length_charsFrom_lt {p : Heap.CharPtr} {c : List UInt8} (hp : p.isArray)
    (hc : (A.heap t).charsFrom p = some c) : c.length < 2 ^ 63 := by
  cases p with
  | outside bytes =>
    obtain rfl := Option.some.inj hc
    simpa [Heap.CharPtr.isArray] using hp
  | inside block offset =>
    simp only [Heap.charsFrom, Option.bind_eq_bind, Option.bind_eq_some_iff] at hc
    obtain ⟨k, hk, hc⟩ := hc
    split at hc
    · obtain rfl := Option.some.inj hc
      obtain ⟨d, hd, rfl⟩ := Option.map_eq_some_iff.mp hk
      have hsize := A.size_lt block d hd
      have hdrop : (d.drop offset).length ≤ d.length := (List.drop_suffix offset d).length_le
      change (d.drop offset).length < 2 ^ 63
      omega
    · cases hc

/-- What `make_block` gets for a readable text `d`: a pointer and a length to copy it from. -/
structure Readable (A : Ownership) (t : DebugTrace) (value : Option Heap.CharPtr)
    (length : SizeT) (d : List UInt8) : Prop where
  read : (A.heap t).readChars value length = some d
  length_eq : d.length = length.toNat
  length_lt : d.length < 2 ^ 63

theorem readable_of_readChars {value : Option Heap.CharPtr} {length : SizeT} {d : List UInt8}
    (hvalue : value.all Heap.CharPtr.isArray) (hd : (A.heap t).readChars value length = some d) :
    A.Readable t value length d := by
  obtain ⟨hlen, hread⟩ := Heap.of_readChars hd
  refine ⟨hd, hlen, ?_⟩
  by_cases h0 : length = 0
  · rw [hlen, h0]
    exact Nat.two_pow_pos 63
  · obtain ⟨p, c, rfl, hc, hle, -⟩ := hread h0
    have hlt := length_charsFrom_lt hvalue hc
    omega

/-- `strlen` and the copy of that many characters give the text before the first zero. -/
theorem readable_of_cString {value : Heap.CharPtr} {c : List UInt8} (hvalue : value.isArray)
    (hc : (A.heap t).charsFrom value = some c) :
    A.Readable t (some value) (BitVec.ofNat 64 (Heap.cText c).length) (Heap.cText c) := by
  have hlt := length_charsFrom_lt hvalue hc
  have hprefix : Heap.cText c <+: c := List.takeWhile_prefix _
  have hle := hprefix.length_le
  have hnat : (BitVec.ofNat 64 (Heap.cText c).length).toNat = (Heap.cText c).length := by
    rw [BitVec.toNat_ofNat, Nat.mod_eq_of_lt (by omega)]
  refine ⟨?_, hnat.symm, by omega⟩
  rw [Heap.readChars]
  split
  · next h0 =>
    rw [h0] at hnat
    rw [List.eq_nil_of_length_eq_zero hnat.symm]
  · simp only [Option.bind_eq_bind, Option.bind_some, hc, hnat, if_pos hle]
    rw [← List.prefix_iff_eq_take.mp hprefix]

theorem readable_of_string {bytes : List UInt8} (hbytes : (Heap.stringData bytes).isArray) :
    A.Readable t (some (Heap.stringData bytes)) (BitVec.ofNat 64 bytes.length) bytes := by
  have hlt : bytes.length + 1 < 2 ^ 63 := by
    simpa [Heap.stringData, Heap.CharPtr.isArray] using hbytes
  have hnat : (BitVec.ofNat 64 bytes.length).toNat = bytes.length := by
    rw [BitVec.toNat_ofNat, Nat.mod_eq_of_lt (by omega)]
  refine ⟨?_, hnat.symm, by omega⟩
  rw [Heap.readChars]
  split
  · next h0 =>
    rw [h0] at hnat
    rw [List.eq_nil_of_length_eq_zero hnat.symm]
  · simp only [Heap.charsFrom, Heap.stringData, hnat]
    simp

/-! ## New blocks -/

/-- What a legal answer of `new` to the request for the block of `d` is. -/
theorem fresh_of_mayReturn {length : SizeT} {d : List UInt8} (hlen : d.length = length.toNat)
    (hlt : d.length < 2 ^ 63) (hb : (A.heap t).mayReturn (Heap.blockBytes length) (some b)) :
    A.Fresh b (d ++ [0]) ∧ ¬(Heap.blockBytes length).toNat <
      Heap.sizeofBlock.toNat + length.toNat + 1 := by
  have hbytes : (Heap.blockBytes length).toNat = 8 + length.toNat + 1 := by
    rw [Heap.blockBytes, Heap.sizeofBlock, BitVec.toNat_add, BitVec.toNat_add]
    change ((8 + length.toNat) % 2 ^ 64 + 1) % 2 ^ 64 = _
    omega
  simp only [Heap.mayReturn, Bool.and_eq_true, bne_iff_ne, beq_iff_eq, decide_eq_true_eq,
    Option.isNone_iff_eq_none, hbytes] at hb
  obtain ⟨⟨⟨hne, heven⟩, hunused⟩, hsize⟩ := hb
  refine ⟨⟨Option.map_eq_none_iff.mp hunused, hne, heven, by simp, ?_⟩, ?_⟩
  · rw [List.length_append]
    change 8 + (d.length + 1) < 2 ^ 63
    omega
  · rw [hbytes]
    change ¬ 8 + length.toNat + 1 < 8 + length.toNat + 1
    omega

/-- The bookkeeping after `String(text)` at `x` for a text `d` that gets the block `b`. -/
def store (A : Ownership) (x : ObjectId) (b : UIntPtr) (d : List UInt8)
    (hx : A.pointer x = none) (hb : A.Fresh b (d ++ [0])) : Ownership :=
  ((A.addString x hx).addBlock b (d ++ [0]) (hb.addString hx)).attach x b
    (by rw [addBlock_pointer, pointer_addString_self]) (isSome_addBlock ..)

theorem constructChars_heap {value : Option Heap.CharPtr} {length : SizeT} {d : List UInt8}
    (hx : A.pointer x = none) (hd : A.Readable t value length d)
    (hb : (A.heap t).mayReturn (Heap.blockBytes length) (some b)) :
    ∃ hF : A.Fresh b (d ++ [0]), (A.heap t).constructChars x value length (some b) =
      some (.ok ((A.store x b d hx hF).heap t)) := by
  obtain ⟨hF, hroom⟩ := fresh_of_mayReturn hd.length_eq hd.length_lt hb
  have hread : ((A.addString x hx).heap t).readChars value length = some d := hd.read
  refine ⟨hF, ?_⟩
  simp only [Heap.constructChars, construct_heap hx, Heap.makeBlock, hread, Option.bind_eq_bind,
    Option.bind_some, if_neg hroom]
  rw [placeBlock_heap (hF.addString hx), attach_heap, Option.bind_some]
  rfl

/-- A readable text reaches `make_block` as a pointer and a length. -/
theorem readable_of_acceptsText {text : Text} {storage : Option UIntPtr}
    (hacc : (A.heap t).acceptsText storage text) (hne : text ≠ .cString none) :
    ∃ value length d, A.Readable t value length d ∧
      (A.heap t).mayReturn (Heap.blockBytes length) storage ∧ (A.heap t).chars text = some d ∧
      ∀ z, (A.heap t).constructText z text storage =
        (A.heap t).constructChars z value length storage := by
  rcases text with (- | v) | ⟨data, size⟩ | bytes
  · exact absurd rfl hne
  · simp only [Heap.acceptsText, Heap.chars, Bool.and_eq_true, Option.any_eq_true,
      Option.bind_eq_bind, Option.bind_some, Option.bind_eq_some_iff] at hacc
    obtain ⟨hv, d, ⟨c, hc, hd⟩, hmay⟩ := hacc
    split at hd
    · next hzero =>
      obtain rfl := Option.some.inj hd
      refine ⟨some v, _, _, readable_of_cString hv hc, hmay, ?_, fun z => ?_⟩
      · simp [Heap.chars, hc, hzero]
      · simp [Heap.constructText, Heap.constructCString, hc, Heap.strlen, hzero]
    · cases hd
  · simp only [Heap.acceptsText, Bool.and_eq_true] at hacc
    obtain ⟨⟨hdata, hread⟩, hmay⟩ := hacc
    obtain ⟨d, hd⟩ := Option.isSome_iff_exists.mp hread
    exact ⟨data, size, d, readable_of_readChars hdata hd, hmay, hd, fun z => rfl⟩
  · simp only [Heap.acceptsText, Bool.and_eq_true] at hacc
    exact ⟨_, _, bytes, readable_of_string hacc.1, hacc.2, rfl, fun z => rfl⟩

theorem constructText_heap {text : Text} {storage : Option UIntPtr} (hx : A.pointer x = none)
    (hacc : (A.heap t).acceptsText storage text) (hne : text ≠ .cString none) :
    ∃ d, (A.heap t).chars text = some d ∧
      (storage = none → (A.heap t).constructText x text storage = some (.error (A.heap t))) ∧
      ∀ b, storage = some b → ∃ hF : A.Fresh b (d ++ [0]),
        (A.heap t).constructText x text storage = some (.ok ((A.store x b d hx hF).heap t)) := by
  obtain ⟨value, length, d, hd, hmay, hchars, hconstruct⟩ := readable_of_acceptsText hacc hne
  refine ⟨d, hchars, ?_, ?_⟩
  · rintro rfl
    rw [hconstruct]
    simp [Heap.constructChars, Heap.makeBlock, endLifetime_construct hx]
  · rintro b rfl
    obtain ⟨hF, hr⟩ := constructChars_heap hx hd hmay
    exact ⟨hF, (hconstruct x).trans hr⟩

/-- A text assignment constructs its temporary, and leaves as the constructor does. -/
theorem assignText_of_ne {h : Heap} {this replacement : ObjectId} {text : Text}
    {storage : Option UIntPtr} (hne : text ≠ .cString none) :
    h.assignText this text replacement storage = do
      match ← h.constructText replacement text storage with
      | .error h => return .error h
      | .ok h => return .ok (← h.replaceWith this replacement) := by
  rcases text with (- | v) | - | -
  · exact absurd rfl hne
  · rfl
  · rfl
  · rfl

end Ownership

end Doost.Strings
