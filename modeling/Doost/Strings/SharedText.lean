import Doost.Foundations.ValueLedger
import Doost.Strings.OperationSpecs

/-!
# Strings as shared immutable texts

What a program sees of its `String` objects is a `SharedValues` state: the objects hold blocks, and
a block has a text. `Heap.shared` reads it off a heap.
-/

namespace Doost.Strings

/-- The state that a program sees. -/
abbrev SharedTexts := SharedValues ObjectId UIntPtr (List UInt8)

/-- What happens to that state. -/
abbrev SharedOp := SharedValues.Op ObjectId UIntPtr (List UInt8)

/-- The block behind a pointer, if it is not null. -/
def asBlock (p : UIntPtr) : Option UIntPtr := if p = 0 then none else some p

@[simp] theorem asBlock_zero : asBlock 0 = none := if_pos rfl

theorem asBlock_of_ne {p : UIntPtr} (hp : p ≠ 0) : asBlock p = some p := if_neg hp

theorem asBlock_eq_some_iff {p b : UIntPtr} : asBlock p = some b ↔ b ≠ 0 ∧ p = b := by
  by_cases hp : p = 0
  · rw [hp, asBlock_zero]
    exact ⟨fun h => (by cases h), fun h => absurd h.2.symm h.1⟩
  · rw [asBlock_of_ne hp, Option.some_inj]
    exact ⟨fun h => ⟨h ▸ hp, h⟩, fun h => h.2⟩

theorem asBlock_injective : Function.Injective asBlock := by
  intro p q hpq
  rcases eq_or_ne p 0 with rfl | hp
  · by_contra hq
    rw [asBlock_zero, asBlock_of_ne (Ne.symm hq)] at hpq
    cases hpq
  · rw [asBlock_of_ne hp] at hpq
    exact (asBlock_eq_some_iff.mp hpq.symm).2.symm

/-- The blocks that the objects point to, and the texts without their final zero. -/
def Heap.shared (h : Heap) : SharedTexts :=
  ⟨fun x => (h.strings x).map fun s => asBlock s.block.pointer,
    fun b => (h.blocks b).map fun k => k.data.dropLast⟩

/-- What a text operation means: the target gets the text in a new block, unless `new` throws. A
null pointer has its own meaning. -/
def Heap.textMeaning (h : Heap) (this : ObjectId) (storage : Option UIntPtr) (null : SharedOp) :
    Text → SharedOp
  | .cString none => null
  | text =>
    match h.chars text, storage with
    | some d, some b => .store this b d
    | _, _ => .skip

theorem Heap.textMeaning_of_ne {h : Heap} {this : ObjectId} {storage : Option UIntPtr}
    {null : SharedOp} {text : Text} (hne : text ≠ .cString none) :
    h.textMeaning this storage null text =
      match h.chars text, storage with
      | some d, some b => .store this b d
      | _, _ => .skip := by
  rcases text with (- | v) | - | -
  · exact absurd rfl hne
  · rfl
  · rfl
  · rfl

/-- What a call means in the state that a program sees. -/
def Heap.meaning (h : Heap) : StringOp → SharedOp
  | .defaultConstruct this => .create this
  | .constructText this text storage => h.textMeaning this storage (.create this) text
  | .copyConstruct this other => .share this other
  | .moveConstruct this other => .transfer this other
  | .assignText this text _ storage => h.textMeaning this storage (.clear this) text
  | .copyAssign this other => .share this other
  | .moveAssign this other => .transfer this other
  | .reset this => .clear this
  | .swap this other => .exchange this other
  | .freeSwap lhs rhs => .exchange lhs rhs
  | .destroy this => .destroy this
  | .setDebugTrace _ => .skip

namespace Ownership

variable {A : Ownership} {t : DebugTrace} {x y : ObjectId} {a b : UIntPtr}

/-- What a program sees of `A`. -/
def shared (A : Ownership) : SharedTexts :=
  ⟨fun x => (A.pointer x).map asBlock, fun b => (A.data b).map List.dropLast⟩

theorem shared_heap : (A.heap t).shared = A.shared := by
  refine SharedValues.ext (funext fun z => ?_) (funext fun c => ?_)
  · change ((A.pointer z).map _).map _ = (A.pointer z).map _
    rw [Option.map_map]
    refine Option.map_congr fun c hz => ?_
    change asBlock (ownerRecord _ _ _).block.pointer = _
    rw [pointer_ownerRecord hz]
  · change ((A.data c).map _).map _ = (A.data c).map _
    rw [Option.map_map]
    rfl

theorem holder_eq_some_iff : A.shared.holder x = some (some b) ↔ x ∈ A.owners b := by
  change (A.pointer x).map asBlock = some (some b) ↔ _
  rw [Option.map_eq_some_iff, A.mem_owners]
  constructor
  · rintro ⟨p, hp, hb⟩
    obtain ⟨hb0, rfl⟩ := asBlock_eq_some_iff.mp hb
    exact ⟨hb0, hp⟩
  · rintro ⟨hb0, hp⟩
    exact ⟨b, hp, asBlock_of_ne hb0⟩

theorem held_iff : A.shared.Held b ↔ A.owners b ≠ [] := by
  simp only [SharedValues.Held, holder_eq_some_iff]
  refine ⟨?_, List.exists_mem_of_ne_nil _⟩
  rintro ⟨x, hx⟩
  exact List.ne_nil_of_mem hx

/-- An only owner is the whole owner list. -/
theorem owners_eq_singleton (hx : x ∈ A.owners b) (hall : ∀ y ∈ A.owners b, y = x) :
    A.owners b = [x] := by
  have hnd := A.nodup b
  rcases hl : A.owners b with - | ⟨y, l⟩
  · rw [hl] at hx
    exact absurd hx List.not_mem_nil
  · rw [hl, List.nodup_cons] at hnd
    obtain rfl := hall y (hl ▸ List.mem_cons_self)
    refine congrArg (y :: ·) (List.eq_nil_iff_forall_not_mem.mpr fun z hz => hnd.1 ?_)
    exact hall z (hl ▸ List.mem_cons_of_mem y hz) ▸ hz

theorem value_eq_some_iff {d : List UInt8} :
    A.shared.value b = some d ↔ A.data b = some (d ++ [0]) := by
  change (A.data b).map List.dropLast = some d ↔ _
  rw [Option.map_eq_some_iff]
  constructor
  · rintro ⟨e, he, rfl⟩
    rw [he, List.dropLast_append_getLast? 0 (A.terminated b e he)]
  · intro hd
    exact ⟨_, hd, List.dropLast_concat⟩

theorem sole_iff : A.shared.Sole x b ↔ A.owners b = [x] := by
  simp only [SharedValues.Sole, holder_eq_some_iff]
  constructor
  · rintro ⟨hx, hall⟩
    exact owners_eq_singleton hx hall
  · intro hl
    rw [hl]
    exact ⟨List.mem_singleton_self x, fun y hy => List.mem_singleton.mp hy⟩

/-- Every block has an owner. -/
def Tidy (A : Ownership) : Prop := ∀ b, (A.data b).isSome → A.owners b ≠ []

theorem Tidy.live (hA : A.Tidy) : A.shared.Live := by
  intro b
  rw [held_iff]
  change ((A.data b).map _).isSome ↔ _
  rw [Option.isSome_map]
  refine ⟨hA b, fun h => ?_⟩
  obtain ⟨x, hx⟩ := List.exists_mem_of_ne_nil _ h
  exact A.isSome_data b x hx

/-! ## Bookkeeping seen as shared texts -/

theorem holder_update (A : Ownership) (x : ObjectId) (p : Option UIntPtr) :
    (fun z => (Function.update A.pointer x p z).map asBlock) =
      Function.update A.shared.holder x (p.map asBlock) :=
  Function.comp_update (Option.map asBlock) A.pointer x p

theorem holder_addString (hx : A.pointer x = none) :
    (A.addString x hx).shared.holder = Function.update A.shared.holder x (some none) :=
  holder_update A x (some 0)

theorem holder_removeString (hx : A.pointer x = some 0) :
    (A.removeString x hx).shared.holder = Function.update A.shared.holder x none :=
  holder_update A x none

theorem holder_attach (hx : A.pointer x = some 0) (hb : (A.data b).isSome) :
    (A.attach x b hx hb).shared.holder = Function.update A.shared.holder x (some (asBlock b)) :=
  holder_update A x (some b)

theorem holder_detach (hx : A.pointer x = some a) :
    (A.detach x).shared.holder = Function.update A.shared.holder x (some none) := by
  have hpointer : (A.detach x).pointer = Function.update A.pointer x (some 0) := by
    funext z
    rw [detach_pointer, Function.update_apply, hx]
    rfl
  change (fun z => ((A.detach x).pointer z).map asBlock) = _
  rw [hpointer]
  exact holder_update A x (some 0)

theorem holder_exchange : (A.exchange x y).shared.holder =
    Function.update (Function.update A.shared.holder x (A.shared.holder y)) y
      (A.shared.holder x) := by
  rw [← Equiv.comp_swap_eq_update, Equiv.swap_comm]
  rfl

theorem pointer_detach_self (hx : A.pointer x = some a) : (A.detach x).pointer x = some 0 := by
  rw [detach_pointer, if_pos rfl, hx]
  rfl

/-! ## Blocks keep their owners -/

theorem Tidy.addString (hA : A.Tidy) (hx : A.pointer x = none) : (A.addString x hx).Tidy := hA

theorem Tidy.removeString (hA : A.Tidy) (hx : A.pointer x = some 0) :
    (A.removeString x hx).Tidy := hA

theorem Tidy.exchange (hA : A.Tidy) : (A.exchange x y).Tidy := by
  intro b hb
  rw [exchange_owners, Ne, List.map_eq_nil_iff]
  exact hA b hb

theorem tidy_attach (hx : A.pointer x = some 0) (hb : (A.data b).isSome)
    (hA : ∀ c, c ≠ b → (A.data c).isSome → A.owners c ≠ []) : (A.attach x b hx hb).Tidy := by
  intro c hc
  change Function.update A.owners b (x :: A.owners b) c ≠ []
  by_cases hcb : c = b
  · rw [hcb, Function.update_self]
    exact List.cons_ne_nil _ _
  · rw [Function.update_of_ne hcb]
    exact hA c hcb hc

theorem Tidy.attach (hA : A.Tidy) (hx : A.pointer x = some 0) (hb : (A.data b).isSome) :
    (A.attach x b hx hb).Tidy :=
  tidy_attach hx hb fun c _ => hA c

theorem Tidy.store (hA : A.Tidy) (hx : A.pointer x = none) {d : List UInt8}
    (hb : A.Fresh b (d ++ [0])) : (A.store x b d hx hb).Tidy := by
  refine tidy_attach _ _ fun c hc hd => ?_
  change (Function.update A.data b (some (d ++ [0])) c).isSome at hd
  rw [Function.update_of_ne hc] at hd
  exact hA c hd

theorem Tidy.detach (hA : A.Tidy) : (A.detach x).Tidy := by
  intro c hc
  rw [detach_data] at hc
  split at hc
  · exact absurd hc Bool.false_ne_true
  · next hne =>
    rw [detach_owners, Ne, List.erase_eq_nil_iff, not_or]
    exact ⟨hA c hc, hne⟩

theorem data_detach_of_owners (hb : (A.detach x).owners b ≠ []) :
    (A.detach x).data b = A.data b := by
  rw [detach_data, if_neg]
  intro h
  rw [detach_owners, h, List.erase_cons_head] at hb
  exact hb rfl

/-! ## What each operation means -/

/-- `h` is a valid heap, in which a program sees what `op` makes of `A`. -/
def Becomes (A : Ownership) (op : SharedOp) (h : Heap) : Prop :=
  ∃ (A' : Ownership) (t : DebugTrace), h = A'.heap t ∧ A'.Tidy ∧ A'.shared = A.shared.apply op

theorem becomes_of {A' : Ownership} {op : SharedOp} (hA' : A'.Tidy)
    (hholder : A'.shared.holder = (A.shared.change op).holder)
    (hvalue : ∀ c, A'.owners c ≠ [] → A'.shared.value c = (A.shared.change op).value c)
    (t : DebugTrace) : A.Becomes op (A'.heap t) :=
  ⟨A', t, rfl, hA', SharedValues.eq_collect hA'.live hholder fun c hc => hvalue c (held_iff.mp hc)⟩

/-- For an operation that stores no new text. -/
theorem becomes_of_data (A : Ownership) (op : SharedOp) (hop : op.isStore = false)
    {A' : Ownership} (hA' : A'.Tidy) (hholder : A'.shared.holder = (A.shared.change op).holder)
    (hdata : ∀ c, A'.owners c ≠ [] → A'.data c = A.data c) (t : DebugTrace) :
    A.Becomes op (A'.heap t) := by
  refine becomes_of hA' hholder (fun c hc => ?_) t
  rw [SharedValues.value_change hop]
  exact congrArg (Option.map List.dropLast) (hdata c hc)

theorem becomes_skip (hA : A.Tidy) (t : DebugTrace) : A.Becomes .skip (A.heap t) :=
  becomes_of_data A .skip rfl hA rfl (fun _ _ => rfl) t

theorem holder_store (hx : A.pointer x = none) {d : List UInt8} (hb : A.Fresh b (d ++ [0])) :
    (A.store x b d hx hb).shared.holder = Function.update A.shared.holder x (some (some b)) := by
  refine (holder_attach _ _).trans ?_
  rw [asBlock_of_ne hb.ne_zero]
  change Function.update (A.addString x hx).shared.holder x _ = _
  rw [holder_addString, Function.update_idem]

theorem value_store (hx : A.pointer x = none) {d : List UInt8} (hb : A.Fresh b (d ++ [0])) :
    (A.store x b d hx hb).shared.value = Function.update A.shared.value b (some d) := by
  change (fun c => (Function.update A.data b (some (d ++ [0])) c).map List.dropLast) = _
  refine (Function.comp_update (Option.map List.dropLast) A.data b _).trans ?_
  rw [Option.map_some, List.dropLast_concat]
  rfl

/-- After the exchange the temporary `y` of a text assignment owns what `x` owned. -/
theorem pointer_exchange_store (hx : A.pointer x = some a) (hy : A.pointer y = none)
    {d : List UInt8} (hb : A.Fresh b (d ++ [0])) :
    ((A.store y b d hy hb).exchange x y).pointer y = some a := by
  have hxy : x ≠ y := by
    rintro rfl
    cases hx.symm.trans hy
  rw [exchange_pointer, Equiv.swap_apply_right]
  exact (Function.update_of_ne hxy ..).trans ((pointer_addString_of_ne hy hxy).trans hx)

/-- No object owns the block that a text operation gets. -/
theorem ne_of_fresh (hx : A.pointer x = some a) {d : List UInt8} (hb : A.Fresh b d) : a ≠ b := by
  rintro rfl
  have hsome := A.isSome_data a x (mem_owners_of_pointer hx hb.ne_zero)
  rw [hb.unused] at hsome
  exact Bool.false_ne_true hsome

/-- The end of a text assignment: the temporary `y`, which has the new block `b`, exchanges it with
`x` and goes. -/
theorem replaceWith_heap (hx : A.pointer x = some a) (hy : A.pointer y = none) {d : List UInt8}
    (hb : A.Fresh b (d ++ [0])) :
    ∃ hyd : (((A.store y b d hy hb).exchange x y).detach y).pointer y = some 0,
      ((A.store y b d hy hb).heap t).replaceWith x y =
        some (((((A.store y b d hy hb).exchange x y).detach y).removeString y hyd).heap
          ((((A.store y b d hy hb).exchange x y).lastText y).elim t t.written)) := by
  have hxy : x ≠ y := by
    rintro rfl
    cases hx.symm.trans hy
  have hx' : (A.store y b d hy hb).pointer x = some a :=
    (Function.update_of_ne hxy ..).trans ((pointer_addString_of_ne hy hxy).trans hx)
  have hy' : (A.store y b d hy hb).pointer y = some b := Function.update_self ..
  have hye := pointer_exchange_store hx hy hb
  have hyd := pointer_detach_self hye
  refine ⟨hyd, ?_⟩
  simp only [Heap.replaceWith, swap_heap hx' hy' (ne_of_fresh hx hb), Heap.destroy,
    detach_heap hye, Option.bind_eq_bind, Option.bind_some, endLifetime_heap hyd]
  rfl

variable (hA : A.Tidy)

include hA

theorem store_becomes (hx : A.pointer x = none) {d : List UInt8} (hb : A.Fresh b (d ++ [0])) :
    A.Becomes (.store x b d) ((A.store x b d hx hb).heap t) := by
  refine becomes_of (hA.store hx hb) ?_ (fun c _ => ?_) t
  · exact holder_store hx hb
  · exact congrFun (value_store hx hb) c

theorem construct_becomes (hx : A.pointer x = none) :
    A.Becomes (.create x) ((A.heap t).construct x) := by
  rw [construct_heap hx]
  refine becomes_of_data A (.create x) rfl (hA.addString hx) ?_ (fun _ _ => rfl) t
  exact holder_addString hx

theorem copyConstruct_becomes (hx : A.pointer x = none) (hy : A.pointer y = some b) :
    ∃ h, (A.heap t).copyConstruct x y = some h ∧ A.Becomes (.share x y) h := by
  have hyx : y ≠ x := by
    rintro rfl
    cases hx.symm.trans hy
  have hy' : (A.addString x hx).pointer y = some b := (Function.update_of_ne hyx ..).trans hy
  have hx' : (A.addString x hx).pointer x = some 0 := Function.update_self ..
  have hsource : A.shared.holder y = some (asBlock b) := by
    change (A.pointer y).map asBlock = _
    rw [hy, Option.map_some]
  simp only [Heap.copyConstruct, construct_heap hx, heap_strings hy', Option.bind_eq_bind,
    Option.bind_some, pointer_ownerRecord hy']
  by_cases hb : b = 0
  · subst hb
    rw [attach_zero_heap hx']
    refine ⟨_, rfl, becomes_of_data A (.share x y) rfl (hA.addString hx) ?_ (fun _ _ => rfl) t⟩
    rw [holder_addString]
    change _ = Function.update A.shared.holder x (A.shared.holder y)
    rw [hsource, asBlock_zero]
  · have hdata : ((A.addString x hx).data b).isSome :=
      A.isSome_data b y (mem_owners_of_pointer hy hb)
    rw [attach_heap hx' hdata]
    refine ⟨_, rfl, becomes_of_data A (.share x y) rfl ((hA.addString hx).attach _ _) ?_
      (fun _ _ => rfl) t⟩
    rw [holder_attach, holder_addString, Function.update_idem]
    change _ = Function.update A.shared.holder x (A.shared.holder y)
    rw [hsource]

theorem moveConstruct_becomes (hx : A.pointer x = none) (hy : A.pointer y = some b) :
    ∃ h, (A.heap t).moveConstruct x y = some h ∧ A.Becomes (.transfer x y) h := by
  have hxy : x ≠ y := by
    rintro rfl
    cases hx.symm.trans hy
  have hy' : (A.addString x hx).pointer y = some b :=
    (Function.update_of_ne hxy.symm ..).trans hy
  rw [Heap.moveConstruct, construct_heap hx, moveFrom_heap (Function.update_self ..) hy' hxy]
  refine ⟨_, rfl, becomes_of_data A (.transfer x y) rfl (hA.addString hx).exchange ?_
    (fun _ _ => rfl) t⟩
  rw [holder_exchange, holder_addString, Function.update_self, Function.update_of_ne hxy.symm,
    Function.update_idem, SharedValues.change, if_neg hxy]

theorem reset_becomes (hx : A.pointer x = some a) :
    ∃ h, (A.heap t).reset x = some h ∧ A.Becomes (.clear x) h := by
  rw [Heap.reset, detach_heap hx]
  refine ⟨_, rfl, becomes_of_data A (.clear x) rfl hA.detach (holder_detach hx) (fun c hc => ?_) _⟩
  exact data_detach_of_owners hc

theorem destroy_becomes (hx : A.pointer x = some a) :
    ∃ h, (A.heap t).destroy x = some h ∧ A.Becomes (.destroy x) h := by
  have hx' : (A.detach x).pointer x = some 0 := pointer_detach_self hx
  simp only [Heap.destroy, detach_heap hx, Option.bind_eq_bind, Option.bind_some,
    endLifetime_heap hx']
  refine ⟨_, rfl, becomes_of_data A (.destroy x) rfl (hA.detach.removeString hx') ?_
    (fun c hc => ?_) _⟩
  · rw [holder_removeString, holder_detach hx, Function.update_idem]
    rfl
  · exact data_detach_of_owners hc

theorem swap_becomes (hx : A.pointer x = some a) (hy : A.pointer y = some b) :
    ∃ h, (A.heap t).swap x y = some h ∧ A.Becomes (.exchange x y) h := by
  by_cases hab : a = b
  · subst hab
    rw [swap_heap_of_eq hx hy]
    refine ⟨_, rfl, becomes_of_data A (.exchange x y) rfl hA ?_ (fun _ _ => rfl) t⟩
    have hsame : A.shared.holder x = A.shared.holder y :=
      congrArg (Option.map asBlock) (hx.trans hy.symm)
    simp only [SharedValues.change]
    rw [← hsame, Function.update_eq_self, hsame, Function.update_eq_self]
  · rw [swap_heap hx hy hab]
    exact ⟨_, rfl, becomes_of_data A (.exchange x y) rfl hA.exchange holder_exchange
      (fun _ _ => rfl) t⟩

/-- `x` and `y` hold the same already. -/
theorem share_becomes_of_eq (h : A.pointer x = A.pointer y) :
    A.Becomes (.share x y) (A.heap t) := by
  refine becomes_of_data A (.share x y) rfl hA ?_ (fun _ _ => rfl) t
  have hsame : A.shared.holder x = A.shared.holder y := congrArg (Option.map asBlock) h
  simp only [SharedValues.change]
  rw [← hsame, Function.update_eq_self]

theorem copyAssign_becomes (hx : A.pointer x = some a) (hy : A.pointer y = some b) :
    ∃ h, (A.heap t).copyAssign x y = some h ∧ A.Becomes (.share x y) h := by
  by_cases hxy : x = y
  · rw [Heap.copyAssign, if_pos hxy]
    exact ⟨_, rfl, share_becomes_of_eq hA (congrArg _ hxy)⟩
  simp only [Heap.copyAssign, if_neg hxy, heap_strings hx, heap_strings hy, Option.bind_eq_bind,
    Option.bind_some, pointer_ownerRecord hx, pointer_ownerRecord hy, detach_heap hx]
  by_cases hab : a = b
  · rw [if_pos hab]
    exact ⟨_, rfl, share_becomes_of_eq hA (hx.trans (hab ▸ hy.symm))⟩
  rw [if_neg hab]
  have hx' : (A.detach x).pointer x = some 0 := pointer_detach_self hx
  have hy' : (A.detach x).pointer y = some b := (if_neg (Ne.symm hxy)).trans hy
  have hsource : A.shared.holder y = some (asBlock b) := by
    change (A.pointer y).map asBlock = _
    rw [hy, Option.map_some]
  by_cases hb : b = 0
  · subst hb
    rw [attach_zero_heap hx']
    refine ⟨_, rfl, becomes_of_data A (.share x y) rfl hA.detach ?_
      (fun c hc => data_detach_of_owners hc) _⟩
    rw [holder_detach hx, SharedValues.change, hsource, asBlock_zero]
  · have hmem := mem_owners_of_pointer hy' hb
    have hdata := (A.detach x).isSome_data b y hmem
    rw [attach_heap hx' hdata]
    refine ⟨_, rfl, becomes_of_data A (.share x y) rfl (hA.detach.attach hx' hdata) ?_
      (fun c hc => data_detach_of_owners ?_) _⟩
    · rw [holder_attach, holder_detach hx, Function.update_idem, SharedValues.change, hsource]
    · by_cases hcb : c = b
      · exact hcb ▸ List.ne_nil_of_mem hmem
      · rwa [← Function.update_of_ne hcb (x :: (A.detach x).owners b) (A.detach x).owners]

theorem moveAssign_becomes (hx : A.pointer x = some a) (hy : A.pointer y = some b) :
    ∃ h, (A.heap t).moveAssign x y = some h ∧ A.Becomes (.transfer x y) h := by
  by_cases hxy : x = y
  · rw [Heap.moveAssign, if_pos hxy]
    refine ⟨_, rfl, becomes_of_data A (.transfer x y) rfl hA ?_ (fun _ _ => rfl) t⟩
    rw [SharedValues.change, if_pos hxy]
  have hx' : (A.detach x).pointer x = some 0 := pointer_detach_self hx
  have hy' : (A.detach x).pointer y = some b := (if_neg (Ne.symm hxy)).trans hy
  simp only [Heap.moveAssign, if_neg hxy, detach_heap hx, Option.bind_eq_bind, Option.bind_some,
    moveFrom_heap hx' hy' hxy]
  refine ⟨_, rfl, becomes_of_data A (.transfer x y) rfl hA.detach.exchange ?_ (fun c hc => ?_) _⟩
  · rw [holder_exchange, holder_detach hx, Function.update_self,
      Function.update_of_ne (Ne.symm hxy), Function.update_idem, SharedValues.change, if_neg hxy]
  · refine data_detach_of_owners fun h => hc ?_
    rw [exchange_owners, h, List.map_nil]

theorem constructText_becomes {text : Text} {storage : Option UIntPtr} (hx : A.pointer x = none)
    (hacc : (A.heap t).acceptsText storage text) :
    ∃ r, (A.heap t).constructText x text storage = some r ∧
      A.Becomes ((A.heap t).textMeaning x storage (.create x) text) (Heap.after r) := by
  by_cases hnull : text = .cString none
  · subst hnull
    exact ⟨_, rfl, construct_becomes hA hx⟩
  obtain ⟨d, hd, hthrow, hstore⟩ := constructText_heap hx hacc hnull
  rw [Heap.textMeaning_of_ne hnull, hd]
  cases storage with
  | none => exact ⟨_, hthrow rfl, becomes_skip hA t⟩
  | some b =>
    obtain ⟨hF, hr⟩ := hstore b rfl
    exact ⟨_, hr, store_becomes hA hx hF⟩

/-- After a text assignment the temporary `y` has taken the new block `b`, exchanged it with `x`,
and gone. -/
theorem assign_becomes (hx : A.pointer x = some a) (hy : A.pointer y = none) {d : List UInt8}
    (hb : A.Fresh b (d ++ [0])) :
    ∃ h, ((A.store y b d hy hb).heap t).replaceWith x y = some h ∧ A.Becomes (.store x b d) h := by
  have hxy : x ≠ y := by
    rintro rfl
    cases hx.symm.trans hy
  have hye := pointer_exchange_store hx hy hb
  obtain ⟨hyd, hrun⟩ := replaceWith_heap (t := t) hx hy hb
  rw [hrun]
  have hnone : A.shared.holder y = none := by
    change (A.pointer y).map asBlock = _
    rw [hy, Option.map_none]
  refine ⟨_, rfl, becomes_of ((hA.store hy hb).exchange.detach.removeString hyd) ?_
    (fun c hc => ?_) _⟩
  · rw [holder_removeString, holder_detach hye, holder_exchange, holder_store, Function.update_self,
      Function.update_idem, Function.update_idem, Function.update_comm hxy, Function.update_idem]
    change Function.update (Function.update A.shared.holder y none) x _ = _
    rw [← hnone, Function.update_eq_self]
    rfl
  · refine (congrArg (Option.map List.dropLast) (data_detach_of_owners hc)).trans ?_
    exact congrFun (value_store hy hb) c

/-- A text assignment throws before it changes anything, or makes `x` the holder of the new
text. -/
theorem assignText_heap {text : Text} {storage : Option UIntPtr} (hx : A.pointer x = some a)
    (hy : A.pointer y = none) (hacc : (A.heap t).acceptsText storage text)
    (hne : text ≠ .cString none) :
    ∃ d, (A.heap t).chars text = some d ∧
      (storage = none → (A.heap t).assignText x text y storage = some (.error (A.heap t))) ∧
      ∀ b, storage = some b → A.Fresh b (d ++ [0]) ∧
        ∃ h, (A.heap t).assignText x text y storage = some (.ok h) ∧
          A.Becomes (.store x b d) h := by
  obtain ⟨d, hd, hthrow, hstore⟩ := constructText_heap hy hacc hne
  rw [assignText_of_ne hne]
  refine ⟨d, hd, fun hnone => ?_, fun b hb => ?_⟩
  · rw [hthrow hnone]
    rfl
  · obtain ⟨hF, hr⟩ := hstore b hb
    obtain ⟨h, hh, hbecomes⟩ := assign_becomes (t := t) hA hx hy hF
    refine ⟨hF, h, ?_, hbecomes⟩
    simp only [hr, Option.bind_eq_bind, Option.bind_some, hh]
    rfl

theorem assignText_becomes {text : Text} {storage : Option UIntPtr} (hx : A.pointer x = some a)
    (hy : A.pointer y = none) (hacc : (A.heap t).acceptsText storage text) :
    ∃ r, (A.heap t).assignText x text y storage = some r ∧
      A.Becomes ((A.heap t).textMeaning x storage (.clear x) text) (Heap.after r) := by
  by_cases hnull : text = .cString none
  · subst hnull
    obtain ⟨h, hr, hbecomes⟩ := reset_becomes (t := t) hA hx
    refine ⟨.ok h, ?_, hbecomes⟩
    simp only [Heap.assignText, Heap.assignCString, hr, Option.bind_eq_bind, Option.bind_some]
    rfl
  obtain ⟨d, hd, hthrow, hstore⟩ := assignText_heap hA hx hy hacc hnull
  rw [Heap.textMeaning_of_ne hnull, hd]
  cases storage with
  | none => exact ⟨_, hthrow rfl, becomes_skip hA t⟩
  | some b =>
    obtain ⟨-, h, hr, hbecomes⟩ := hstore b rfl
    exact ⟨.ok h, hr, hbecomes⟩

end Ownership

end Doost.Strings
