import Doost.Strings.Observers

/-!
# The debug trace as a log of releases

In a build with the debug trace, and with a stream set, `detach` writes a line for each block that
it releases. `trace_is_release_log` says that the lines are those of the blocks that lose their last
owner, in that order, and that these are the blocks ever created, when at the end no `String` is
left. Only `detach` can write, so that every other private operation leaves the trace alone; what is
left is to say which object lets go of its block in each operation.
-/

namespace Doost.Strings

open Transition

namespace Heap

/-! ## Operations that leave the trace alone -/

section Frame

variable {h h' : Heap} {x y : ObjectId} {b : UIntPtr} {p n : Option ObjectId}
  {f : StringObject → StringObject}

theorem trace_modifyString (hrun : h.modifyString x f = some h') : h'.trace = h.trace := by
  obtain ⟨s, -, rfl⟩ := Option.map_eq_some_iff.mp hrun
  rfl

theorem trace_setFirst (hrun : h.setFirst b p = some h') : h'.trace = h.trace := by
  obtain ⟨k, -, rfl⟩ := Option.map_eq_some_iff.mp hrun
  rfl

theorem trace_setForward (hrun : h.setForward b p n = some h') : h'.trace = h.trace := by
  cases p with
  | none => exact trace_setFirst hrun
  | some x => exact trace_modifyString hrun

theorem trace_modifyPointee (hrun : h.modifyPointee p f = some h') : h'.trace = h.trace := by
  cases p with
  | none =>
    obtain rfl := Option.some.inj hrun
    rfl
  | some x => exact trace_modifyString hrun

theorem trace_attach (hrun : h.attach x b = some h') : h'.trace = h.trace := by
  simp only [attach, Option.bind_eq_bind, Option.bind_eq_some_iff] at hrun
  obtain ⟨h₁, h1, hrun⟩ := hrun
  rw [← trace_modifyString h1]
  split at hrun
  · obtain rfl := Option.some.inj hrun
    rfl
  · simp only [Option.bind_eq_some_iff] at hrun
    obtain ⟨k, -, h₂, h2, h₃, h3, h₄, h4, h5⟩ := hrun
    rw [trace_modifyString h5, trace_setFirst h4, trace_modifyPointee h3, trace_modifyString h2]

theorem trace_replaceOwner (hrun : h.replaceOwner b p n x = some h') : h'.trace = h.trace := by
  simp only [replaceOwner, Option.bind_eq_bind] at hrun
  split at hrun
  · obtain rfl := Option.some.inj hrun
    rfl
  · simp only [Option.bind_eq_some_iff] at hrun
    obtain ⟨h₁, h1, h2⟩ := hrun
    rw [trace_modifyPointee h2, trace_setForward h1]

theorem trace_moveFrom (hrun : h.moveFrom x y = some h') : h'.trace = h.trace := by
  simp only [moveFrom, Option.bind_eq_bind, Option.bind_eq_some_iff] at hrun
  obtain ⟨s₁, -, h₁, h1, h₂, h2, s₂, -, h₃, h3, h₄, h4, s₃, -, h₅, h5, h₆, h6, s, -, hrun⟩ := hrun
  have htrace : h₆.trace = h.trace := by
    rw [trace_modifyString h6, trace_modifyString h5, trace_modifyString h4, trace_modifyString h3,
      trace_modifyString h2, trace_modifyString h1]
  split at hrun
  · obtain rfl := Option.some.inj hrun
    exact htrace
  · exact (trace_replaceOwner hrun).trans htrace

theorem trace_swap (hrun : h.swap x y = some h') : h'.trace = h.trace := by
  simp only [swap, Option.bind_eq_bind] at hrun
  split at hrun
  · obtain rfl := Option.some.inj hrun
    rfl
  · simp only [Option.bind_eq_some_iff] at hrun
    obtain ⟨s, -, s', -, hrun⟩ := hrun
    split at hrun
    · obtain rfl := Option.some.inj hrun
      rfl
    · simp only [Option.bind_eq_some_iff] at hrun
      obtain ⟨h₁, h1, h₂, h2, h₃, h3, h4⟩ := hrun
      rw [trace_modifyString h4, trace_modifyString h3, trace_replaceOwner h2,
        trace_replaceOwner h1]

theorem trace_copyConstruct (hrun : h.copyConstruct x y = some h') : h'.trace = h.trace := by
  simp only [copyConstruct, Option.bind_eq_bind, Option.bind_eq_some_iff] at hrun
  obtain ⟨s, -, hrun⟩ := hrun
  exact (trace_attach hrun).trans rfl

theorem trace_moveConstruct (hrun : h.moveConstruct x y = some h') : h'.trace = h.trace :=
  (trace_moveFrom hrun).trans rfl

end Frame

end Heap

/-! ## What each operation writes -/

namespace Ownership

variable {A : Ownership} {t : DebugTrace} {x y : ObjectId} {a b : UIntPtr} {v : List UInt8}
  {op : SharedOp} {h : Heap}

theorem not_sole_of_absent (hx : A.pointer x = none) : ¬ A.shared.Sole x b := by
  intro hsole
  have hmem : x ∈ A.owners b := by
    rw [sole_iff.mp hsole]
    exact List.mem_singleton_self x
  cases hx.symm.trans (pointer_of_mem hmem)

/-- In the heap `h` after `op` the trace has the line of the block whose only owner let go of it,
if there is one, and nothing else. -/
def Writes (A : Ownership) (t : DebugTrace) (op : SharedOp) (h : Heap) : Prop :=
  ∃ lost : Option (UIntPtr × List UInt8),
    h.trace = lost.elim t (fun e => t.written (e.2 ++ [0])) ∧
    ∀ b v, lost = some (b, v) ↔
      A.shared.value b = some v ∧ ∃ x, op.LetsGo A.shared x ∧ A.shared.Sole x b

theorem writes_nothing (htrace : h.trace = t)
    (hop : ∀ x b, op.LetsGo A.shared x → ¬ A.shared.Sole x b) : A.Writes t op h := by
  refine ⟨none, htrace, fun b v => iff_of_false (fun hnone => by cases hnone) ?_⟩
  rintro ⟨-, x, hx, hsole⟩
  exact hop x b hx hsole

/-- A call that takes `x` out of its chain. -/
theorem writes_last (hx : A.pointer x = some a)
    (htrace : h.trace = (A.lastText x).elim t t.written)
    (hop : ∀ y, op.LetsGo A.shared y ↔ y = x) : A.Writes t op h := by
  have hiff : ∀ b v, (A.shared.value b = some v ∧ ∃ y, op.LetsGo A.shared y ∧ A.shared.Sole y b) ↔
      A.owners b = [x] ∧ A.data b = some (v ++ [0]) := by
    intro b v
    simp only [hop, exists_eq_left, sole_iff, value_eq_some_iff]
    exact and_comm
  by_cases hlast : A.owners a = [x]
  · have hmem : x ∈ A.owners a := hlast ▸ List.mem_singleton_self x
    obtain ⟨d, hd⟩ := Option.isSome_iff_exists.mp (A.isSome_data a x hmem)
    have hd' := hd
    rw [← List.dropLast_append_getLast? 0 (A.terminated a d hd)] at hd'
    refine ⟨some (a, d.dropLast), ?_, fun b v => ?_⟩
    · rw [htrace, lastText, hx]
      simp only [Option.bind_eq_bind, Option.bind_some, if_pos hlast, hd', Option.elim_some]
    · rw [hiff]
      constructor
      · intro hsome
        obtain ⟨rfl, rfl⟩ := Prod.mk.inj (Option.some.inj hsome)
        exact ⟨hlast, hd'⟩
      · rintro ⟨hb, hv⟩
        have hb' : x ∈ A.owners b := hb ▸ List.mem_singleton_self x
        obtain rfl : a = b := Option.some.inj (hx.symm.trans (pointer_of_mem hb'))
        have hdv := Option.some.inj (hd.symm.trans hv)
        rw [hdv, List.dropLast_concat]
  · refine ⟨none, ?_, fun b v => iff_of_false (fun hnone => by cases hnone) ?_⟩
    · rw [htrace, lastText, hx]
      simp only [Option.bind_eq_bind, Option.bind_some, if_neg hlast, Option.elim_none]
    · rw [hiff]
      rintro ⟨hb, -⟩
      have hb' : x ∈ A.owners b := hb ▸ List.mem_singleton_self x
      obtain rfl : a = b := Option.some.inj (hx.symm.trans (pointer_of_mem hb'))
      exact hlast hb

/-- An operation whose target does not exist yet. -/
theorem writes_of_absent (htrace : h.trace = t) (hx : A.pointer x = none)
    (hop : ∀ y, op.LetsGo A.shared y → x = y) : A.Writes t op h := by
  refine writes_nothing htrace fun y b hy => ?_
  obtain rfl := hop y hy
  exact not_sole_of_absent hx

theorem constructText_writes {text : Text} {storage : Option UIntPtr} (hx : A.pointer x = none)
    (hacc : (A.heap t).acceptsText storage text) :
    ∃ r, (A.heap t).constructText x text storage = some r ∧
      A.Writes t ((A.heap t).textMeaning x storage (.create x) text) (Heap.after r) := by
  by_cases hnull : text = .cString none
  · subst hnull
    exact ⟨_, rfl, writes_of_absent rfl hx fun y hy => hy⟩
  obtain ⟨d, hd, hthrow, hstore⟩ := constructText_heap hx hacc hnull
  rw [Heap.textMeaning_of_ne hnull, hd]
  cases storage with
  | none => exact ⟨_, hthrow rfl, writes_nothing rfl fun y b hy => hy.elim⟩
  | some b =>
    obtain ⟨hF, hr⟩ := hstore b rfl
    exact ⟨_, hr, writes_of_absent rfl hx fun y hy => hy⟩

theorem reset_writes (hx : A.pointer x = some a) (hrun : (A.heap t).reset x = some h) :
    A.Writes t (.clear x) h := by
  rw [Heap.reset, detach_heap hx] at hrun
  obtain rfl := Option.some.inj hrun
  exact writes_last hx rfl fun y => eq_comm

theorem destroy_writes (hx : A.pointer x = some a) (hrun : (A.heap t).destroy x = some h) :
    A.Writes t (.destroy x) h := by
  simp only [Heap.destroy, detach_heap hx, Option.bind_eq_bind, Option.bind_some] at hrun
  obtain rfl := Option.some.inj hrun
  exact writes_last hx rfl fun y => eq_comm

theorem holder_eq_iff (hx : A.pointer x = some a) (hy : A.pointer y = some b) :
    A.shared.holder x = A.shared.holder y ↔ a = b := by
  change (A.pointer x).map asBlock = (A.pointer y).map asBlock ↔ a = b
  rw [hx, hy, Option.map_some, Option.map_some, Option.some_inj, asBlock_injective.eq_iff]

theorem copyAssign_writes (hx : A.pointer x = some a) (hy : A.pointer y = some b)
    (hrun : (A.heap t).copyAssign x y = some h) : A.Writes t (.share x y) h := by
  have hsame := holder_eq_iff hx hy
  simp only [Heap.copyAssign, heap_strings hx, heap_strings hy, Option.bind_eq_bind,
    Option.bind_some, pointer_ownerRecord hx, pointer_ownerRecord hy] at hrun
  split at hrun
  · rename_i hxy
    obtain rfl := Option.some.inj hrun
    exact writes_nothing rfl fun z c hz => absurd (congrArg A.shared.holder hxy) hz.2
  · split at hrun
    · rename_i hab
      obtain rfl := Option.some.inj hrun
      exact writes_nothing rfl fun z c hz => absurd (hsame.mpr hab) hz.2
    · rename_i hab
      rw [detach_heap hx, Option.bind_some] at hrun
      refine writes_last hx (Heap.trace_attach hrun) fun z => ?_
      exact ⟨fun hz => hz.1.symm, fun hz => ⟨hz.symm, mt hsame.mp hab⟩⟩

theorem moveAssign_writes (hx : A.pointer x = some a)
    (hrun : (A.heap t).moveAssign x y = some h) : A.Writes t (.transfer x y) h := by
  simp only [Heap.moveAssign] at hrun
  split at hrun
  · rename_i hxy
    obtain rfl := Option.some.inj hrun
    exact writes_nothing rfl fun z c hz => absurd hxy hz.2
  · rename_i hxy
    rw [detach_heap hx, Option.bind_eq_bind, Option.bind_some] at hrun
    refine writes_last hx (Heap.trace_moveFrom hrun) fun z => ?_
    exact ⟨fun hz => hz.1.symm, fun hz => ⟨hz.symm, hxy⟩⟩

/-- After the exchange with the temporary `y`, what goes with `y` is what `x` let go of. -/
theorem lastText_exchange (hx : A.pointer x = some a) (hy : A.pointer y = none) {d : List UInt8}
    (hb : A.Fresh b (d ++ [0])) :
    ((A.store y b d hy hb).exchange x y).lastText y = A.lastText x := by
  have hab := ne_of_fresh hx hb
  have hpointer := pointer_exchange_store hx hy hb
  have howners : (A.store y b d hy hb).owners a = A.owners a := Function.update_of_ne hab ..
  have hdata : ((A.store y b d hy hb).exchange x y).data a = A.data a :=
    Function.update_of_ne hab ..
  have hiff : (A.owners a).map (Equiv.swap x y) = [y] ↔ A.owners a = [x] := by
    rw [List.map_eq_singleton_iff]
    constructor
    · rintro ⟨z, hz, hzy⟩
      rw [hz, (Equiv.swap x y).injective (hzy.trans (Equiv.swap_apply_left x y).symm)]
    · exact fun hl => ⟨x, hl, Equiv.swap_apply_left x y⟩
  simp only [lastText, hpointer, hx, exchange_owners, howners, hdata, hiff, Option.bind_eq_bind,
    Option.bind_some]

theorem assignText_writes {text : Text} {storage : Option UIntPtr} (hx : A.pointer x = some a)
    (hy : A.pointer y = none) (hacc : (A.heap t).acceptsText storage text) :
    ∃ r, (A.heap t).assignText x text y storage = some r ∧
      A.Writes t ((A.heap t).textMeaning x storage (.clear x) text) (Heap.after r) := by
  by_cases hnull : text = .cString none
  · subst hnull
    refine ⟨.ok ((A.detach x).heap ((A.lastText x).elim t t.written)), ?_,
      writes_last hx rfl fun z => eq_comm⟩
    simp only [Heap.assignText, Heap.assignCString, Heap.reset, detach_heap hx,
      Option.bind_eq_bind, Option.bind_some]
    rfl
  obtain ⟨d, hd, hthrow, hstore⟩ := constructText_heap hy hacc hnull
  rw [Heap.textMeaning_of_ne hnull, assignText_of_ne hnull, hd]
  cases storage with
  | none =>
    rw [hthrow rfl]
    exact ⟨_, rfl, writes_nothing rfl fun z c hz => hz.elim⟩
  | some b =>
    obtain ⟨hF, hr⟩ := hstore b rfl
    obtain ⟨hyd, hreplace⟩ := replaceWith_heap (t := t) hx hy hF
    rw [lastText_exchange hx hy hF] at hreplace
    rw [hr]
    simp only [Option.bind_eq_bind, Option.bind_some, hreplace]
    exact ⟨_, rfl, writes_last hx rfl fun z => eq_comm⟩

end Ownership

/-- The call leaves the stream `st` in place. -/
def StringOp.KeepsTrace (st : StreamId) : StringOp → Prop
  | .setDebugTrace stream => stream = some st
  | _ => True

namespace Ownership

/-- **Every legal call writes what it should.** -/
theorem perform_writes {A : Ownership} {t : DebugTrace} {st : StreamId} {op : StringOp}
    {r : Except Heap Heap} (hop : (A.heap t).legal op) (hstream : t.stream = some st)
    (hkeeps : op.KeepsTrace st) (hr : (A.heap t).perform op = some r) :
    A.Writes t ((A.heap t).meaning op) (Heap.after r) := by
  cases op with
  | defaultConstruct x =>
    obtain rfl := Option.some.inj hr
    exact writes_of_absent rfl (pointer_of_isNone hop) fun y hy => hy
  | constructText x text storage =>
    simp only [Heap.legal, Bool.and_eq_true] at hop
    obtain ⟨r', hr', hwrites⟩ := constructText_writes (pointer_of_isNone hop.1) hop.2
    obtain rfl := Option.some.inj (hr'.symm.trans hr)
    exact hwrites
  | copyConstruct x y =>
    simp only [Heap.legal, Bool.and_eq_true] at hop
    obtain ⟨h, hh, rfl⟩ := Option.map_eq_some_iff.mp hr
    exact writes_of_absent (Heap.trace_copyConstruct hh) (pointer_of_isNone hop.1)
      fun y hy => hy.1
  | moveConstruct x y =>
    simp only [Heap.legal, Bool.and_eq_true] at hop
    obtain ⟨h, hh, rfl⟩ := Option.map_eq_some_iff.mp hr
    exact writes_of_absent (Heap.trace_moveConstruct hh) (pointer_of_isNone hop.1)
      fun y hy => hy.1
  | assignText x text y storage =>
    simp only [Heap.legal, Bool.and_eq_true] at hop
    obtain ⟨a, ha⟩ := pointer_of_isSome hop.1.1
    obtain ⟨r', hr', hwrites⟩ := assignText_writes ha (pointer_of_isNone hop.1.2) hop.2
    obtain rfl := Option.some.inj (hr'.symm.trans hr)
    exact hwrites
  | copyAssign x y =>
    simp only [Heap.legal, Bool.and_eq_true] at hop
    obtain ⟨a, ha⟩ := pointer_of_isSome hop.1
    obtain ⟨b, hb⟩ := pointer_of_isSome hop.2
    obtain ⟨h, hh, rfl⟩ := Option.map_eq_some_iff.mp hr
    exact copyAssign_writes ha hb hh
  | moveAssign x y =>
    simp only [Heap.legal, Bool.and_eq_true] at hop
    obtain ⟨a, ha⟩ := pointer_of_isSome hop.1
    obtain ⟨h, hh, rfl⟩ := Option.map_eq_some_iff.mp hr
    exact moveAssign_writes ha hh
  | reset x =>
    obtain ⟨a, ha⟩ := pointer_of_isSome hop
    obtain ⟨h, hh, rfl⟩ := Option.map_eq_some_iff.mp hr
    exact reset_writes ha hh
  | swap x y | freeSwap x y =>
    obtain ⟨h, hh, rfl⟩ := Option.map_eq_some_iff.mp hr
    exact writes_nothing (Heap.trace_swap hh) fun z c hz => hz.elim
  | destroy x =>
    obtain ⟨a, ha⟩ := pointer_of_isSome hop
    obtain ⟨h, hh, rfl⟩ := Option.map_eq_some_iff.mp hr
    exact destroy_writes ha hh
  | setDebugTrace stream =>
    obtain rfl := Option.some.inj hr
    have hsame : ({ t with stream := stream } : DebugTrace) = t := by
      rw [hkeeps, ← hstream]
    exact writes_nothing hsame fun z c hz => hz.elim

end Ownership

/-! ## The log -/

/-- The line for a block with the text `v`, which is escaped up to its first zero. -/
def releaseLine (v : List UInt8) : List UInt8 :=
  ascii "String release: \"" ++ (Heap.cText v).flatMap escaped ++ ascii "\"\n"

/-- The debug trace is compiled in, and goes to the stream `st`. -/
structure DebugTrace.GoesTo (t : DebugTrace) (st : StreamId) : Prop where
  enabled : t.enabled = true
  stream : t.stream = some st

theorem DebugTrace.GoesTo.written {t : DebugTrace} {st : StreamId} (h : t.GoesTo st)
    (v : List UInt8) : (t.written (v ++ [0])).GoesTo st ∧
      (t.written (v ++ [0])).output st = t.output st ++ releaseLine v := by
  rw [DebugTrace.written, h.enabled, h.stream, Heap.cText_concat]
  exact ⟨⟨h.enabled, h.stream⟩, Function.update_self ..⟩

/-- A list of at most one element is an option. -/
theorem eq_toList {α : Type} {l : List α} {o : Option α} (hl : l.length ≤ 1)
    (hmem : ∀ a, a ∈ l ↔ o = some a) : l = o.toList := by
  rcases l with - | ⟨a, - | ⟨b, l⟩⟩
  · cases o with
    | none => rfl
    | some a => exact absurd ((hmem a).mpr rfl) List.not_mem_nil
  · rw [(hmem a).mp List.mem_cons_self]
    rfl
  · simp at hl

/-- Every call is an operation on shared texts. -/
theorem acts_shared : SharedValues.Acts Heap.next Heap.shared Heap.Represented where
  live := fun _ hh => hh.live
  step := fun h op _ hh hnext =>
    ⟨represented_next hh hnext, h.meaning op, fresh_of_legal hh (perform_of_next hnext).1,
      shared_next hh hnext⟩

/-- **One call writes the lines of the blocks that lose their last owner in it.** -/
theorem output_next {h h' : Heap} {st : StreamId} {op : StringOp}
    {made lost : List (UIntPtr × List UInt8)} (hh : h.Represented) (htrace : h.trace.GoesTo st)
    (hkeeps : op.KeepsTrace st) (hnext : h.next op = some h')
    (hentry : SharedValues.Entry h.shared h'.shared made lost) :
    h'.trace.GoesTo st ∧
      h'.trace.output st = h.trace.output st ++ lost.flatMap fun e => releaseLine e.2 := by
  have hshared := shared_next hh hnext
  obtain ⟨hop, r, hr, rfl⟩ := perform_of_next hnext
  have hfresh := fresh_of_legal hh hop
  obtain ⟨A, t, rfl, -⟩ := hh
  obtain ⟨written, hwritten, hiff⟩ := Ownership.perform_writes hop htrace.stream hkeeps hr
  rw [← Ownership.shared_heap (t := t)] at hiff
  have hlost : lost = written.toList := by
    refine eq_toList hentry.lost_le fun e => ?_
    rw [hentry.lost_iff e.1 e.2, hshared, SharedValues.loses_iff hfresh, hiff]
  rw [hwritten, hlost]
  cases written with
  | none => exact ⟨htrace, (List.append_nil _).symm⟩
  | some e =>
    obtain ⟨hgoes, houtput⟩ := htrace.written e.2
    refine ⟨hgoes, houtput.trans ?_⟩
    simp only [Option.toList_some, List.flatMap_cons, List.flatMap_nil, List.append_nil]

/-- The lines of a run are those of its ledger. -/
theorem output_ledger {h h' : Heap} {st : StreamId} {ops : List StringOp}
    {made lost : List (UIntPtr × List UInt8)} (hh : h.Represented) (htrace : h.trace.GoesTo st)
    (hkeeps : ∀ op ∈ ops, op.KeepsTrace st)
    (hledger : SharedValues.Ledger Heap.next Heap.shared h ops h' made lost) :
    h'.trace.GoesTo st ∧
      h'.trace.output st = h.trace.output st ++ lost.flatMap fun e => releaseLine e.2 := by
  induction hledger with
  | nil h => exact ⟨htrace, (List.append_nil _).symm⟩
  | cons hnext hentry hrest ih =>
    obtain ⟨htrace₁, houtput⟩ :=
      output_next hh htrace (hkeeps _ List.mem_cons_self) hnext hentry
    obtain ⟨hgoes, hrest⟩ := ih (represented_next hh hnext) htrace₁ fun op hop =>
      hkeeps op (List.mem_cons_of_mem _ hop)
    refine ⟨hgoes, ?_⟩
    rw [hrest, houtput, List.flatMap_append, List.append_assoc]

/-- The call copies, moves or swaps, or assigns between owners of one block. -/
def StringOp.Shares (h : Heap) : StringOp → Prop
  | .copyConstruct _ _ => True
  | .moveConstruct _ _ => True
  | .swap _ _ => True
  | .freeSwap _ _ => True
  | .copyAssign this other => h.shared.holder this = h.shared.holder other
  | .moveAssign this other => h.shared.holder this = h.shared.holder other
  | _ => False

theorem not_sole_of_isNone {h : Heap} {x : ObjectId} {b : UIntPtr} (hx : (h.strings x).isNone) :
    ¬ h.shared.Sole x b := by
  rintro ⟨hsole, -⟩
  change (h.strings x).map _ = _ at hsole
  rw [Option.isNone_iff_eq_none.mp hx] at hsole
  cases hsole

/-- Copies, moves and swaps lose no block. -/
theorem not_loses_of_shares {h h' : Heap} {op : StringOp} {b : UIntPtr} {v : List UInt8}
    (hh : h.Represented) (hshares : op.Shares h) (hnext : h.next op = some h') :
    ¬ h.shared.Loses h'.shared b v := by
  have hop := (perform_of_next hnext).1
  rw [shared_next hh hnext, SharedValues.loses_iff (fresh_of_legal hh hop)]
  rintro ⟨-, x, hx, hsole⟩
  cases op with
  | copyConstruct y z | moveConstruct y z =>
    simp only [Heap.legal, Bool.and_eq_true] at hop
    obtain ⟨rfl, -⟩ := hx
    exact not_sole_of_isNone hop.1 hsole
  | swap y z | freeSwap y z => exact hx
  | copyAssign y z => exact hx.2 hshares
  | moveAssign y z =>
    obtain ⟨rfl, hne⟩ := hx
    exact hne (hsole.2 z (hshares ▸ hsole.1)).symm
  | _ => exact hshares

/-- A block that loses its last owner is freed. -/
theorem blocks_of_loses {h h' : Heap} {b : UIntPtr} {v : List UInt8} (hh' : h'.Represented)
    (hloses : h.shared.Loses h'.shared b v) : h'.blocks b = none := by
  have hnone : ¬ (h'.shared.value b).isSome := mt (hh'.live b).mp hloses.2.2
  rw [Option.not_isSome_iff_eq_none] at hnone
  exact Option.map_eq_none_iff.mp hnone

/-- Without objects there are no blocks. -/
theorem blocks_of_no_strings {h : Heap} (hh : h.Represented) (hnone : ∀ x, h.strings x = none)
    (b : UIntPtr) : h.blocks b = none := by
  have hheld : ¬ h.shared.Held b := by
    rintro ⟨x, hx⟩
    change (h.strings x).map _ = _ at hx
    rw [hnone x] at hx
    cases hx
  have hvalue := mt (hh.live b).mp hheld
  rw [Option.not_isSome_iff_eq_none] at hvalue
  exact Option.map_eq_none_iff.mp hvalue

/-- **The debug trace is the log of the block releases.** In a build with the trace, with the stream
`st` set during the whole run: the stream receives the lines of the blocks that lose their last
owner, in that order; when no object is left, these are the blocks ever made. No legal call of a
later operation is undefined, as one that accesses a block that was released would be. One more call
writes the line of the block that loses its last owner in it, if there is one, and frees this
block; copies, moves, swaps and assignments between owners of one block write nothing. -/
theorem trace_is_release_log {t : DebugTrace} {st : StreamId} {ops : List StringOp} {h : Heap}
    (htrace : t.GoesTo st) (hkeeps : ∀ op ∈ ops, op.KeepsTrace st)
    (hrun : run Heap.next (Heap.start t) ops = some h) :
    ∃ made lost, SharedValues.Ledger Heap.next Heap.shared (Heap.start t) ops h made lost ∧
      h.trace.output st = t.output st ++ (lost.flatMap fun e => releaseLine e.2) ∧
      ((∀ x, h.strings x = none) → made.Perm lost ∧ ∀ b, h.blocks b = none) ∧
      (∀ op, h.legal op → ∃ h', h.next op = some h') ∧
      ∀ op h', op.KeepsTrace st → h.next op = some h' →
        ∃ made' lost', SharedValues.Entry h.shared h'.shared made' lost' ∧
          h'.trace.output st = h.trace.output st ++ (lost'.flatMap fun e => releaseLine e.2) ∧
          (∀ e ∈ lost', h'.blocks e.1 = none) ∧
          (op.Shares h → h'.trace.output st = h.trace.output st) := by
  have hstart := represented_start t
  have hh := represented_run hrun
  obtain ⟨made, lost, hledger⟩ := acts_shared.exists_ledger hstart hrun
  obtain ⟨hgoes, houtput⟩ := output_ledger hstart htrace hkeeps hledger
  refine ⟨made, lost, hledger, houtput, fun hnone => ?_, fun op hop => exists_next hh hop,
    fun op h' hkeeps' hnext => ?_⟩
  · have hempty : (Heap.start t).shared.Lists [] :=
      ⟨List.nodup_nil, fun b v => iff_of_false List.not_mem_nil fun hv => by cases hv⟩
    obtain ⟨alive, halive, hperm⟩ := hledger.balance acts_shared hstart hempty
    have hblocks := blocks_of_no_strings hh hnone
    have hnil : alive = [] := by
      refine List.eq_nil_iff_forall_not_mem.mpr fun e he => ?_
      have hv := (halive.2 e.1 e.2).mp he
      change (h.blocks e.1).map _ = _ at hv
      rw [hblocks] at hv
      cases hv
    rw [hnil, List.append_nil, List.append_nil] at hperm
    exact ⟨hperm, hblocks⟩
  · obtain ⟨-, sop, hsop, hshared⟩ := acts_shared.step h op h' hh hnext
    obtain ⟨made', lost', hentry⟩ := SharedValues.exists_entry hsop
    rw [← hshared] at hentry
    obtain ⟨-, houtput⟩ := output_next hh hgoes hkeeps' hnext hentry
    refine ⟨made', lost', hentry, houtput, fun e he => ?_, fun hshares => ?_⟩
    · exact blocks_of_loses (represented_next hh hnext) ((hentry.lost_iff e.1 e.2).mp he)
    · have hnil : lost' = [] := by
        refine List.eq_nil_iff_forall_not_mem.mpr fun e he => ?_
        exact not_loses_of_shares hh hshares hnext ((hentry.lost_iff e.1 e.2).mp he)
      rw [houtput, hnil, List.flatMap_nil, List.append_nil]

/-- Two owners of a block, which both go, and then another text. -/
def tracedRun : List StringOp :=
  [.constructText 0 (.string [104, 105]) (some 4096), .copyConstruct 1 0, .destroy 0,
    .moveAssign 1 1, .assignText 1 (.view (some (.inside 4096 1)) 1) 2 (some 8192), .destroy 1]

/-- In `tracedRun` two blocks are made and released. -/
theorem trace_is_release_log_tracedRun :
    ∃ h, run Heap.next (Heap.start ⟨true, some 7, fun _ => []⟩) tracedRun = some h ∧
      (∃ made lost, SharedValues.Ledger Heap.next Heap.shared
          (Heap.start ⟨true, some 7, fun _ => []⟩) tracedRun h made lost ∧
        h.trace.output 7 = [] ++ (lost.flatMap fun e => releaseLine e.2)) ∧
      h.trace.output 7 = ascii "String release: \"hi\"\nString release: \"i\"\n" := by
  have hfacts : (run Heap.next (Heap.start ⟨true, some 7, fun _ => []⟩) tracedRun).map
      (fun h => h.trace.output 7) =
        some (ascii "String release: \"hi\"\nString release: \"i\"\n") := by rfl
  obtain ⟨h, hrun, hh⟩ := Option.map_eq_some_iff.mp hfacts
  have hkeeps : ∀ op ∈ tracedRun, op.KeepsTrace 7 := by
    simp [tracedRun, StringOp.KeepsTrace]
  obtain ⟨made, lost, hledger, houtput, -⟩ := trace_is_release_log ⟨rfl, rfl⟩ hkeeps hrun
  exact ⟨h, hrun, ⟨made, lost, hledger, houtput⟩, hh⟩

end Doost.Strings
