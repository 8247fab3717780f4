import Doost.Lists.Outcomes
import Doost.Lists.Preservation

/-!
# The ledger of the nodes

Every event on a node is in the log. `Lives` says of a log that each node is allocated, perhaps
constructed and then destroyed once, and deallocated once, before its memory is handed out again.
`Recorded` ties the cells to the log, and every operation keeps it, whatever throws
(`closed_recorded`). Together with the
chains this gives `nodes_owned_once`.
-/

namespace Doost.Lists

open Program Transition

variable {P A T : Type} [DecidableEq P]

/-! ## The life of a node -/

/-- The node of an event. -/
def Event.node : Event P → P
  | .allocate p => p
  | .construct p => p
  | .destroy p => p
  | .deallocate p => p

/-- The latest event on `p`. -/
def lastEvent (log : List (Event P)) (p : P) : Option (Event P) := log.find? fun e => e.node = p

/-- The event may follow the latest one on its node. -/
def Event.mayFollow : Event P → Option (Event P) → Bool
  | .allocate _, none => true
  | .allocate _, some (.deallocate _) => true
  | .construct _, some (.allocate _) => true
  | .destroy _, some (.construct _) => true
  | .deallocate _, some (.allocate _) => true
  | .deallocate _, some (.destroy _) => true
  | _, _ => false

/-- Each node is destroyed at most once after it has been constructed, and deallocated at most once
after it has been allocated. The latest event is the first of the list. -/
def Lives : List (Event P) → Prop
  | [] => True
  | e :: log => e.mayFollow (lastEvent log e.node) = true ∧ Lives log

/-- What the latest event on a node leaves: no memory, memory without a node, or a node. -/
def phase : Option (Event P) → Option Bool
  | some (.allocate _) => some false
  | some (.construct _) => some true
  | some (.destroy _) => some false
  | some (.deallocate _) => none
  | none => none

/-- The log tells of orderly lives, and the cells are what it says. -/
structure Recorded (h : NodeHeap P A T) : Prop where
  lives : Lives h.log
  cells : ∀ p, h.phase p = phase (lastEvent h.log p)

theorem lastEvent_cons_self (e : Event P) (log : List (Event P)) :
    lastEvent (e :: log) e.node = some e := by
  simp [lastEvent]

theorem lastEvent_cons_of_ne {e : Event P} {p : P} (hp : p ≠ e.node) (log : List (Event P)) :
    lastEvent (e :: log) p = lastEvent log p := by
  rw [lastEvent, List.find?_cons_of_neg (by simpa using Ne.symm hp), lastEvent]

section Recorded

variable {h h' : NodeHeap P A T} {p : P} {a : A}

/-- One more event, on a node at which only it changes something. -/
theorem Recorded.record (hR : Recorded h) (e : Event P)
    (hfollow : e.mayFollow (lastEvent h.log e.node) = true) (hlog : h'.log = e :: h.log)
    (hself : h'.phase e.node = Lists.phase (some e))
    (hother : ∀ q, q ≠ e.node → h'.phase q = h.phase q) : Recorded h' := by
  refine ⟨hlog ▸ ⟨hfollow, hR.lives⟩, fun q => ?_⟩
  rw [hlog]
  by_cases hq : q = e.node
  · rw [hq, lastEvent_cons_self, hself]
  · rw [lastEvent_cons_of_ne hq, hother q hq, hR.cells]

theorem stable_recorded : Stable (Recorded : NodeHeap P A T → Prop) := by
  intro h h' hlog hphase _ _ hR
  exact ⟨hlog ▸ hR.lives, fun p => by rw [hphase, hlog, hR.cells]⟩

end Recorded

/-! ## Events -/

section Events

variable {tr : Traits A T} {i j : ListId} {p : P}

/-- The memory at `p` has just been allocated. -/
def Allocated (p : P) (h : NodeHeap P A T) : Prop :=
  Recorded h ∧ lastEvent h.log p = some (.allocate p)

theorem stable_allocated (p : P) : Stable (Allocated p : NodeHeap P A T → Prop) := by
  intro h h' hlog hphase hallocations haccessible hA
  exact ⟨stable_recorded h h' hlog hphase hallocations haccessible hA.1, by rw [hlog, hA.2]⟩

theorem allocate_recorded {h h' : NodeHeap P A T} {a : A} {r : Except Failure P} (hR : Recorded h)
    (hrun : allocate a h = some (r, h')) : (∀ p, r = .ok p → Allocated p h') ∧ Recorded h' := by
  rw [allocate] at hrun
  split at hrun
  · next p rest hal =>
    split at hrun
    · cases hrun
    · next hp =>
      obtain ⟨rfl, rfl⟩ := Prod.mk.inj (Option.some.inj hrun)
      have hnone : h.cells p = none := by simpa using hp
      have hfollow : (Event.allocate p).mayFollow (lastEvent h.log p) = true := by
        have hphase := hR.cells p
        rw [NodeHeap.phase, hnone] at hphase
        cases hlast : lastEvent h.log p with
        | none => rfl
        | some e =>
          rw [hlast] at hphase
          cases e <;> first | rfl | cases hphase
      have hR' : Recorded (({ h with allocations := rest }.setCell p (some (a, none))).record
          (.allocate p)) :=
        hR.record (.allocate p) hfollow rfl (NodeHeap.phase_setCell_self _ p _)
          fun q hq => NodeHeap.phase_setCell_of_ne _ hq _
      refine ⟨fun q hq => ?_, hR'⟩
      obtain rfl := Except.ok.inj hq
      exact ⟨hR', lastEvent_cons_self (.allocate p) _⟩
  · obtain ⟨rfl, rfl⟩ := Prod.mk.inj (Option.some.inj hrun)
    exact ⟨fun _ hq => (by cases hq), ⟨hR.lives, hR.cells⟩⟩
  · obtain ⟨rfl, rfl⟩ := Prod.mk.inj (Option.some.inj hrun)
    exact ⟨fun _ hq => (by cases hq), hR⟩

theorem leads_construct (next : Option P) (source : Source P T) :
    Leads (Allocated p) Recorded (construct tr p next source : ListM P A T Unit) := by
  refine Leads.bind (J := Allocated p) (keeps_fetch _) (fun c => ?_) fun _ hA => hA.1
  obtain ⟨a, n | n⟩ := c
  · refine Leads.bind (J := Allocated p) (keeps_fetch _) (fun b => ?_) fun _ hA => hA.1
    cases b with
    | true =>
      refine Leads.bind (J := Allocated p) (keeps_takeValue (stable_allocated p) source)
        (fun v => leads_modify fun h hA => ?_) fun _ hA => hA.1
      exact hA.1.record (.construct p) (by rw [Event.node, hA.2]; rfl) rfl
        (NodeHeap.phase_setCell_self _ p _) fun q hq => NodeHeap.phase_setCell_of_ne _ hq _
    | false => exact fun s r s' hs hrun => (keeps_throw Failure.fault s r s' hs hrun).1
  · exact leads_undefined

theorem keeps_deallocate (a : A) : Keeps Recorded (deallocate tr a p : ListM P A T Unit) := by
  refine Leads.fetch fun c => ?_
  obtain ⟨b, n | n⟩ := c
  · dsimp only
    split
    · refine leads_modify fun h hh => ?_
      obtain ⟨hR, hcell⟩ := hh
      have hphase := hR.cells p
      rw [NodeHeap.phase, hcell] at hphase
      refine hR.record (.deallocate p) ?_ rfl (NodeHeap.phase_setCell_self _ p _)
        fun q hq => NodeHeap.phase_setCell_of_ne _ hq _
      cases hlast : lastEvent h.log p with
      | none => cases (hlast ▸ hphase : some false = phase none)
      | some e =>
        rw [hlast] at hphase
        rw [Event.node, hlast]
        cases e <;> first | rfl | cases hphase
    · exact leads_undefined
  · exact leads_undefined

theorem keeps_destroy : Keeps Recorded (destroy p : ListM P A T Unit) := by
  refine Leads.fetch fun c => ?_
  obtain ⟨b, n | n⟩ := c
  · exact leads_undefined
  · refine leads_modify fun h hh => ?_
    obtain ⟨hR, hcell⟩ := hh
    have hphase := hR.cells p
    rw [NodeHeap.phase, hcell] at hphase
    refine hR.record (.destroy p) ?_ rfl (NodeHeap.phase_setCell_self _ p _)
      fun q hq => NodeHeap.phase_setCell_of_ne _ hq _
    cases hlast : lastEvent h.log p with
    | none => cases (hlast ▸ hphase : some true = phase none)
    | some e =>
      rw [hlast] at hphase
      rw [Event.node, hlast]
      cases e <;> first | rfl | cases hphase

theorem keeps_createNode (next : Option P) (source : Source P T) :
    Keeps Recorded (createNode tr i next source : ListM P A T P) := by
  refine (keeps_fetch _).bind fun o => Leads.bind_value (J := Recorded)
    (fun s r s' hs hrun => allocate_recorded hs hrun) (fun p => ?_) fun _ hs => hs
  refine Leads.bind (J := Recorded) ?_ (fun _ => keeps_pure p) fun _ hs => hs
  exact (leads_construct next source).onException
    ((keeps_fetch _).bind fun _ => keeps_deallocate _)

theorem keeps_destroyNode : Keeps Recorded (destroyNode tr i p : ListM P A T Unit) :=
  keeps_destroy.bind fun _ => (keeps_fetch _).bind fun _ => keeps_deallocate _

/-- **Every operation keeps the record.** -/
theorem closed_recorded : Closed tr (Recorded : NodeHeap P A T → Prop) where
  stable := stable_recorded
  createNode := keeps_createNode
  destroyNode := keeps_destroyNode

end Events

/-! ## Runs -/

/-- What the ledger says of a heap. -/
structure NodeHeap.Balanced (tr : Traits A T) (h : NodeHeap P A T) : Prop where
  lives : Lives h.log
  allocated_iff : ∀ p, (h.cells p).isSome ↔ (Lists.phase (lastEvent h.log p)).isSome
  owner : ∀ p, (h.cells p).isSome →
    ∃! i, ∃ nodes, h.elements i = some nodes ∧ p ∈ nodes.map Prod.fst
  equal : ∀ p a x i nodes o, h.cells p = some (a, x) → h.elements i = some nodes →
    p ∈ nodes.map Prod.fst → h.lists i = some o → tr.equal a o.allocator = true
  alive : ∀ p a x, h.cells p = some (a, x) → x.isSome
  finite : ∀ i, (h.lists i).isSome → (h.elements i).isSome
  empty : (∀ i, h.lists i = none) → ∀ p, h.cells p = none

/-- Chains without released nodes and a recorded log. -/
structure NodeHeap.Owned (tr : Traits A T) (h : NodeHeap P A T) (C : Chains P A T) : Prop where
  represents : Represents tr h C
  released : ∀ p, ¬ C.released p
  recorded : Recorded h

section Runs

variable {tr : Traits A T} {h h' : NodeHeap P A T} {C : Chains P A T} {c : Call P A T}

theorem NodeHeap.Owned.balanced (hO : h.Owned tr C) : h.Balanced tr := by
  have hR := hO.represents
  have helements : ∀ i nodes, h.elements i = some nodes →
      (∃ a, C.allocator i = some a) ∧ nodes.map Prod.fst = addrs (C.chain i) := by
    intro i nodes hn
    rw [hR.elements] at hn
    obtain ⟨a, ha, rfl⟩ := Option.map_eq_some_iff.mp hn
    exact ⟨⟨a, ha⟩, by simp [addrs, Function.comp_def]⟩
  have hcell : ∀ p a x i, h.cells p = some (a, x) → p ∈ addrs (C.chain i) →
      ∃ e ∈ C.chain i, e.allocator = a ∧ x.isSome := by
    intro p a x i hp hi
    obtain ⟨e, he, rfl⟩ := List.mem_map.mp hi
    obtain ⟨l, l', hl⟩ := List.append_of_mem he
    have hcell := (hl ▸ hR.linked i : Linked h.cells (l ++ e :: l')).cell
    rw [hcell] at hp
    obtain ⟨rfl, rfl⟩ := Prod.mk.inj (Option.some.inj hp)
    exact ⟨e, he, rfl, rfl⟩
  have howned : ∀ p a x, h.cells p = some (a, x) → ∃ i, p ∈ addrs (C.chain i) :=
    fun p a x hp => (hR.owned p _ hp).resolve_left (hO.released p)
  refine ⟨hO.recorded.lives, fun p => ?_, fun p hp => ?_, fun p a x i nodes o hp hn hi ho => ?_,
    fun p a x hp => ?_, fun i hi => ?_, fun hnone p => ?_⟩
  · rw [← hO.recorded.cells, NodeHeap.phase, Option.isSome_map]
  · obtain ⟨⟨a, x⟩, hp⟩ := Option.isSome_iff_exists.mp hp
    obtain ⟨i, hi⟩ := howned p a x hp
    have hsome : ∃ b, C.allocator i = some b := by
      cases hb : C.allocator i with
      | none =>
        rw [hR.absent i hb] at hi
        cases hi
      | some b => exact ⟨b, rfl⟩
    obtain ⟨b, hb⟩ := hsome
    have hn := hR.elements i
    rw [hb, Option.map_some] at hn
    refine ⟨i, ⟨_, hn, (helements i _ hn).2 ▸ hi⟩, fun j hj => ?_⟩
    obtain ⟨nodes, hm, hj⟩ := hj
    exact hR.apart j i p ((helements j nodes hm).2 ▸ hj) hi
  · obtain ⟨⟨b, hb⟩, haddrs⟩ := helements i nodes hn
    obtain ⟨e, he, rfl, -⟩ := hcell p a x i hp (haddrs ▸ hi)
    rw [hR.list hb] at ho
    obtain rfl := Option.some.inj ho
    exact hR.equal i b e hb he
  · obtain ⟨i, hi⟩ := howned p a x hp
    obtain ⟨-, -, -, hx⟩ := hcell p a x i hp hi
    exact hx
  · obtain ⟨a, ha⟩ := hR.allocator_of_isSome hi
    rw [hR.elements, ha]
    rfl
  · cases hp : h.cells p with
    | none => rfl
    | some x =>
      obtain ⟨i, hi⟩ := howned p x.1 x.2 hp
      have habsent : C.allocator i = none := hR.allocator_of_isNone (by rw [hnone]; rfl)
      rw [hR.absent i habsent] at hi
      cases hi

theorem Recorded.perform {r : Except Failure Unit} (hR : Recorded h)
    (hrun : c.op.perform tr (h.answering c) = some (r, h')) : Recorded h' :=
  closed_recorded.perform c.op _ _ _ (show Recorded (h.answering c) from ⟨hR.lives, hR.cells⟩) hrun

theorem owned_next (htr : tr.Lawful) (hO : ∃ C, h.Owned tr C)
    (hc : ∀ i, c.op ≠ .releaseNodes i) (hnext : h.next tr c = some h') : ∃ C, h'.Owned tr C := by
  obtain ⟨C, hO⟩ := hO
  obtain ⟨r, C', hrun, hP⟩ := hO.represents.next htr hnext
  refine ⟨C', hP.represents, fun p => ?_, hO.recorded.perform hrun⟩
  rw [hP.released hc]
  exact hO.released p

/-- **After every run of legal calls without `release_nodes`, whatever throws, the nodes are owned
once**: each one that is allocated is in the chain of exactly one list, whose allocator may free it,
and each one has been destroyed and deallocated at most once. Every legal call is defined. -/
theorem nodes_owned_once (htr : tr.Lawful) (accessible : P → Bool) (calls : List (Call P A T))
    (hcalls : ∀ c ∈ calls, ∀ i, c.op ≠ .releaseNodes i) (h : NodeHeap P A T)
    (hrun : run (NodeHeap.next tr) (NodeHeap.start accessible) calls = some h) :
    h.Balanced tr ∧ ∀ c, h.legal c → ∃ r, h.perform tr c = some r := by
  have hstart : ∃ C, (NodeHeap.start accessible).Owned tr C :=
    ⟨_, represents_start tr accessible, fun _ hp => hp, trivial, fun _ => rfl⟩
  obtain ⟨C, hO⟩ := run_invariant (I := fun h => ∃ C, h.Owned tr C)
    (fun _ _ _ hO hc hnext => owned_next htr hO hc hnext) hstart hcalls hrun
  refine ⟨hO.balanced, fun c hc => ?_⟩
  obtain ⟨r, h', hrun', -⟩ := hO.represents.perform htr hc
  exact ⟨_, hrun'⟩

/-- A copy that fails at its third node, a move to another allocator that fails at its second, and
the same move without a failure. -/
def failingRun : List (Call ℕ ℕ ℕ) :=
  [⟨.construct 0 7, [], []⟩, ⟨.pushFront 0 (.value 3) 0, [some 10], [true]⟩,
    ⟨.pushFront 0 (.value 4) 0, [some 11], [true]⟩, ⟨.pushFront 0 (.value 5) 0, [some 12], [true]⟩,
    ⟨.copyConstruct 1 0, [some 20, some 21, none], [true, true]⟩,
    ⟨.construct 2 8, [], []⟩, ⟨.pushFront 2 (.copyOf 11) 0, [some 30], [true]⟩,
    ⟨.moveAssign 2 0 9, [some 20, some 21], [true, false]⟩,
    ⟨.moveAssign 2 0 9, [some 20, some 21, some 22], [true, true, true]⟩]

/-- After `failingRun` list 2 owns the three new nodes, and nothing else is allocated. -/
theorem nodes_owned_once_failingRun :
    ∃ h, run (NodeHeap.next numbers) (NodeHeap.start fun _ => true) failingRun = some h ∧
      h.Balanced numbers ∧ h.elements 0 = some [] ∧ h.elements 1 = none ∧
      h.elements 2 = some [(20, 0), (21, 4), (22, 3)] ∧
      ([10, 11, 12, 30].all fun p => (h.cells p).isNone) = true := by
  have hfacts : (run (NodeHeap.next numbers) (NodeHeap.start fun _ => true) failingRun).map
      (fun h => decide (h.elements 0 = some [] ∧ h.elements 1 = none ∧
        h.elements 2 = some [(20, 0), (21, 4), (22, 3)] ∧
        ([10, 11, 12, 30].all fun p => (h.cells p).isNone) = true)) = some true := by
    decide +kernel
  obtain ⟨h, hrun, hh⟩ := Option.map_eq_some_iff.mp hfacts
  refine ⟨h, hrun, (nodes_owned_once lawful_numbers _ failingRun ?_ h hrun).1,
    of_decide_eq_true hh⟩
  intro c hc i hi
  simp only [failingRun, List.mem_cons, List.not_mem_nil, or_false] at hc
  rcases hc with rfl | rfl | rfl | rfl | rfl | rfl | rfl | rfl | rfl <;> cases hi

end Runs

end Doost.Lists
