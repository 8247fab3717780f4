import Mathlib.Logic.Function.Iterate
import Mathlib.Logic.Relation
import Doost.Lists.ExceptionSafety

/-!
# Iterators and references

An iterator of a `List` is the pointer to a node, and so is the reference that `front` returns. The
operations leave a node where it is, and linked to the node it was linked to, until they destroy it
(`framed_remains`); what can change is its element, which may be moved from, by a move that succeeds
or by one that throws (`Traits.MovesTo`). So an iterator goes on visiting the nodes that it would
have visited, whatever is done to the lists in between and whoever owns the nodes by then, as long
as the node it points to lives (`iterators_stay_valid`).
-/

namespace Doost.Lists

open Program Transition

variable {P A T : Type} [DecidableEq P]

/-- How often a node at `p` has been destroyed. -/
def NodeHeap.deaths (h : NodeHeap P A T) (p : P) : ℕ := h.log.count (.destroy p)

/-- A move turns the element it moves from, `v`, into `w`: by its end, or by what it throws. -/
def Traits.MovesTo (tr : Traits A T) (v w : T) : Prop := w = tr.movedFrom v ∨ w = tr.halfMovedFrom v

/-- Moves that throw and leave the element alone do not count. -/
theorem Traits.iterate_of_movesTo {tr : Traits A T} (hunharmed : tr.halfMovedFrom = id) {v w : T}
    (h : Relation.ReflTransGen tr.MovesTo v w) : ∃ k, w = tr.movedFrom^[k] v := by
  induction h with
  | refl => exact ⟨0, rfl⟩
  | tail _ hstep ih =>
    obtain ⟨k, rfl⟩ := ih
    rcases hstep with rfl | rfl
    · exact ⟨k + 1, (Function.iterate_succ_apply' ..).symm⟩
    · exact ⟨k, by rw [hunharmed]; rfl⟩

/-! ## One node -/

/-- The node at `p` is from the allocator `a`, is linked to `next` and has an element in `Q`. -/
def Linked.At (p : P) (a : A) (next : Option P) (Q : T → Prop) (h : NodeHeap P A T) : Prop :=
  ∃ v, h.cells p = some (a, some ⟨next, v⟩) ∧ Q v

/-- The node at `p`, which had `d` predecessors there, is as it was, or has been destroyed. -/
def Remains (p : P) (d : ℕ) (a : A) (next : Option P) (Q : T → Prop) (h : NodeHeap P A T) : Prop :=
  d ≤ h.deaths p ∧ (h.deaths p = d → Linked.At p a next Q h)

section Node

variable {tr : Traits A T} {moving : Prop} {h h' : NodeHeap P A T} {i : ListId} {p q : P} {d : ℕ}
  {a : A} {next : Option P} {Q : T → Prop}

theorem Extends.deaths_le (hE : Extends h h') (p : P) : h.deaths p ≤ h'.deaths p := by
  obtain ⟨⟨events, hlog, -⟩, -⟩ := hE
  rw [NodeHeap.deaths, NodeHeap.deaths, hlog, List.count_append]
  exact Nat.le_add_left _ _

omit [DecidableEq P] in
theorem Linked.At.congr (hl : Linked.At p a next Q h) (hcell : h'.cells p = h.cells p) :
    Linked.At p a next Q h' := by
  obtain ⟨v, hv, hQ⟩ := hl
  exact ⟨v, hcell.trans hv, hQ⟩

omit [DecidableEq P] in
/-- A cell without a node is another one. -/
theorem Linked.At.ne (hl : Linked.At p a next Q h) (hq : ∀ b n, h.cells q ≠ some (b, some n)) :
    q ≠ p := by
  rintro rfl
  obtain ⟨v, hv, -⟩ := hl
  exact hq _ _ hv

/-- A change of other cells. -/
theorem Linked.At.setCell (hl : Linked.At p a next Q h) (hq : q ≠ p) (c) (e) :
    Linked.At p a next Q ((h.setCell q c).record e) :=
  hl.congr (NodeHeap.setCell_cells_of_ne h hq.symm c)

theorem keeps_allocate_at (b : A) :
    Keeps (Linked.At p a next Q) (allocate b : ListM P A T P) := by
  intro s r s' hs hrun
  rw [allocate] at hrun
  split at hrun
  · next q rest hal =>
    split at hrun
    · cases hrun
    · next hq =>
      obtain ⟨-, rfl⟩ := Prod.mk.inj (Option.some.inj hrun)
      have hne : q ≠ p := hs.ne fun b n hb => hq (by rw [hb]; rfl)
      exact Linked.At.setCell (h := { s with allocations := rest }) hs hne _ _
  · obtain ⟨-, rfl⟩ := Prod.mk.inj (Option.some.inj hrun)
    exact hs
  · obtain ⟨-, rfl⟩ := Prod.mk.inj (Option.some.inj hrun)
    exact hs

theorem keeps_deallocate_at (b : A) :
    Keeps (Linked.At p a next Q) (deallocate tr b q : ListM P A T Unit) := by
  refine Leads.fetch fun c => ?_
  obtain ⟨b', n | n⟩ := c
  · dsimp only
    split
    · refine leads_modify fun s hs => hs.1.setCell (hs.1.ne fun b n hb => ?_) _ _
      cases hs.2.symm.trans hb
    · exact leads_undefined
  · exact leads_undefined

/-- What a move leaves of the element at `p` is in `Q`. -/
theorem keeps_leave_at (source : Source P T) {left : T → T}
    (hQ : source.Moves → ∀ v, Q v → Q (left v)) :
    Keeps (Linked.At p a next Q) (source.leave left : ListM P A T Unit) := by
  cases source with
  | value v | copyOf q => exact keeps_pure ()
  | moveFrom q =>
    refine (keeps_fetch _).bind fun _ => leads_modify fun s hs => ?_
    by_cases hq : p = q
    · obtain ⟨v, hv, hv'⟩ := hs
      refine ⟨left v, ?_, hQ trivial v hv'⟩
      rw [← hq, NodeHeap.mapNode_cells_self, hv]
      rfl
    · exact hs.congr (NodeHeap.mapNode_cells_of_ne s hq _)

/-- A move out of the element at `p` leaves it in `Q`. -/
theorem keeps_takeValue_at (source : Source P T)
    (hQ : source.Moves → ∀ v w, Q v → tr.MovesTo v w → Q w) :
    Keeps (Linked.At p a next Q) (takeValue tr source : ListM P A T T) := by
  have hconstruct : Keeps (Linked.At p a next Q) (constructElement : ListM P A T Unit) := by
    intro s r s' hs hrun
    rw [constructElement] at hrun
    split at hrun <;> obtain ⟨-, rfl⟩ := Prod.mk.inj (Option.some.inj hrun) <;> exact hs
  have hmoved : Keeps (Linked.At p a next Q) (source.leave tr.movedFrom : ListM P A T Unit) :=
    keeps_leave_at source fun hm v hv => hQ hm v _ hv (.inl rfl)
  have hthrown : Keeps (Linked.At p a next Q)
      (onException Failure.caught constructElement (source.leave tr.halfMovedFrom) :
        ListM P A T Unit) :=
    hconstruct.onException (keeps_leave_at source fun hm v hv => hQ hm v _ hv (.inr rfl))
  refine Keeps.bind ?_ fun v => hthrown.bind fun _ => hmoved.bind fun _ => keeps_pure v
  cases source with
  | value v => exact keeps_pure v
  | copyOf q | moveFrom q => exact (keeps_fetch _).bind fun n => keeps_pure n.value

theorem keeps_construct_at (link : Option P) (source : Source P T)
    (hQ : source.Moves → ∀ v w, Q v → tr.MovesTo v w → Q w) :
    Keeps (Linked.At p a next Q) (construct tr q link source : ListM P A T Unit) := by
  refine Leads.fetch fun c s r s' hs hrun => ?_
  obtain ⟨hs, hcell⟩ := hs
  obtain ⟨b, n | n⟩ := c
  · have hne : q ≠ p := hs.ne fun b' n hb => by cases hcell.symm.trans hb
    refine Keeps.bind (I := Linked.At p a next Q) (keeps_fetch _) (fun ok => ?_) s r s' hs hrun
    cases ok with
    | true =>
      exact (keeps_takeValue_at source hQ).bind fun v => leads_modify fun s hs => hs.setCell hne _ _
    | false => exact keeps_throw _
  · cases hrun

theorem keeps_createNode_at (link : Option P) (source : Source P T)
    (hQ : source.Moves → ∀ v w, Q v → tr.MovesTo v w → Q w) :
    Keeps (Linked.At p a next Q) (createNode tr i link source : ListM P A T P) :=
  (keeps_fetch _).bind fun _ => (keeps_allocate_at _).bind fun q =>
    Keeps.bind ((keeps_construct_at link source hQ).onException
      ((keeps_fetch _).bind fun _ => keeps_deallocate_at _)) fun _ => keeps_pure q

/-- A new node is where there was none. -/
theorem createNode_fresh {link : Option P} {source : Source P T}
    (hrun : createNode tr i link source h = some (.ok q, h')) : h.cells q = none := by
  obtain ⟨o, h₁, ho, hrun⟩ := bind_eq_ok hrun
  obtain ⟨q', h₂, hallocate, hrun⟩ := bind_eq_ok hrun
  obtain ⟨-, h₃, -, hrun⟩ := bind_eq_ok hrun
  obtain ⟨hq, -⟩ := Prod.mk.inj (Option.some.inj hrun)
  obtain rfl := Except.ok.inj hq
  obtain ⟨x, -, hx⟩ := Option.map_eq_some_iff.mp ho
  obtain ⟨-, rfl⟩ := Prod.mk.inj hx
  rw [allocate] at hallocate
  split at hallocate
  · split at hallocate
    · cases hallocate
    · next hfree =>
      obtain ⟨hq, -⟩ := Prod.mk.inj (Option.some.inj hallocate)
      obtain rfl := Except.ok.inj hq
      simpa using hfree
  · cases hallocate
  · cases hallocate

/-- **The loop links only nodes that it has made itself.** -/
theorem keeps_appendLoop_at (how : Transfer)
    (hQ : how = .move → ∀ v w, Q v → tr.MovesTo v w → Q w) (fuel : ℕ) (tail : Tail P) (q : Option P)
    (htail : tail ≠ .next p) :
    Keeps (Linked.At p a next Q) (appendLoop tr i how fuel tail q : ListM P A T Unit) := by
  induction fuel generalizing tail q with
  | zero => exact leads_undefined
  | succ fuel ih =>
    cases q with
    | none => exact keeps_pure ()
    | some q =>
      have hcreate : Keeps (Linked.At p a next Q)
          (createNode tr i none (how.source q) : ListM P A T P) :=
        keeps_createNode_at none _ fun hmoves => hQ (by cases how <;> [cases hmoves; rfl])
      refine Leads.bind_value (J := Linked.At p a next Q)
        (Q := fun copy s => Linked.At p a next Q s ∧ copy ≠ p) (fun s r s' hs hrun => ?_)
        (fun copy s r s' hs hrun => ?_) fun _ hs => hs
      · refine ⟨fun copy hr => ⟨hcreate s r s' hs hrun, ?_⟩, hcreate s r s' hs hrun⟩
        subst hr
        exact hs.ne fun b n hb => by cases (createNode_fresh hrun).symm.trans hb
      · refine Keeps.bind (I := Linked.At p a next Q) ?_ (fun _ => ?_) s r s' hs.1 hrun
        · cases tail with
          | head => exact (keeps_fetch _).bind fun _ => leads_modify fun s hs => hs
          | next t =>
            have ht : p ≠ t := fun ht => htail (congrArg Tail.next ht.symm)
            exact (keeps_fetch _).bind fun _ => leads_modify fun s hs =>
              hs.congr (NodeHeap.mapNode_cells_of_ne s ht _)
        · exact Keeps.bind ((keeps_fetch _).bind fun _ => leads_modify fun s hs => hs) fun _ =>
            (keeps_fetch _).bind fun _ =>
              ih (.next copy) _ fun hcopy => hs.2 (Tail.next.inj hcopy)

/-- What destroys no node. -/
theorem keeps_remains {α : Type} {x : ListM P A T α} (hlog : ∀ h₀, Keeps (Extends h₀) x)
    (hcell : Keeps (Linked.At p a next Q) x) : Keeps (Remains p d a next Q) x := by
  intro s r s' hs hrun
  have hle := (hlog s s r s' .refl hrun).deaths_le p
  have hd := hs.1
  refine ⟨Nat.le_trans hd hle, fun hdeaths => hcell s r s' (hs.2 ?_) hrun⟩
  omega

theorem keeps_destroy_remains : Keeps (Remains p d a next Q) (destroy q : ListM P A T Unit) := by
  by_cases hq : q = p
  · subst hq
    refine (keeps_fetch _).bind fun c => ?_
    obtain ⟨b, n | n⟩ := c
    · exact leads_undefined
    · refine leads_modify fun s hs => ?_
      have hdeaths : ((s.setCell q (some (b, none))).record (.destroy q)).deaths q =
          s.deaths q + 1 := List.count_cons_self
      have hle := hs.1
      exact ⟨by omega, fun hd => by omega⟩
  · refine keeps_remains (fun _ => keeps_destroy_extends) ((keeps_fetch _).bind fun c => ?_)
    obtain ⟨b, n | n⟩ := c
    · exact leads_undefined
    · exact leads_modify fun s hs => hs.setCell hq _ _

/-- **No operation changes a node but by destroying it or moving its element.** -/
theorem framed_remains (hQ : moving → ∀ v w, Q v → tr.MovesTo v w → Q w) :
    Framed tr moving (Remains p d a next Q) where
  setList f := keeps_remains (fun _ => keeps_setList stable_extends f) (leads_modify fun _ hs => hs)
  createNode link source hmoving := keeps_remains (fun _ => closed_extends.createNode link source)
    (keeps_createNode_at link source fun hm => hQ (hmoving hm))
  destroyNode := keeps_destroy_remains.bind fun _ => (keeps_fetch _).bind fun _ =>
    keeps_remains (fun _ => keeps_deallocate_extends _) (keeps_deallocate_at _)
  appendLoop how fuel q hmoving :=
    keeps_remains (fun _ => closed_extends.appendLoop how fuel .head q)
      (keeps_appendLoop_at how (fun hm => hQ (hmoving hm)) fuel .head q fun ht => by cases ht)

end Node

/-! ## One call -/

/-- Memory that has been destroyed and not handed out again holds no node. -/
theorem Lives.not_construct {events log : List (Event P)} {p : P} (hlives : Lives (events ++ log))
    (hdestroy : Event.destroy p ∈ events) (hallocate : Event.allocate p ∉ events) :
    lastEvent (events ++ log) p ≠ some (.construct p) := by
  induction events with
  | nil => cases hdestroy
  | cons e events ih =>
    rw [List.cons_append] at hlives ⊢
    obtain ⟨hfollow, hlives⟩ := hlives
    have hallocate' : Event.allocate p ∉ events := fun h => hallocate (List.mem_cons_of_mem _ h)
    by_cases hp : p = e.node
    · subst hp
      rw [lastEvent_cons_self]
      intro he
      rw [Option.some.inj he] at hfollow hdestroy hallocate' ih
      have hdestroy' : Event.destroy e.node ∈ events :=
        (List.mem_cons.mp hdestroy).resolve_left fun h => by cases h
      have hsome : ((events.find? fun f => f.node = e.node)).isSome :=
        List.find?_isSome.mpr ⟨_, hdestroy', by simp [Event.node]⟩
      obtain ⟨f, hf⟩ := Option.isSome_iff_exists.mp hsome
      have hlast : lastEvent (events ++ log) e.node = some f := by
        rw [lastEvent, List.find?_append, hf]
        rfl
      have hnode : f.node = e.node := by simpa using List.find?_some hf
      have hmem := List.mem_of_find?_eq_some hf
      change Event.mayFollow _ (lastEvent (events ++ log) e.node) = true at hfollow
      rw [hlast] at hfollow
      cases f with
      | allocate q =>
        obtain rfl : q = e.node := hnode
        exact hallocate' hmem
      | construct q | destroy q | deallocate q => cases hfollow
    · rw [lastEvent_cons_of_ne hp]
      refine ih hlives ((List.mem_cons.mp hdestroy).resolve_left fun h => ?_) hallocate'
      exact hp (congrArg Event.node h)

/-- The entry `e` later: its element may have been moved from, if elements are. -/
def Entry.Aged (tr : Traits A T) (moving : Prop) (e e' : Entry P A T) : Prop :=
  e'.addr = e.addr ∧ e'.allocator = e.allocator ∧
    Relation.ReflTransGen (fun v w => moving ∧ tr.MovesTo v w) e.value e'.value

section Call

variable {tr : Traits A T} {moving : Prop} {h h' : NodeHeap P A T} {C C' : Chains P A T}
  {c : Call P A T} {r : Except Failure Unit} {p : P} {l l' l₀ : List (Entry P A T)}

omit [DecidableEq P] in
theorem Entry.Aged.refl (e : Entry P A T) : e.Aged tr moving e :=
  ⟨rfl, rfl, .refl⟩

omit [DecidableEq P] in
theorem first_aged (haged : List.Forall₂ (Entry.Aged tr moving) l l') : first l' = first l := by
  cases haged with
  | nil => rfl
  | cons he _ => exact congrArg some he.1

omit [DecidableEq P] in
theorem addrs_aged (haged : List.Forall₂ (Entry.Aged tr moving) l l') : addrs l' = addrs l := by
  induction haged with
  | nil => rfl
  | cons he _ ih => rw [addrs_cons, addrs_cons, he.1, ih]

omit [DecidableEq P] in
/-- The first node decides the chain. -/
theorem Linked.eq_of_first {cells : P → Option (A × Option (Node P T))} (hl : Linked cells l)
    (hl' : Linked cells l') (hfirst : first l = first l') : l = l' := by
  induction l generalizing l' with
  | nil =>
    cases l' with
    | nil => rfl
    | cons e' l' => cases hfirst
  | cons e l ih =>
    cases l' with
    | nil => cases hfirst
    | cons e' l' =>
      obtain ⟨addr, allocator, value⟩ := e
      obtain ⟨addr', allocator', value'⟩ := e'
      obtain rfl : addr = addr' := Option.some.inj hfirst
      obtain ⟨rfl, hnode⟩ := Prod.mk.inj (Option.some.inj (hl.1.symm.trans hl'.1))
      obtain ⟨hnext, rfl⟩ := Node.mk.inj (Option.some.inj hnode)
      rw [ih hl.2 hl'.2 hnext]

omit [DecidableEq P] in
/-- A node with a cell belongs to a list, if it has not been given up. -/
theorem Represents.exists_chain (hR : Represents tr h C) {x : A × Option (Node P T)}
    (hp : h.cells p = some x) (hreleased : ¬ C.released p) :
    ∃ i m e m', C.chain i = m ++ e :: m' ∧ e.addr = p := by
  obtain ⟨i, hi⟩ := (hR.owned p x hp).resolve_left hreleased
  obtain ⟨e, he, rfl⟩ := List.mem_map.mp hi
  obtain ⟨m, m', hchain⟩ := List.append_of_mem he
  exact ⟨i, m, e, m', hchain, rfl⟩

/-- A node that lives before and after a call has not been destroyed by it. -/
theorem deaths_eq (hR : Represents tr (h.answering c) C) (hrecorded : Recorded h')
    (hextends : Extends (h.answering c) h') (hp : (h.cells p).isSome) {a : A} {n : Node P T}
    (hp' : h'.cells p = some (a, some n)) : h'.deaths p = h.deaths p := by
  obtain ⟨⟨events, hlog, hallocated⟩, -⟩ := hextends
  have hallocate : Event.allocate p ∉ events := by
    intro hmem
    have hfree : h.cells p = none := (hR.supplied.fresh p (hallocated p hmem)).1
    rw [hfree] at hp
    cases hp
  have hdestroy : Event.destroy p ∉ events := by
    intro hmem
    have hlast := Lives.not_construct (hlog ▸ hrecorded.lives) hmem hallocate
    have hphase := hrecorded.cells p
    rw [NodeHeap.phase, hp', hlog] at hphase
    cases hfind : lastEvent (events ++ (h.answering c).log) p with
    | none => cases hfind ▸ hphase
    | some f =>
      rw [hfind] at hphase hlast
      have hnode : f.node = p := by simpa using List.find?_some hfind
      cases f with
      | construct q =>
        obtain rfl : q = p := hnode
        exact hlast rfl
      | allocate q | destroy q | deallocate q => cases hphase
  rw [NodeHeap.deaths, hlog, List.count_append, List.count_eq_zero.mpr hdestroy, Nat.zero_add]
  rfl

/-- **A chain after one call.** If its first node lives it is still there, with the nodes behind
it. -/
theorem Linked.aged (hR : Represents tr (h.answering c) C) (hR' : Represents tr h' C')
    (hrecorded : Recorded h') (hrun : c.op.perform tr (h.answering c) = some (r, h'))
    (hmoving : c.op.MovesElements tr → moving) (hl : Linked h.cells l)
    (haged : List.Forall₂ (Entry.Aged tr moving) l₀ l) (hreleased : ∀ q ∈ addrs l, ¬ C'.released q)
    (hhead : ∀ q, first l = some q → h'.deaths q = h.deaths q) :
    ∃ l', List.Forall₂ (Entry.Aged tr moving) l₀ l' ∧ Linked h'.cells l' := by
  have hextends := closed_extends.perform c.op _ _ _ .refl hrun
  induction haged with
  | nil => exact ⟨[], .nil, trivial⟩
  | @cons e₀ e l₀ l he haged ih =>
    let Q : T → Prop := Relation.ReflTransGen (fun v w => moving ∧ tr.MovesTo v w) e₀.value
    have hQ : moving → ∀ v w, Q v → tr.MovesTo v w → Q w := fun hm v w hv hvw => hv.tail ⟨hm, hvw⟩
    have hremains : Remains e.addr (h.deaths e.addr) e.allocator (first l) Q (h.answering c) :=
      ⟨Nat.le_refl _, fun _ => ⟨e.value, hl.1, he.2.2⟩⟩
    obtain ⟨-, halive⟩ := (framed_remains hQ).perform c.op hmoving _ _ _ hremains hrun
    obtain ⟨v, hv, hQv⟩ := halive (hhead e.addr rfl)
    have hnext : ∀ q, first l = some q → ∃ a n, h'.cells q = some (a, some n) := by
      intro q hq
      obtain ⟨j, m, e', m', hchain, haddr⟩ :=
        hR'.exists_chain hv (hreleased e.addr List.mem_cons_self)
      have hlinked : Linked h'.cells (m ++ e' :: m') := hchain ▸ hR'.linked j
      have hcell := hlinked.cell
      rw [haddr, hv] at hcell
      obtain ⟨-, hnode⟩ := Prod.mk.inj (Option.some.inj hcell)
      obtain ⟨hfirst, -⟩ := Node.mk.inj (Option.some.inj hnode)
      have hlinked' : Linked h'.cells m' := (Linked.of_append hlinked).2
      cases m' with
      | nil => cases hq.symm.trans hfirst
      | cons f m' =>
        obtain rfl : q = f.addr := Option.some.inj (hq.symm.trans hfirst)
        exact ⟨_, _, hlinked'.1⟩
    obtain ⟨l', haged', hl'⟩ := ih hl.2 (fun q hq => hreleased q (List.mem_cons_of_mem _ hq))
      fun q hq => by
        obtain ⟨a, n, hcell⟩ := hnext q hq
        refine deaths_eq hR hrecorded hextends ?_ hcell
        cases l with
        | nil => cases hq
        | cons f l =>
          obtain rfl : f.addr = q := Option.some.inj hq
          rw [hl.2.1]
          rfl
    refine ⟨⟨e.addr, e.allocator, v⟩ :: l', .cons ⟨he.1, he.2.1, hQv⟩ haged', ?_, hl'⟩
    rw [first_aged haged', ← first_aged haged]
    exact hv

end Call

/-! ## Runs -/

section Runs

variable {tr : Traits A T} {moving : Prop} {h h' : NodeHeap P A T} {c : Call P A T} {p : P} {d : ℕ}
  {l₀ : List (Entry P A T)}

/-- The chain `l₀` from the node at `p` on is still there, unless this node has been destroyed. -/
structure Tracked (tr : Traits A T) (moving : Prop) (p : P) (d : ℕ) (l₀ : List (Entry P A T))
    (h : NodeHeap P A T) : Prop where
  represents : ∃ C, Represents tr h C ∧ ∀ q ∈ addrs l₀, ¬ C.released q
  recorded : Recorded h
  deaths : d ≤ h.deaths p
  chain : h.deaths p = d → ∃ l, List.Forall₂ (Entry.Aged tr moving) l₀ l ∧ Linked h.cells l

theorem Tracked.next (htr : tr.Lawful) (hfirst : first l₀ = some p)
    (hT : Tracked tr moving p d l₀ h) (hkept : ∀ i, c.op ≠ .releaseNodes i)
    (hmoving : c.op.MovesElements tr → moving) (hnext : h.next tr c = some h') :
    Tracked tr moving p d l₀ h' := by
  obtain ⟨C, hR, hreleased⟩ := hT.represents
  have hc : h.legal c := by
    rw [NodeHeap.next] at hnext
    split at hnext
    · assumption
    · cases hnext
  have hR₁ := hR.answering (Bool.and_eq_true _ _ ▸ hc).2
  obtain ⟨r, C', hrun, hP⟩ := hR.next htr hnext
  have hreleased' : ∀ q ∈ addrs l₀, ¬ C'.released q := by
    rw [hP.released hkept]
    exact hreleased
  have hrecorded := hT.recorded.perform hrun
  have hle : h.deaths p ≤ h'.deaths p :=
    (closed_extends.perform c.op _ _ _ .refl hrun).deaths_le p
  have hd := hT.deaths
  refine ⟨⟨C', hP.represents, hreleased'⟩, hrecorded, Nat.le_trans hd hle, fun hdeaths => ?_⟩
  obtain ⟨l, haged, hl⟩ := hT.chain (by omega)
  refine hl.aged hR₁ hP.represents hrecorded hrun hmoving haged ?_ fun q hq => ?_
  · rw [addrs_aged haged]
    exact hreleased'
  · obtain rfl : p = q := Option.some.inj (hfirst.symm.trans ((first_aged haged).symm.trans hq))
    omega

omit [DecidableEq P] in
/-- Only what is in no list may be taken to be released. -/
theorem Represents.keptOnly {C : Chains P A T} (hR : Represents tr h C) : Represents tr h
    { C with released := fun q => C.released q ∧ ∀ i, q ∉ addrs (C.chain i) } :=
  { hR with
    owned := fun q x hx => by
      by_cases hq : ∃ i, q ∈ addrs (C.chain i)
      · exact Or.inr hq
      · exact Or.inl ⟨(hR.owned q x hx).resolve_right hq, not_exists.mp hq⟩ }

/-- The node later: it is at the same address, and its element may have been moved from. -/
def MovedFrom (tr : Traits A T) (x y : P × T) : Prop :=
  y.1 = x.1 ∧ Relation.ReflTransGen tr.MovesTo x.2 y.2

omit [DecidableEq P] in
theorem movedFrom_aged {l l' : List (Entry P A T)}
    (haged : List.Forall₂ (Entry.Aged tr moving) l l') : List.Forall₂ (MovedFrom tr)
      (l.map fun e => (e.addr, e.value)) (l'.map fun e => (e.addr, e.value)) := by
  rw [List.forall₂_map_left_iff, List.forall₂_map_right_iff]
  exact haged.imp fun e e' he => ⟨he.1, he.2.2.lift id fun _ _ h => h.2⟩

omit [DecidableEq P] in
theorem eq_of_aged {l l' : List (Entry P A T)}
    (haged : List.Forall₂ (Entry.Aged tr moving) l l') (hmoving : ¬ moving) :
    l'.map (fun e => (e.addr, e.value)) = l.map fun e => (e.addr, e.value) := by
  induction haged with
  | nil => rfl
  | @cons e e' l l' he _ ih =>
    have hvalue : e'.value = e.value := by
      rcases he.2.2.cases_head with heq | ⟨w, hw, -⟩
      · exact heq.symm
      · exact absurd hw.1 hmoving
    rw [List.map_cons, List.map_cons, ih, he.1, hvalue]

omit [DecidableEq P] in
/-- A chain that begins with a node of a list is the end of this list. -/
theorem Represents.ends {C : Chains P A T} (hR : Represents tr h C) {e : Entry P A T}
    {l : List (Entry P A T)} (hl : Linked h.cells (e :: l)) (hreleased : ¬ C.released e.addr) :
    ∃! j, ∃ passed, h.elements j =
      some (passed ++ (e :: l).map fun e => (e.addr, e.value)) := by
  obtain ⟨j, m, e', m', hchain, haddr⟩ := hR.exists_chain hl.1 hreleased
  have hlinked : Linked h.cells (m ++ e' :: m') := hchain ▸ hR.linked j
  have heq : e' :: m' = e :: l :=
    (Linked.of_append hlinked).eq_of_first hl (congrArg some haddr)
  have hmem : e.addr ∈ addrs (C.chain j) := by
    rw [hchain, heq, addrs_append]
    exact List.mem_append_right _ List.mem_cons_self
  refine ⟨j, ⟨m.map fun e => (e.addr, e.value), ?_⟩, ?_⟩
  · rw [hR.elements]
    cases ha : C.allocator j with
    | none =>
      rw [hR.absent j ha] at hmem
      cases hmem
    | some a => rw [Option.map_some, hchain, heq, List.map_append]
  · rintro k ⟨passed, hk⟩
    rw [hR.elements] at hk
    obtain ⟨a, -, hmap⟩ := Option.map_eq_some_iff.mp hk
    refine hR.apart k j e.addr ?_ hmem
    have haddrs : addrs (C.chain k) = passed.map Prod.fst ++ e.addr :: addrs l := by
      have hfst := congrArg (List.map Prod.fst) hmap
      simpa only [List.map_map, List.map_append, List.map_cons, Function.comp_def, addrs] using hfst
    rw [haddrs]
    exact List.mem_append_right _ List.mem_cons_self

/-- **Iterators and references stay valid.** Let an iterator point to a node of a list, after any
run of legal calls. After any calls that follow, whatever they throw, if the node has not been
destroyed the iterator goes on through the same nodes to the end, and these are the end of exactly
one list. If elements are not moved, it visits the same elements; if no constructor that throws
harms them, each has been moved from a number of times. -/
theorem iterators_stay_valid (htr : tr.Lawful) (accessible : P → Bool)
    (before after : List (Call P A T)) (h h' : NodeHeap P A T)
    (hbefore : run (NodeHeap.next tr) (NodeHeap.start accessible) before = some h)
    (hafter : run (NodeHeap.next tr) h after = some h')
    (hkept : ∀ c ∈ after, ∀ i, c.op ≠ .releaseNodes i)
    (i : ListId) (passed rest : List (P × T)) (p : P) (v : T)
    (hlist : h.elements i = some (passed ++ (p, v) :: rest))
    (hlives : h'.deaths p = h.deaths p) :
    ∃ nodes, h'.iterate (rest.length + 1) (some p) = some nodes ∧
      List.Forall₂ (MovedFrom tr) ((p, v) :: rest) nodes ∧
      ((∀ c ∈ after, ¬ c.op.MovesElements tr) → nodes = (p, v) :: rest) ∧
      (tr.halfMovedFrom = id → List.Forall₂ (fun x y => y.1 = x.1 ∧ ∃ k, y.2 = tr.movedFrom^[k] x.2)
        ((p, v) :: rest) nodes) ∧
      ∃! j, ∃ passed', h'.elements j = some (passed' ++ nodes) := by
  obtain ⟨⟨C, hR⟩, hrecorded⟩ := represents_recorded_run htr accessible hbefore
  have helements := hR.elements i
  rw [hlist] at helements
  obtain ⟨a, -, hchain⟩ := Option.map_eq_some_iff.mp helements.symm
  obtain ⟨m, l, hml, -, hl⟩ := List.map_eq_append_iff.mp hchain
  obtain ⟨e, l₀, rfl, he, hrest⟩ := List.map_eq_cons_iff.mp hl
  obtain ⟨rfl, rfl⟩ := Prod.mk.inj he
  have hlinked : Linked h.cells (e :: l₀) := Linked.of_append (hml ▸ hR.linked i)
  have hstart : Tracked tr (∃ c ∈ after, c.op.MovesElements tr) e.addr (h.deaths e.addr) (e :: l₀)
      h := by
    refine ⟨⟨_, hR.keptOnly, fun q hq hreleased => hreleased.2 i ?_⟩, hrecorded, Nat.le_refl _,
      fun _ => ⟨_, List.forall₂_same.mpr fun e _ => .refl e, hlinked⟩⟩
    rw [hml, addrs_append]
    exact List.mem_append_right _ hq
  have hend := run_invariant
    (fun _ c _ hs (hc : (∀ i, c.op ≠ .releaseNodes i) ∧ c ∈ after) hnext =>
      hs.next htr rfl hc.1 (fun hm => ⟨c, hc.2, hm⟩) hnext) hstart
    (fun c hc => ⟨hkept c hc, hc⟩) hafter
  obtain ⟨l', haged, hl'⟩ := hend.chain hlives
  obtain ⟨C', hR', hreleased'⟩ := hend.represents
  subst hrest
  have hmoved := movedFrom_aged haged
  refine ⟨_, ?_, hmoved, fun hmoves => ?_, fun hunharmed => ?_, ?_⟩
  · have hlength : l'.length = (l₀.map fun e => (e.addr, e.value)).length + 1 := by
      rw [List.length_map, ← haged.length_eq, List.length_cons]
    rw [← hlength, ← first_cons e l₀, ← first_aged haged]
    exact hl'.iterate
  · refine eq_of_aged haged ?_
    rintro ⟨c, hc, hm⟩
    exact hmoves c hc hm
  · exact hmoved.imp fun x y hxy => ⟨hxy.1, Traits.iterate_of_movesTo hunharmed hxy.2⟩
  · cases haged with
    | @cons _ e' _ l' he haged =>
      exact hR'.ends hl' (he.1 ▸ hreleased' e.addr List.mem_cons_self)

/-- The list 5, 4, 3. -/
def threePushes : List (Call ℕ ℕ ℕ) :=
  [⟨.construct 0 7, [], []⟩, ⟨.pushFront 0 (.value 3) 0, [some 10], [true]⟩,
    ⟨.pushFront 0 (.value 4) 0, [some 11], [true]⟩, ⟨.pushFront 0 (.value 5) 0, [some 12], [true]⟩]

/-- List 1 takes the nodes over, loses the first one, and gets a new one in the same place with what
was in the last one; a copy of it fails. -/
def takenOver : List (Call ℕ ℕ ℕ) :=
  [⟨.construct 1 7, [], []⟩, ⟨.moveAssign 1 0 9, [], []⟩, ⟨.popFront 1, [], []⟩,
    ⟨.pushFront 1 (.moveFrom 10) 1, [some 12], [true]⟩,
    ⟨.copyConstruct 2 1, [some 20, some 21], [true, false]⟩, ⟨.destroy 0, [], []⟩]

/-- An iterator to the 4 in list 0 visits the 4 in list 1, and what is left of the 3. -/
theorem iterators_stay_valid_takenOver :
    ∃ h h' nodes, run (NodeHeap.next numbers) (NodeHeap.start fun _ => true) threePushes = some h ∧
      run (NodeHeap.next numbers) h takenOver = some h' ∧
      h'.iterate 2 (some 11) = some nodes ∧ h'.elements 1 = some ((12, 3) :: nodes) ∧
      List.Forall₂ (MovedFrom numbers) [(11, 4), (10, 3)] nodes := by
  have hfacts : ((run (NodeHeap.next numbers) (NodeHeap.start fun _ => true) threePushes).bind
      fun h => (run (NodeHeap.next numbers) h takenOver).map fun h' =>
        decide (h.elements 0 = some [(12, 5), (11, 4), (10, 3)] ∧ h'.deaths 11 = h.deaths 11 ∧
          h'.iterate 2 (some 11) = some [(11, 4), (10, 0)] ∧
          h'.elements 1 = some [(12, 3), (11, 4), (10, 0)])) = some true := by
    decide +kernel
  obtain ⟨h, hbefore, hh⟩ := Option.bind_eq_some_iff.mp hfacts
  obtain ⟨h', hafter, hh'⟩ := Option.map_eq_some_iff.mp hh
  obtain ⟨hlist, hlives, hvisits, hnow⟩ := of_decide_eq_true hh'
  have hkept : ∀ c ∈ takenOver, ∀ i, c.op ≠ .releaseNodes i := by
    intro c hc i hi
    simp only [takenOver, List.mem_cons, List.not_mem_nil, or_false] at hc
    rcases hc with rfl | rfl | rfl | rfl | rfl | rfl <;> cases hi
  obtain ⟨nodes, hiterate, hmoved, -⟩ := iterators_stay_valid lawful_numbers _ threePushes takenOver
    h h' hbefore hafter hkept 0 [(12, 5)] [(10, 3)] 11 4 hlist hlives
  obtain rfl := Option.some.inj (hvisits.symm.trans hiterate)
  exact ⟨h, h', _, hbefore, hafter, hvisits, hnow, hmoved⟩

end Runs

end Doost.Lists
