import Mathlib.Data.List.Nodup
import Doost.Foundations.SharedValues
import Doost.Foundations.Transition

/-!
# The coming and going of shared values

A value that objects share goes when its last holder lets go of it. `loses_iff` says for each
operation which value that is, if any. A `Ledger` lists the values that a run makes and those that
it loses, step by step; `Ledger.balance` is the law of conservation: the values made in a run, with
those there were before, are those lost and those still alive.
-/

namespace Doost

namespace SharedValues

variable {ι β τ : Type*}

/-- `x` is the only holder of `b`. -/
def Sole (s : SharedValues ι β τ) (x : ι) (b : β) : Prop :=
  s.holder x = some (some b) ∧ ∀ y, s.holder y = some (some b) → y = x

/-- The value `v`, called `b`, is new. -/
def Makes (s s' : SharedValues ι β τ) (b : β) (v : τ) : Prop :=
  s.value b = none ∧ s'.value b = some v

/-- The value `v`, called `b`, has lost its last holder. -/
def Loses (s s' : SharedValues ι β τ) (b : β) (v : τ) : Prop :=
  s.value b = some v ∧ s.Held b ∧ ¬ s'.Held b

/-- `x` lets go of what it holds. -/
def Op.LetsGo (s : SharedValues ι β τ) (x : ι) : Op ι β τ → Prop
  | .skip | .exchange _ _ => False
  | .create y | .destroy y | .clear y | .store y _ _ => y = x
  | .share y z => y = x ∧ s.holder y ≠ s.holder z
  | .transfer y z => y = x ∧ y ≠ z

variable {s : SharedValues ι β τ} {x y : ι} {b c : β} {v w : τ} {op : Op ι β τ}

theorem Sole.held (h : s.Sole x b) : s.Held b := ⟨x, h.1⟩

/-! ## One operation -/

theorem Op.LetsGo.unique (hx : op.LetsGo s x) (hy : op.LetsGo s y) : x = y := by
  cases op with
  | skip | exchange => exact hx.elim
  | create | destroy | clear | store => exact hx.symm.trans hy
  | share | transfer => exact hx.1.symm.trans hy.1

section Apply

variable [DecidableEq ι]

/-- The value that goes when only the holding of `x` changes. -/
theorem held_and_not_update_iff {o : Option (Option β)} :
    (s.Held b ∧ ¬ ∃ z, Function.update s.holder x o z = some (some b)) ↔
      s.Sole x b ∧ o ≠ some (some b) := by
  constructor
  · rintro ⟨⟨z, hz⟩, hnot⟩
    have hother : ∀ z, s.holder z = some (some b) → z = x := by
      intro z hz
      by_contra hne
      exact hnot ⟨z, (Function.update_of_ne hne ..).trans hz⟩
    refine ⟨⟨hother z hz ▸ hz, hother⟩, fun ho => hnot ⟨x, ?_⟩⟩
    rw [Function.update_self, ho]
  · rintro ⟨hsole, ho⟩
    refine ⟨hsole.held, ?_⟩
    rintro ⟨z, hz⟩
    rcases eq_or_ne z x with rfl | hne
    · rw [Function.update_self] at hz
      exact ho hz
    · rw [Function.update_of_ne hne] at hz
      exact hne (hsole.2 z hz)

variable [DecidableEq β]

theorem held_and_not_transfer_iff (hxy : x ≠ y) :
    (s.Held b ∧ ¬ (s.apply (.transfer x y)).Held b) ↔ s.Sole x b := by
  have hholder : (s.apply (.transfer x y)).holder =
      Function.update (Function.update s.holder x (s.holder y)) y (some none) := by
    change (s.change _).holder = _
    rw [change, if_neg hxy]
  have hself : (s.apply (.transfer x y)).holder x = s.holder y := by
    rw [hholder, Function.update_of_ne hxy, Function.update_self]
  have hother : ∀ z, z ≠ x → z ≠ y → (s.apply (.transfer x y)).holder z = s.holder z := by
    intro z hzx hzy
    rw [hholder, Function.update_of_ne hzy, Function.update_of_ne hzx]
  constructor
  · rintro ⟨⟨z, hz⟩, hnot⟩
    have hsole : ∀ z, s.holder z = some (some b) → z = x := by
      intro z hz
      by_contra hzx
      rcases eq_or_ne z y with rfl | hzy
      · exact hnot ⟨x, hself.trans hz⟩
      · exact hnot ⟨z, (hother z hzx hzy).trans hz⟩
    exact ⟨hsole z hz ▸ hz, hsole⟩
  · intro hsole
    refine ⟨hsole.held, ?_⟩
    rintro ⟨z, hz⟩
    rcases eq_or_ne z y with rfl | hzy
    · rw [hholder, Function.update_self] at hz
      cases hz
    · rcases eq_or_ne z x with rfl | hzx
      · exact hxy (hsole.2 y (hself ▸ hz)).symm
      · exact hzx (hsole.2 z (hother z hzx hzy ▸ hz))

/-- An exchange keeps every value held. -/
theorem held_exchange (h : s.Held b) : (s.apply (.exchange x y)).Held b := by
  obtain ⟨z, hz⟩ := h
  have hholder : (s.apply (.exchange x y)).holder = s.holder ∘ Equiv.swap x y := by
    rw [Equiv.swap_comm, Equiv.comp_swap_eq_update]
    rfl
  refine ⟨Equiv.swap x y z, ?_⟩
  rw [hholder, Function.comp_apply, Equiv.swap_apply_self]
  exact hz

/-- **The value that an operation loses** is the one whose only holder lets go of it. -/
theorem loses_iff (hop : op.Fresh s) :
    s.Loses (s.apply op) b v ↔ s.value b = some v ∧ ∃ x, op.LetsGo s x ∧ s.Sole x b := by
  refine and_congr_right fun hv => ?_
  cases op with
  | skip => exact iff_of_false (fun h => h.2 h.1) (by rintro ⟨x, hx, -⟩; exact hx)
  | exchange y z =>
    exact iff_of_false (fun h => h.2 (held_exchange h.1)) (by rintro ⟨x, hx, -⟩; exact hx)
  | create y | destroy y | clear y =>
    refine held_and_not_update_iff.trans ?_
    simp [Op.LetsGo]
  | store y c w =>
    have hne : c ≠ b := by
      rintro rfl
      cases hv.symm.trans hop
    refine held_and_not_update_iff.trans ?_
    simp [Op.LetsGo, hne]
  | share y z =>
    refine held_and_not_update_iff.trans ?_
    constructor
    · rintro ⟨hsole, hz⟩
      exact ⟨y, ⟨rfl, fun h => hz (h ▸ hsole.1)⟩, hsole⟩
    · rintro ⟨x, ⟨rfl, hne⟩, hsole⟩
      exact ⟨hsole, fun hz => hne (hsole.1.trans hz.symm)⟩
  | transfer y z =>
    rcases eq_or_ne y z with rfl | hyz
    · have hsame : (s.apply (.transfer y y)).holder = s.holder := by
        change (s.change _).holder = _
        rw [change, if_pos rfl]
      refine iff_of_false (fun h => h.2 ?_) (by rintro ⟨x, ⟨-, hx⟩, -⟩; exact hx rfl)
      obtain ⟨x, hx⟩ := h.1
      exact ⟨x, hsame ▸ hx⟩
    · refine (held_and_not_transfer_iff hyz).trans ⟨fun h => ⟨y, ⟨rfl, hyz⟩, h⟩, ?_⟩
      rintro ⟨x, ⟨rfl, -⟩, h⟩
      exact h

/-- At most one value is lost. -/
theorem loses_unique (hop : op.Fresh s) (hb : s.Loses (s.apply op) b v)
    (hc : s.Loses (s.apply op) c w) : b = c ∧ v = w := by
  obtain ⟨hv, x, hx, hsole⟩ := (loses_iff hop).mp hb
  obtain ⟨hw, y, hy, hsole'⟩ := (loses_iff hop).mp hc
  obtain rfl := hx.unique hy
  obtain rfl : b = c := Option.some.inj (Option.some.inj (hsole.1.symm.trans hsole'.1))
  exact ⟨rfl, Option.some.inj (hv.symm.trans hw)⟩

theorem held_of_value_apply (h : (s.apply op).value b = some v) : (s.change op).Held b := by
  by_contra hheld
  rw [apply, value_collect_of_not_held hheld] at h
  cases h

/-- A new value is one that is stored. -/
theorem makes_iff (hop : op.Fresh s) :
    s.Makes (s.apply op) b v ↔ ∃ x, op = .store x b v := by
  constructor
  · rintro ⟨hnone, hsome⟩
    have hchange : (s.change op).value b = some v := by
      rw [apply, value_collect_of_held (held_of_value_apply hsome)] at hsome
      exact hsome
    cases op with
    | store x c w =>
      change Function.update s.value c (some w) b = some v at hchange
      rcases eq_or_ne b c with rfl | hne
      · rw [Function.update_self] at hchange
        obtain rfl := Option.some.inj hchange
        exact ⟨x, rfl⟩
      · rw [Function.update_of_ne hne, hnone] at hchange
        cases hchange
    | _ =>
      rw [value_change rfl, hnone] at hchange
      cases hchange
  · rintro ⟨x, rfl⟩
    have hheld : (s.change (.store x b v)).Held b := ⟨x, Function.update_self ..⟩
    refine ⟨hop, ?_⟩
    rw [apply, value_collect_of_held hheld]
    exact Function.update_self ..

/-- A new value has one holder. -/
theorem sole_apply_store (hs : s.Live) (hb : s.value b = none) :
    (s.apply (.store x b v)).Sole x b := by
  have hself : (s.apply (.store x b v)).holder x = some (some b) := Function.update_self ..
  refine ⟨hself, fun y hy => ?_⟩
  by_contra hyx
  have hold : s.holder y = some (some b) := (Function.update_of_ne hyx ..).symm.trans hy
  have hsome := (hs b).mpr ⟨y, hold⟩
  rw [hb] at hsome
  exact Bool.false_ne_true hsome

/-- What is alive after an operation is new, or was alive and is not lost. -/
theorem value_apply_iff (hs : s.Live) (hop : op.Fresh s) :
    (s.apply op).value b = some v ↔
      s.Makes (s.apply op) b v ∨ s.value b = some v ∧ ¬ s.Loses (s.apply op) b v := by
  constructor
  · intro hsome
    have hheld := held_of_value_apply hsome
    rcases hb : s.value b with - | w
    · exact Or.inl ⟨hb, hsome⟩
    · have hkeep := value_change_of_isSome hop (Option.isSome_iff_exists.mpr ⟨w, hb⟩)
      rw [apply, value_collect_of_held hheld, hkeep, hb] at hsome
      exact Or.inr ⟨hsome, fun hloses => hloses.2.2 hheld⟩
  · rintro (hmakes | ⟨hb, hnot⟩)
    · exact hmakes.2
    · have hsome := Option.isSome_iff_exists.mpr ⟨v, hb⟩
      have hheld : (s.change op).Held b := by
        by_contra hheld
        exact hnot ⟨hb, (hs b).mp hsome, hheld⟩
      rw [apply, value_collect_of_held hheld, value_change_of_isSome hop hsome, hb]

end Apply

/-! ## The ledger of a run -/

/-- The list of the values alive. -/
def Lists (s : SharedValues ι β τ) (l : List (β × τ)) : Prop :=
  l.Nodup ∧ ∀ b v, (b, v) ∈ l ↔ s.value b = some v

/-- What a step makes and what it loses: at most one value each. -/
structure Entry (s s' : SharedValues ι β τ) (made lost : List (β × τ)) : Prop where
  made_iff : ∀ b v, (b, v) ∈ made ↔ s.Makes s' b v
  lost_iff : ∀ b v, (b, v) ∈ lost ↔ s.Loses s' b v
  made_le : made.length ≤ 1
  lost_le : lost.length ≤ 1

/-- Of a run of a system in which one sees shared values, the values that its steps make and
those that they lose, in order. -/
inductive Ledger {S L : Type*} (next : S → L → Option S) (view : S → SharedValues ι β τ) :
    S → List L → S → List (β × τ) → List (β × τ) → Prop
  | nil (q : S) : Ledger next view q [] q [] []
  | cons {q q₁ q' : S} {l : L} {ls : List L} {made lost made' lost' : List (β × τ)}
      (hnext : next q l = some q₁) (hentry : Entry (view q) (view q₁) made lost)
      (hrest : Ledger next view q₁ ls q' made' lost') :
      Ledger next view q (l :: ls) q' (made ++ made') (lost ++ lost')

theorem nodup_of_length_le {α : Type*} {l : List α} (h : l.length ≤ 1) : l.Nodup := by
  rcases l with - | ⟨a, - | ⟨b, l⟩⟩
  · exact List.nodup_nil
  · exact List.nodup_singleton a
  · simp at h

section Step

variable [DecidableEq ι] [DecidableEq β]

/-- Every operation has an entry. -/
theorem exists_entry (hop : op.Fresh s) : ∃ made lost, Entry s (s.apply op) made lost := by
  have hlist : ∀ p : β → τ → Prop, (∀ b v c w, p b v → p c w → b = c ∧ v = w) →
      ∃ l : List (β × τ), (∀ b v, (b, v) ∈ l ↔ p b v) ∧ l.length ≤ 1 := by
    intro p hp
    by_cases hex : ∃ b v, p b v
    · obtain ⟨b, v, hbv⟩ := hex
      refine ⟨[(b, v)], fun c w => ?_, le_rfl⟩
      rw [List.mem_singleton, Prod.mk.injEq]
      constructor
      · rintro ⟨rfl, rfl⟩
        exact hbv
      · exact fun hcw => hp c w b v hcw hbv
    · refine ⟨[], fun c w => iff_of_false List.not_mem_nil fun hcw => ?_, Nat.zero_le 1⟩
      exact hex ⟨c, w, hcw⟩
  obtain ⟨made, hmade, hmade1⟩ := hlist (s.Makes (s.apply op)) fun b v c w hb hc => by
    obtain ⟨x, rfl⟩ := (makes_iff hop).mp hb
    obtain ⟨y, hy⟩ := (makes_iff hop).mp hc
    cases hy
    exact ⟨rfl, rfl⟩
  obtain ⟨lost, hlost, hlost1⟩ := hlist (s.Loses (s.apply op)) fun b v c w hb hc =>
    loses_unique hop hb hc
  exact ⟨made, lost, hmade, hlost, hmade1, hlost1⟩

/-- What an operation makes comes to the values alive, and what it loses goes. -/
theorem Entry.balance {made lost l : List (β × τ)} (hs : s.Live) (hop : op.Fresh s)
    (hentry : Entry s (s.apply op) made lost) (hl : s.Lists l) :
    ∃ l', (s.apply op).Lists l' ∧ (made ++ l).Perm (lost ++ l') := by
  classical
  have hmade := nodup_of_length_le hentry.made_le
  have hlost := nodup_of_length_le hentry.lost_le
  have hsub : ∀ e ∈ lost, e ∈ l := fun e he =>
    (hl.2 e.1 e.2).mpr ((hentry.lost_iff e.1 e.2).mp he).1
  have hkeep : (l.filter (· ∈ lost)).Perm lost := by
    refine (List.perm_ext_iff_of_nodup (hl.1.filter _) hlost).mpr fun e => ?_
    simp only [List.mem_filter, decide_eq_true_eq]
    exact ⟨fun he => he.2, fun he => ⟨hsub e he, he⟩⟩
  refine ⟨made ++ l.filter (· ∉ lost), ⟨?_, fun b v => ?_⟩, ?_⟩
  · refine List.nodup_append.mpr ⟨hmade, hl.1.filter _, ?_⟩
    rintro ⟨b, v⟩ he e' he' rfl
    have hnone := ((hentry.made_iff b v).mp he).1
    have hsome := (hl.2 b v).mp (List.mem_of_mem_filter he')
    cases hnone.symm.trans hsome
  · rw [value_apply_iff hs hop, List.mem_append, hentry.made_iff, List.mem_filter, hl.2,
      decide_eq_true_eq, hentry.lost_iff]
  · have hsplit := (List.filter_append_perm (· ∈ lost) l).symm
    have hrest : l.Perm (lost ++ l.filter (· ∉ lost)) := by
      simpa using hsplit.trans (hkeep.append_right _)
    have hswap : (made ++ (lost ++ l.filter (· ∉ lost))).Perm
        (lost ++ (made ++ l.filter (· ∉ lost))) := by
      rw [← List.append_assoc, ← List.append_assoc]
      exact List.perm_append_comm.append_right _
    exact (hrest.append_left made).trans hswap

/-! ## Runs -/

variable {S L : Type*} {next : S → L → Option S} {view : S → SharedValues ι β τ} {I : S → Prop}
  {q q' : S} {ls : List L}

/-- Every step from a state with `I` is an operation on what one sees. -/
structure Acts (next : S → L → Option S) (view : S → SharedValues ι β τ) (I : S → Prop) :
    Prop where
  live : ∀ q, I q → (view q).Live
  step : ∀ q l q', I q → next q l = some q' →
    I q' ∧ ∃ op, op.Fresh (view q) ∧ view q' = (view q).apply op

theorem Acts.exists_ledger (h : Acts next view I) (hq : I q)
    (hrun : Transition.run next q ls = some q') :
    ∃ made lost, Ledger next view q ls q' made lost := by
  induction ls generalizing q with
  | nil =>
    obtain rfl := Option.some.inj hrun
    exact ⟨[], [], .nil q⟩
  | cons l ls ih =>
    obtain ⟨q₁, hnext, hrest⟩ := Transition.run_cons_eq_some.mp hrun
    obtain ⟨hq₁, op, hop, hview⟩ := h.step q l q₁ hq hnext
    obtain ⟨made, lost, hentry⟩ := exists_entry hop
    obtain ⟨made', lost', hledger⟩ := ih hq₁ hrest
    exact ⟨_, _, .cons hnext (hview ▸ hentry) hledger⟩

/-- **Conservation.** The values alive at first and those made are those lost and those alive at
last. -/
theorem Ledger.balance {made lost l : List (β × τ)} (h : Acts next view I) (hq : I q)
    (hledger : Ledger next view q ls q' made lost) (hl : (view q).Lists l) :
    ∃ l', (view q').Lists l' ∧ (made ++ l).Perm (lost ++ l') := by
  induction hledger generalizing l with
  | nil q => exact ⟨l, hl, List.Perm.refl _⟩
  | @cons q q₁ q' label ls made lost made' lost' hnext hentry hrest ih =>
    obtain ⟨hq₁, op, hop, hview⟩ := h.step q label q₁ hq hnext
    obtain ⟨l₁, hl₁, hperm⟩ := (hview ▸ hentry).balance (h.live q hq) hop hl
    obtain ⟨l', hl', hperm'⟩ := ih hq₁ (hview ▸ hl₁)
    refine ⟨l', hl', ?_⟩
    have hfirst : (made ++ made' ++ l).Perm (made' ++ (lost ++ l₁)) := by
      have hcomm : (made ++ made').Perm (made' ++ made) := List.perm_append_comm
      have hswap := hcomm.append_right l
      rw [List.append_assoc made'] at hswap
      exact hswap.trans (hperm.append_left made')
    have hsecond : (made' ++ (lost ++ l₁)).Perm (lost ++ (made' ++ l₁)) := by
      rw [← List.append_assoc, ← List.append_assoc]
      exact List.perm_append_comm.append_right _
    rw [List.append_assoc lost]
    exact (hfirst.trans hsecond).trans (hperm'.append_left lost)

end Step

end SharedValues

end Doost
