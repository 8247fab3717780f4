import Mathlib.Data.List.Induction
import Mathlib.Logic.Relation

/-!
# Runs of a deterministic labelled system

A system is a partial function `next : S → L → Option S`: in state `s` the label `l` is either
not enabled (`none`) or leads to one state. All nondeterminism (which thread moves, what the
environment answers) is in the labels, so that a run is a list of labels and can be replayed.

The induction over runs is made here once: an invariant that every enabled step preserves holds
after every run (`run_invariant`), also when the steps are only known to meet a side condition on
the state and the label (`Along`, `Along.invariant`) or when the invariant speaks of the labels that
led to the state (`history_invariant`). An observer that notes something at each step leaves the
runs as they are; a relation between the state and its record that every step preserves holds after
every run (`record_invariant`).
-/

namespace Doost.Transition

variable {S L : Type*}

/-- The state after the labels `ls`, if each of them is enabled in turn. -/
def run (next : S → L → Option S) : S → List L → Option S
  | s, [] => some s
  | s, l :: ls => (next s l).bind fun s' => run next s' ls

variable {next : S → L → Option S}

theorem run_cons (s : S) (l : L) (ls : List L) :
    run next s (l :: ls) = (next s l).bind fun s' => run next s' ls := rfl

theorem run_cons_eq_some {s s' : S} {l : L} {ls : List L} :
    run next s (l :: ls) = some s' ↔ ∃ t, next s l = some t ∧ run next t ls = some s' := by
  rw [run_cons, Option.bind_eq_some_iff]

theorem run_append (s : S) (ls ms : List L) :
    run next s (ls ++ ms) = (run next s ls).bind fun t => run next t ms := by
  induction ls generalizing s with
  | nil => rfl
  | cons l ls ih =>
    simp only [List.cons_append, run_cons, Option.bind_assoc]
    exact congrArg _ (funext fun t => ih t)

theorem run_concat_eq_some {s u : S} {ls : List L} {l : L} :
    run next s (ls ++ [l]) = some u ↔ ∃ t, run next s ls = some t ∧ next t l = some u := by
  rw [run_append, Option.bind_eq_some_iff]
  simp only [run, Option.bind_fun_some]

/-! ## Invariants -/

/-- `ok` holds of every state and label that the run of `ls` from `s` goes through. -/
def Along (next : S → L → Option S) (ok : S → L → Prop) : S → List L → Prop
  | _, [] => True
  | s, l :: ls => ok s l ∧ ∀ s', next s l = some s' → Along next ok s' ls

/-- Along a run of a machine that can be run, what can be decided of each step can be decided. -/
instance Along.decidable (next : S → L → Option S) (ok : S → L → Prop)
    [∀ s l, Decidable (ok s l)] : ∀ s ls, Decidable (Along next ok s ls)
  | _, [] => isTrue trivial
  | s, l :: ls =>
    match hnext : next s l with
    | none => decidable_of_iff (ok s l)
        ⟨fun hok => ⟨hok, fun _ hs => by cases hnext.symm.trans hs⟩, And.left⟩
    | some t =>
      have := Along.decidable next ok t ls
      decidable_of_iff (ok s l ∧ Along next ok t ls)
        ⟨fun h => ⟨h.1, fun _ hs => Option.some.inj (hnext.symm.trans hs) ▸ h.2⟩,
          fun h => ⟨h.1, h.2 t hnext⟩⟩

theorem Along.invariant (ok : S → L → Prop) {I : S → Prop}
    (hstep : ∀ s l s', I s → ok s l → next s l = some s' → I s') {s s' : S} {ls : List L}
    (hs : I s) (hok : Along next ok s ls) (hrun : run next s ls = some s') : I s' := by
  induction ls generalizing s with
  | nil =>
    obtain rfl := Option.some.inj hrun
    exact hs
  | cons l ls ih =>
    obtain ⟨t, ht, hrest⟩ := run_cons_eq_some.mp hrun
    exact ih (hstep s l t hs hok.1 ht) (hok.2 t ht) hrest

theorem Along.and {ok ok' : S → L → Prop} {s : S} {ls : List L} (h : Along next ok s ls)
    (h' : Along next ok' s ls) : Along next (fun s l => ok s l ∧ ok' s l) s ls := by
  induction ls generalizing s with
  | nil => trivial
  | cons l ls ih => exact ⟨⟨h.1, h'.1⟩, fun t ht => ih (h.2 t ht) (h'.2 t ht)⟩

/-- What holds along a run holds along its end. -/
theorem Along.of_append {ok : S → L → Prop} {s t : S} {ls ms : List L}
    (h : Along next ok s (ls ++ ms)) (hrun : run next s ls = some t) : Along next ok t ms := by
  induction ls generalizing s with
  | nil =>
    obtain rfl := Option.some.inj hrun
    exact h
  | cons l ls ih =>
    obtain ⟨u, hu, hrest⟩ := run_cons_eq_some.mp hrun
    exact ih (h.2 u hu) hrest

/-- And along its beginning. -/
theorem Along.left {ok : S → L → Prop} {s : S} {ls ms : List L}
    (h : Along next ok s (ls ++ ms)) : Along next ok s ls := by
  induction ls generalizing s with
  | nil => trivial
  | cons l ls ih => exact ⟨h.1, fun t ht => ih (h.2 t ht)⟩

/-- And what holds along a continuation besides holds along the longer run. -/
theorem Along.append {ok : S → L → Prop} {s : S} {ls ms : List L} (h : Along next ok s ls)
    (hlast : ∀ t, run next s ls = some t → Along next ok t ms) : Along next ok s (ls ++ ms) := by
  induction ls generalizing s with
  | nil => exact hlast s rfl
  | cons l ls ih =>
    exact ⟨h.1, fun t ht => ih (h.2 t ht) fun u hu => hlast u (run_cons_eq_some.mpr ⟨t, ht, hu⟩)⟩

theorem Along.of_forall {ok : S → L → Prop} {s : S} {ls : List L} (h : ∀ l ∈ ls, ∀ s, ok s l) :
    Along next ok s ls := by
  induction ls generalizing s with
  | nil => trivial
  | cons l ls ih => exact ⟨h l (by simp) s, fun s' _ => ih fun m hm => h m (by simp [hm])⟩

theorem Along.of_labels {ok : L → Prop} {s : S} {ls : List L} (h : ∀ l ∈ ls, ok l) :
    Along next (fun _ l => ok l) s ls :=
  .of_forall fun l hl _ => h l hl

/-- What every enabled step whose label meets `ok` preserves holds after every run of such
labels. -/
theorem run_invariant {ok : L → Prop} {I : S → Prop}
    (hstep : ∀ s l s', I s → ok l → next s l = some s' → I s') {s s' : S} {ls : List L}
    (hs : I s) (hok : ∀ l ∈ ls, ok l) (hrun : run next s ls = some s') : I s' :=
  Along.invariant (fun _ l => ok l) hstep hs (Along.of_labels hok) hrun

/-- An invariant that speaks of the labels so far holds after every run, if it holds of the empty
run and a run that is longer by one step keeps it. -/
theorem history_invariant {I : List L → S → Prop} {s₀ : S} (hnil : I [] s₀)
    (hstep : ∀ ls l t u, I ls t → run next s₀ ls = some t → next t l = some u → I (ls ++ [l]) u)
    {s : S} {ls : List L} (hrun : run next s₀ ls = some s) : I ls s := by
  induction ls using List.reverseRecOn generalizing s with
  | nil =>
    obtain rfl := Option.some.inj hrun
    exact hnil
  | append_singleton ls l ih =>
    obtain ⟨t, ht, hl⟩ := run_concat_eq_some.mp hrun
    exact hstep ls l t s (ih ht) ht hl

/-! ## Records -/

section Record

variable {H : Type*}

/-- What an observer who starts with `h` has recorded after the labels `ls`, if `note` says what a
step adds. -/
def record (next : S → L → Option S) (note : S → L → H → H) : S → H → List L → H
  | _, h, [] => h
  | s, h, l :: ls =>
    match next s l with
    | none => h
    | some s' => record next note s' (note s l h) ls

theorem record_invariant_along {note : S → L → H → H} {ok : S → L → Prop} {I : S → H → Prop}
    (hstep : ∀ s l s' h, I s h → ok s l → next s l = some s' → I s' (note s l h)) {s s' : S}
    {h : H} {ls : List L} (hs : I s h) (hok : Along next ok s ls)
    (hrun : run next s ls = some s') : I s' (record next note s h ls) := by
  induction ls generalizing s h with
  | nil =>
    obtain rfl := Option.some.inj hrun
    exact hs
  | cons l ls ih =>
    obtain ⟨t, ht, hrest⟩ := run_cons_eq_some.mp hrun
    simp only [record, ht]
    exact ih (hstep s l t h hs hok.1 ht) (hok.2 t ht) hrest

theorem record_invariant {note : S → L → H → H} {I : S → H → Prop}
    (hstep : ∀ s l s' h, I s h → next s l = some s' → I s' (note s l h)) {s s' : S} {h : H}
    {ls : List L} (hs : I s h) (hrun : run next s ls = some s') :
    I s' (record next note s h ls) :=
  record_invariant_along (fun s l s' h hI (_ : True) => hstep s l s' h hI) hs
    (Along.of_forall fun _ _ _ => trivial) hrun

end Record

end Doost.Transition
