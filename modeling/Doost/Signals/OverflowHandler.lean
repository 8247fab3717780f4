import Doost.Foundations.Transition
import Doost.Signals.SafeRead

/-!
# Installing the overflow handler

`install_pool_overflow_signal_handler` claims a flag, installs `poolSignalHandler` for `SIGSEGV` and
then for `SIGBUS`, saves the actions it replaces, and undoes all of it when the system refuses the
second. What it saves is what the handler passes faults on to, so that a saved action must never be
the handler itself.

A `Session` is a process with the dispositions its program has seen. Between the calls of a history
the program may install actions of its own and put back any that it has seen, the overflow handler
among them. As long as the flag is down nobody has seen that handler (`Sound.own`,
`Sound.observed_own`), and once it is up no call saves anything again: the saved actions stay those
in force when the installation succeeded (`SavedAtInstall.concat`). The program's own actions are
then all that the handler can pass a fault to (`overflow_handler_never_delegates_to_itself`).
-/

namespace Doost.Signals

open Pools (UIntPtr PoolRegistryEntry)
open Transition

/-- The action that `install_pool_overflow_signal_handler` installs. -/
def poolSignalAction : SigAction where
  handler := .function .poolSignalHandler
  mask := ∅
  flags := saSiginfo ||| saNodefer

/-- `install_pool_overflow_signal_handler`, with the answers to its two calls of `sigaction`. -/
def installPoolOverflowSignalHandler (segv bus : Answer) (p : Process) : Process :=
  if p.poolSignalHandlerInstalled then p
  else
    let p := p.setInstalled true
    match p.sigaction sigsegv poolSignalAction segv with
    | (none, p) => p.setInstalled false
    | (some previous, p) =>
      let p := { p with previousSigsegv := previous }
      match p.sigaction sigbus poolSignalAction bus with
      | (none, p) => (p.setDisposition sigsegv p.previousSigsegv).setInstalled false
      | (some previous, p) => { p with previousSigbus := previous }

/-! ## Histories -/

/-- A process, and the dispositions that its program has observed. -/
structure Session where
  process : Process
  observed : List SigAction

inductive Event
  | install (segv bus : Answer)
  | safeRead (call : ReadCall)
  /-- The program installs an action of its own, and is told the one it replaces. -/
  | user (signal : SignalNumber) (action : OwnAction)
  /-- The program asks for the action of a signal. -/
  | observe (signal : SignalNumber)
  /-- The program installs the `k`-th action it has observed, and is told the one it replaces. -/
  | putBack (signal : SignalNumber) (k : ℕ)

/-- The program replaces the action of a signal and is told what it was. -/
def Session.replace (s : Session) (signal : SignalNumber) (action : SigAction) : Session where
  process := s.process.setDisposition signal action
  observed := s.observed ++ [s.process.dispositions signal]

/-- One event; `none` when the process ends in it, or an action is put back that was not seen. -/
def next (s : Session) : Event → Option Session
  | .install segv bus =>
    some { s with process := installPoolOverflowSignalHandler segv bus s.process }
  | .safeRead call =>
    match safeReadUint8 call.address call.segv call.bus s.process with
    | .error _ => none
    | .ok (_, p) => some { s with process := p }
  | .user signal action => some (s.replace signal action.val)
  | .observe signal => some { s with observed := s.observed ++ [s.process.dispositions signal] }
  | .putBack signal k => s.observed[k]?.map (s.replace signal)

/-- The session of a process that starts. -/
def Session.start (memory : UIntPtr → Cell) (dispositions : SignalNumber → OwnAction)
    (mask : Finset SignalNumber) (errno : ℤ) (poolRegistry : List PoolRegistryEntry) : Session :=
  ⟨.start memory dispositions mask errno poolRegistry, []⟩

/-! ## The installation -/

variable {p q : Process} {segv bus : Answer}

theorem install_of_installed (h : p.poolSignalHandlerInstalled = true) :
    installPoolOverflowSignalHandler segv bus p = p := by
  simp only [installPoolOverflowSignalHandler, h, if_true]

/-- An installation that succeeds saves the actions in force. -/
theorem install_succeeds (h : p.poolSignalHandlerInstalled = false) :
    installPoolOverflowSignalHandler .succeeds .succeeds p =
      { ((p.setDisposition sigsegv poolSignalAction).setDisposition sigbus
          poolSignalAction).setInstalled true with
        previousSigsegv := p.dispositions sigsegv
        previousSigbus := p.dispositions sigbus } := by
  have hbus : (p.setDisposition sigsegv poolSignalAction).dispositions sigbus =
      p.dispositions sigbus :=
    Process.setDisposition_dispositions_of_ne sigbus_ne_sigsegv
  rw [← hbus, installPoolOverflowSignalHandler, h]
  rfl

/-- An installation that fails leaves the dispositions and the flag as they are. Of the saved
actions it may have replaced the first. -/
theorem install_fails (h : p.poolSignalHandlerInstalled = false)
    (hfails : ¬ (segv = .succeeds ∧ bus = .succeeds)) :
    ∃ errno previous, (previous = p.previousSigsegv ∨ previous = p.dispositions sigsegv) ∧
      installPoolOverflowSignalHandler segv bus p =
        { p.setErrno errno with previousSigsegv := previous } := by
  have hflag : p.setInstalled false = p := Process.setInstalled_eq_self h
  cases segv with
  | fails errno =>
    refine ⟨errno, p.previousSigsegv, .inl rfl, ?_⟩
    rw [installPoolOverflowSignalHandler, h]
    exact congrArg (fun q : Process => q.setErrno errno) hflag
  | succeeds =>
    cases bus with
    | succeeds => exact absurd ⟨rfl, rfl⟩ hfails
    | fails errno =>
      have hback : ((p.setDisposition sigsegv poolSignalAction).setDisposition sigsegv
          (p.dispositions sigsegv)).setInstalled false = p := by
        rw [Process.setDisposition_idem, Process.setDisposition_eq_self, hflag]
      refine ⟨errno, p.dispositions sigsegv, .inr rfl, ?_⟩
      rw [installPoolOverflowSignalHandler, h]
      exact congrArg (fun q : Process =>
        { q.setErrno errno with previousSigsegv := p.dispositions sigsegv }) hback

/-! ## What a history keeps -/

/-- The saved actions are those in force when an installation of the history succeeded. -/
def SavedAtInstall (start : Session) (events : List Event) (p : Process) : Prop :=
  ∃ (before after : List Event) (t : Session),
    events = before ++ .install .succeeds .succeeds :: after ∧
      run next start before = some t ∧ t.process.poolSignalHandlerInstalled = false ∧
      p.previousSigsegv = t.process.dispositions sigsegv ∧
      p.previousSigbus = t.process.dispositions sigbus

structure Sound (start : Session) (events : List Event) (s : Session) : Prop where
  idle : s.process.readActive = 0
  saved : s.process.poolSignalHandlerInstalled = true → SavedAtInstall start events s.process
  own : s.process.poolSignalHandlerInstalled = false →
    ∀ signal, (s.process.dispositions signal).Own
  observed_own : s.process.poolSignalHandlerInstalled = false → ∀ action ∈ s.observed, action.Own
  previous_own : s.process.previousSigsegv.Own ∧ s.process.previousSigbus.Own

/-- The two processes have the same flag and the same saved actions. -/
structure KeepsSaved (p q : Process) : Prop where
  readActive : q.readActive = p.readActive
  installed : q.poolSignalHandlerInstalled = p.poolSignalHandlerInstalled
  previousSigsegv : q.previousSigsegv = p.previousSigsegv
  previousSigbus : q.previousSigbus = p.previousSigbus

theorem KeepsSaved.refl : KeepsSaved p p := ⟨rfl, rfl, rfl, rfl⟩

theorem KeepsSaved.setDisposition {signal : SignalNumber} {action : SigAction} :
    KeepsSaved p (p.setDisposition signal action) :=
  ⟨rfl, rfl, rfl, rfl⟩

theorem Untraced.keepsSaved (h : Untraced p q) : KeepsSaved p q := by
  rw [h]
  exact ⟨rfl, rfl, rfl, rfl⟩

theorem Untraced.dispositions_eq (h : Untraced p q) : q.dispositions = p.dispositions := by
  rw [h]

variable {start s t u : Session} {events : List Event} {e : Event}

/-- A later event that saves nothing does not change when the saved actions were in force. -/
theorem SavedAtInstall.concat (h : SavedAtInstall start events p) (hkeeps : KeepsSaved p q) :
    SavedAtInstall start (events ++ [e]) q := by
  obtain ⟨before, after, t, rfl, hrun, hflag, hsegv, hbus⟩ := h
  refine ⟨before, after ++ [e], t, by simp, hrun, hflag, ?_, ?_⟩
  · rw [hkeeps.previousSigsegv, hsegv]
  · rw [hkeeps.previousSigbus, hbus]

/-- An event that saves nothing keeps the invariant if the program cannot get at the overflow
handler by it. -/
theorem Sound.of_keepsSaved (h : Sound start events t) (hkeeps : KeepsSaved t.process u.process)
    (hown : t.process.poolSignalHandlerInstalled = false →
      ∀ signal, (u.process.dispositions signal).Own)
    (hobserved : t.process.poolSignalHandlerInstalled = false → ∀ action ∈ u.observed, action.Own) :
    Sound start (events ++ [e]) u where
  idle := by rw [hkeeps.readActive, h.idle]
  saved hflag := (h.saved (hkeeps.installed ▸ hflag)).concat hkeeps
  own hflag := hown (hkeeps.installed ▸ hflag)
  observed_own hflag := hobserved (hkeeps.installed ▸ hflag)
  previous_own := by
    rw [hkeeps.previousSigsegv, hkeeps.previousSigbus]
    exact h.previous_own

/-- The program replaces an action by one that is its own as long as the flag is down. -/
theorem Sound.replace {signal : SignalNumber} {action : SigAction} (h : Sound start events t)
    (haction : t.process.poolSignalHandlerInstalled = false → action.Own) :
    Sound start (events ++ [e]) (t.replace signal action) := by
  refine h.of_keepsSaved .setDisposition (fun hflag other => ?_) fun hflag seen hseen => ?_
  · simp only [Session.replace]
    rcases eq_or_ne other signal with rfl | hne
    · rw [Process.setDisposition_dispositions_self]
      exact haction hflag
    · rw [Process.setDisposition_dispositions_of_ne hne]
      exact h.own hflag other
  · rcases List.mem_append.mp hseen with hseen | hseen
    · exact h.observed_own hflag seen hseen
    · rw [List.mem_singleton.mp hseen]
      exact h.own hflag signal

theorem Sound.install (h : Sound start events t) (hrun : run next start events = some t) :
    Sound start (events ++ [.install segv bus])
      { t with process := installPoolOverflowSignalHandler segv bus t.process } := by
  cases hflag : t.process.poolSignalHandlerInstalled with
  | true =>
    rw [install_of_installed hflag]
    exact h.of_keepsSaved .refl h.own h.observed_own
  | false =>
    have hown := h.own hflag
    by_cases hsucceeds : segv = .succeeds ∧ bus = .succeeds
    · obtain ⟨rfl, rfl⟩ := hsucceeds
      rw [install_succeeds hflag]
      exact {
        idle := h.idle
        saved := fun _ => ⟨events, [], t, rfl, hrun, hflag, rfl, rfl⟩
        own := fun hinstalled => Bool.noConfusion hinstalled
        observed_own := fun hinstalled => Bool.noConfusion hinstalled
        previous_own := ⟨hown sigsegv, hown sigbus⟩ }
    · obtain ⟨errno, previous, hprevious, heq⟩ := install_fails hflag hsucceeds
      rw [heq]
      refine {
        idle := h.idle
        saved := fun hinstalled => absurd (hflag.symm.trans hinstalled) Bool.false_ne_true
        own := fun _ => hown
        observed_own := fun _ => h.observed_own hflag
        previous_own := ⟨?_, h.previous_own.2⟩ }
      rcases hprevious with rfl | rfl
      · exact h.previous_own.1
      · exact hown sigsegv

/-- Every event keeps the invariant. -/
theorem Sound.step (h : Sound start events t) (hrun : run next start events = some t)
    (hnext : next t e = some u) : Sound start (events ++ [e]) u := by
  cases e with
  | install segv bus =>
    obtain rfl := Option.some.inj hnext
    exact h.install hrun
  | safeRead call =>
    obtain ⟨result, q, hread, hq, -⟩ := safeReadUint8_spec call h.idle
    simp only [next, hread] at hnext
    obtain rfl := Option.some.inj hnext
    refine h.of_keepsSaved hq.keepsSaved (fun hflag signal => ?_) h.observed_own
    simp only [hq.dispositions_eq]
    exact h.own hflag signal
  | user signal action =>
    obtain rfl := Option.some.inj hnext
    exact h.replace fun _ => action.property
  | observe signal =>
    obtain rfl := Option.some.inj hnext
    refine h.of_keepsSaved .refl h.own fun hflag seen hseen => ?_
    rcases List.mem_append.mp hseen with hseen | hseen
    · exact h.observed_own hflag seen hseen
    · rw [List.mem_singleton.mp hseen]
      exact h.own hflag signal
  | putBack signal k =>
    obtain ⟨action, hk, rfl⟩ := Option.map_eq_some_iff.mp hnext
    exact h.replace fun hflag => h.observed_own hflag action (List.mem_of_getElem? hk)

variable {memory : UIntPtr → Cell} {dispositions : SignalNumber → OwnAction}
  {mask : Finset SignalNumber} {errno : ℤ} {registry : List PoolRegistryEntry}

theorem sound_start :
    Sound (.start memory dispositions mask errno registry) []
      (.start memory dispositions mask errno registry) where
  idle := rfl
  saved hinstalled := Bool.noConfusion hinstalled
  own _ signal := (dispositions signal).property
  observed_own _ _ haction := absurd haction List.not_mem_nil
  previous_own := ⟨SigAction.zero_own, SigAction.zero_own⟩

theorem sound_of_run
    (hrun : run next (.start memory dispositions mask errno registry) events = some s) :
    Sound (.start memory dispositions mask errno registry) events s :=
  history_invariant sound_start (fun _ _ _ _ h hrun hnext => h.step hrun hnext) hrun

/-- The process outlives every history: an event is refused only if it puts back what was not
seen. -/
theorem next_isSome
    (hrun : run next (.start memory dispositions mask errno registry) events = some s)
    (hseen : ∀ signal k, e = .putBack signal k → k < s.observed.length) : (next s e).isSome := by
  cases e with
  | safeRead call =>
    obtain ⟨result, q, hread, -⟩ := safeReadUint8_spec call (sound_of_run hrun).idle
    simp only [next, hread, Option.isSome_some]
  | putBack signal k =>
    simp only [next, List.getElem?_eq_getElem (hseen signal k rfl), Option.map_some,
      Option.isSome_some]
  | install segv bus => rfl
  | user signal action => rfl
  | observe signal => rfl

/-! ## Faults outside the guards -/

/-- `info` points at no address of a registered guard. -/
def OutsideGuards (registry : List PoolRegistryEntry) (info : Option UIntPtr) : Prop :=
  ∀ address, info = some address → ∀ entry ∈ registry,
    entry.guardBegin ≠ 0 → ¬ (entry.guardBegin ≤ address ∧ address < entry.guardEnd)

/-- The process ends, or a handler other than the overflow handler goes on. -/
def Ending.PassesOn : Ending → Prop
  | .siglongjmp => False
  | .exit _ => True
  | .raise _ _ => True
  | .call function _ _ => function ≠ .poolSignalHandler
  | .killed _ => True
  | .left _ => True

theorem findPoolIndexFrom_of_outsideGuards {address : UIntPtr}
    (h : OutsideGuards registry (some address)) (index : ℤ) :
    findPoolIndexFrom address index registry = -1 := by
  induction registry generalizing index with
  | nil => rfl
  | cons entry rest ih =>
    have hrest : OutsideGuards rest (some address) :=
      fun other hother guard hguard => h other hother guard (List.mem_cons_of_mem _ hguard)
    simp only [findPoolIndexFrom]
    split
    · exact ih hrest _
    · rename_i hbegin
      rw [if_neg (h address rfl entry List.mem_cons_self hbegin), ih hrest]

theorem poolSignalHandler_of_outsideGuards {signal : SignalNumber} {info : Option UIntPtr}
    (h : OutsideGuards p.poolRegistry info) :
    poolSignalHandler signal info p = callPreviousSignalHandler signal p := by
  have hindex : info.elim (-1) (findPoolIndex p.poolRegistry) = -1 := by
    cases info with
    | none => rfl
    | some address => exact findPoolIndexFrom_of_outsideGuards h 0
  simp only [poolSignalHandler, hindex]
  rfl

theorem previousSignalAction_own {signal : SignalNumber} {action : SigAction}
    (hsegv : p.previousSigsegv.Own) (hbus : p.previousSigbus.Own)
    (h : previousSignalAction p signal = some action) : action.Own := by
  simp only [previousSignalAction] at h
  split at h
  · exact Option.some.inj h ▸ hsegv
  · split at h
    · exact Option.some.inj h ▸ hbus
    · cases h

/-- With saved actions that are the program's own, no fault comes back to the handler. -/
theorem callPreviousSignalHandler_passesOn {signal : SignalNumber}
    (hsegv : p.previousSigsegv.Own) (hbus : p.previousSigbus.Own) :
    (callPreviousSignalHandler signal p).1.PassesOn := by
  simp only [callPreviousSignalHandler]
  cases hprevious : previousSignalAction p signal with
  | none => trivial
  | some previous =>
    have hown := previousSignalAction_own hsegv hbus hprevious
    cases hhandler : previous.handler with
    | sigDfl => simp only [hhandler, raiseWithDefaultAction, Ending.PassesOn]
    | sigIgn => simp only [hhandler, Ending.PassesOn]
    | function f =>
      simp only [hhandler, Ending.PassesOn]
      rintro rfl
      exact hown.2 hhandler

/-- **The overflow handler never delegates to itself.** After any history, if the flag is up then
the saved actions are those that were in force when an installation succeeded, and neither is the
overflow handler; if it is down then no disposition is. A fault outside the guards that are
registered by then ends the process or goes to another handler. -/
theorem overflow_handler_never_delegates_to_itself
    (memory : UIntPtr → Cell) (dispositions : SignalNumber → OwnAction)
    (mask : Finset SignalNumber) (errno : ℤ) (registry : List PoolRegistryEntry)
    (events : List Event) (s : Session)
    (hrun : run next (.start memory dispositions mask errno registry) events = some s) :
    (s.process.poolSignalHandlerInstalled = true →
      SavedAtInstall (.start memory dispositions mask errno registry) events s.process ∧
        s.process.previousSigsegv.handler ≠ .function .poolSignalHandler ∧
        s.process.previousSigbus.handler ≠ .function .poolSignalHandler) ∧
    (s.process.poolSignalHandlerInstalled = false →
      ∀ signal, (s.process.dispositions signal).handler ≠ .function .poolSignalHandler) ∧
    ∀ guards signal info, OutsideGuards guards info →
      (poolSignalHandler signal info { s.process with poolRegistry := guards }).1.PassesOn := by
  have hsound := sound_of_run hrun
  obtain ⟨hsegv, hbus⟩ := hsound.previous_own
  refine ⟨fun hflag => ⟨hsound.saved hflag, hsegv.2, hbus.2⟩, fun hflag signal =>
    (hsound.own hflag signal).2, fun guards signal info hinfo => ?_⟩
  rw [poolSignalHandler_of_outsideGuards hinfo]
  exact callPreviousSignalHandler_passesOn hsegv hbus

/-- A process with a handler of its own for `SIGSEGV`. -/
def ownHandlerStart : Session :=
  .start (fun _ => .segv)
    (fun signal =>
      if signal = sigsegv then ⟨⟨.function (.user 1), ∅, saSiginfo⟩, by decide⟩
      else ⟨.zero, by decide⟩)
    ∅ 0 []

/-- An installation that is undone, a guarded read that faults, an installation that succeeds, and
a program that takes the overflow handler out and puts it back before it installs once more. -/
def busyHistory : List Event :=
  [.install .succeeds (.fails 22), .observe sigsegv, .safeRead ⟨0, .succeeds, .succeeds⟩,
    .install .succeeds .succeeds, .user sigsegv ⟨⟨.sigIgn, ∅, 0⟩, by decide⟩, .putBack sigsegv 1,
    .install .succeeds .succeeds]

theorem overflow_handler_never_delegates_to_itself_busyHistory :
    ∃ s, run next ownHandlerStart busyHistory = some s ∧
      s.process.poolSignalHandlerInstalled = true ∧
      (s.process.dispositions sigsegv).handler = .function .poolSignalHandler ∧
      SavedAtInstall ownHandlerStart busyHistory s.process ∧
      s.process.previousSigsegv.handler ≠ .function .poolSignalHandler ∧
      (poolSignalHandler sigsegv (some 0) { s.process with poolRegistry := [] }).1.PassesOn := by
  have hfacts : (run next ownHandlerStart busyHistory).map (fun s =>
      (s.process.poolSignalHandlerInstalled, (s.process.dispositions sigsegv).handler)) =
        some (true, .function .poolSignalHandler) := by
    rfl
  obtain ⟨s, hrun, hs⟩ := Option.map_eq_some_iff.mp hfacts
  obtain ⟨hflag, hhandler⟩ := Prod.mk.inj hs
  obtain ⟨hsaved, -, hfault⟩ :=
    overflow_handler_never_delegates_to_itself _ _ _ _ _ busyHistory s hrun
  obtain ⟨hsavedAt, hsegv, -⟩ := hsaved hflag
  refine ⟨s, hrun, hflag, hhandler, hsavedAt, hsegv, hfault [] sigsegv (some 0) ?_⟩
  exact fun address _ entry hentry => absurd hentry List.not_mem_nil

end Doost.Signals
