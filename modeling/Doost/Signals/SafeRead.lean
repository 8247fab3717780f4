import Mathlib.Data.List.Forall2
import Doost.Signals.Handlers

/-!
# A guarded read of one byte

`safeReadUint8` installs its handler for `SIGSEGV` and `SIGBUS`, reads the byte between
`sigsetjmp` and the end of the read, and puts the previous actions back. It leaves by a plain
return, after either `sigaction` has failed, or by a jump out of the handler.

Each way out is one equation: a call whose handlers are not both installed gives `nullopt` in the
process it found (`safeReadUint8_of_not_installs`), any other gives what the load of the address
gives and leaves all but its own jump buffer as it was (`safeReadUint8_of_installs`). A sequence of
calls therefore answers from the memory at its beginning (`safe_reads_exact`).
-/

namespace Doost.Signals

open Pools (UIntPtr)

/-! ## The source -/

/-- The action that `TemporarySignalHandlers` installs. -/
def safeReadAction : SigAction where
  handler := .function .safeReadSignalHandler
  mask := {sigsegv, sigbus}
  flags := saSiginfo

structure TemporarySignalHandlers where
  previousSegv : SigAction
  previousBus : SigAction

/-- `install()`, with the answers to its two calls of `sigaction`; `none` when it returns false. -/
def TemporarySignalHandlers.install (segv bus : Answer) (p : Process) :
    Option TemporarySignalHandlers × Process :=
  match p.sigaction sigsegv safeReadAction segv with
  | (none, p) => (none, p)
  | (some previousSegv, p) =>
    match p.sigaction sigbus safeReadAction bus with
    | (none, p) => (none, p.setDisposition sigsegv previousSegv)
    | (some previousBus, p) => (some ⟨previousSegv, previousBus⟩, p)

def TemporarySignalHandlers.restore (handlers : TemporarySignalHandlers) (p : Process) : Process :=
  let p := p.setDisposition sigbus handlers.previousBus
  p.setDisposition sigsegv handlers.previousSegv

/-- The conditional on `sigsetjmp`: the read, and the branch that a fault jumps to. The process may
also end in a handler. -/
def guardedRead (address : UIntPtr) (p : Process) :
    Except (Ending × Process) (Option (BitVec 8) × Process) :=
  let p := p.sigsetjmp
  let p := p.setReadActive 1
  match (p.memory address).load with
  | .ok value => .ok (some value, p.setReadActive 0)
  | .error signal =>
    match p.deliver signal address with
    | (.siglongjmp, p) => .ok (none, p.siglongjmp.setReadActive 0)
    | (ending, p) => .error (ending, p)

def safeReadUint8 (address : UIntPtr) (segv bus : Answer) (p : Process) :
    Except (Ending × Process) (Option (BitVec 8) × Process) :=
  let savedErrno := p.errno
  match TemporarySignalHandlers.install segv bus p with
  | (none, p) => .ok (none, p.setErrno savedErrno)
  | (some handlers, p) =>
    match guardedRead address p with
    | .error ended => .error ended
    | .ok (result, p) => .ok (result, (handlers.restore p).setErrno savedErrno)

/-! ## The handlers of one read -/

variable {p : Process} {address : UIntPtr} {segv bus : Answer}

/-- The process while the temporary handlers are in place. -/
def Process.guarded (p : Process) : Process :=
  (p.setDisposition sigsegv safeReadAction).setDisposition sigbus safeReadAction

theorem Process.guarded_dispositions_sigsegv : p.guarded.dispositions sigsegv = safeReadAction :=
  (Process.setDisposition_dispositions_of_ne sigbus_ne_sigsegv.symm).trans
    Process.setDisposition_dispositions_self

theorem Process.guarded_dispositions_sigbus : p.guarded.dispositions sigbus = safeReadAction :=
  Process.setDisposition_dispositions_self

theorem TemporarySignalHandlers.install_segv_fails (errno : ℤ) :
    TemporarySignalHandlers.install (.fails errno) bus p = (none, p.setErrno errno) :=
  rfl

theorem TemporarySignalHandlers.install_bus_fails (errno : ℤ) :
    TemporarySignalHandlers.install .succeeds (.fails errno) p = (none, p.setErrno errno) := by
  have hback : (p.setDisposition sigsegv safeReadAction).setDisposition sigsegv
      (p.dispositions sigsegv) = p := by
    rw [Process.setDisposition_idem, Process.setDisposition_eq_self]
  simp only [TemporarySignalHandlers.install, Process.sigaction]
  exact congrArg (fun q : Process => (none, q.setErrno errno)) hback

theorem TemporarySignalHandlers.install_succeeds :
    TemporarySignalHandlers.install .succeeds .succeeds p =
      (some ⟨p.dispositions sigsegv, p.dispositions sigbus⟩, p.guarded) := by
  simp only [TemporarySignalHandlers.install, Process.sigaction, Process.guarded,
    Process.setDisposition_dispositions_of_ne sigbus_ne_sigsegv]

/-- Putting back the actions that were in force undoes the installation. -/
theorem TemporarySignalHandlers.restore_install :
    TemporarySignalHandlers.restore ⟨p.dispositions sigsegv, p.dispositions sigbus⟩ p.guarded =
      p := by
  have hbus : p.dispositions sigbus =
      (p.setDisposition sigsegv safeReadAction).dispositions sigbus :=
    (Process.setDisposition_dispositions_of_ne sigbus_ne_sigsegv).symm
  simp only [TemporarySignalHandlers.restore, Process.guarded]
  rw [Process.setDisposition_idem, hbus, Process.setDisposition_eq_self,
    Process.setDisposition_idem, Process.setDisposition_eq_self]

/-! ## The read -/

/-- The handler of an active read jumps, whatever mask it runs under. -/
theorem Process.deliver_of_safeReadAction {signal : SignalNumber}
    (haction : p.dispositions signal = safeReadAction) (hactive : p.readActive ≠ 0) :
    p.deliver signal address =
      (.siglongjmp, { p with mask := safeReadAction.maskDuring p.mask signal }) := by
  simp only [Process.deliver, haction, safeReadAction, safeReadSignalHandler, if_pos hactive]

/-- A fault of the read comes back to `sigsetjmp`, with the mask of before. -/
theorem guardedRead_of_error {signal : SignalNumber}
    (hload : (p.memory address).load = .error signal)
    (haction : p.dispositions signal = safeReadAction) :
    guardedRead address p = .ok (none, p.sigsetjmp.setReadActive 0) := by
  have hload' : ((p.sigsetjmp.setReadActive 1).memory address).load = .error signal := hload
  have hdeliver : (p.sigsetjmp.setReadActive 1).deliver signal address =
      (.siglongjmp, { p.sigsetjmp.setReadActive 1 with
        mask := safeReadAction.maskDuring p.mask signal }) :=
    Process.deliver_of_safeReadAction haction one_ne_zero
  simp only [guardedRead, hload', hdeliver]
  rfl

theorem guardedRead_of_ok {value : BitVec 8} (hload : (p.memory address).load = .ok value) :
    guardedRead address p = .ok (some value, p.sigsetjmp.setReadActive 0) := by
  have hload' : ((p.sigsetjmp.setReadActive 1).memory address).load = .ok value := hload
  simp only [guardedRead, hload']
  rfl

/-- With the handlers in place the read gives what the load gives. -/
theorem guardedRead_guarded :
    guardedRead address p.guarded =
      .ok ((p.memory address).load.toOption, p.guarded.sigsetjmp.setReadActive 0) := by
  have hmemory : p.guarded.memory = p.memory := rfl
  rw [← hmemory]
  cases hload : (p.guarded.memory address).load with
  | ok value => exact guardedRead_of_ok hload
  | error signal =>
    refine guardedRead_of_error hload ?_
    -- a load faults with one of the two signals
    cases hcell : p.guarded.memory address with
    | byte value =>
      rw [hcell] at hload
      cases hload
    | segv =>
      rw [hcell] at hload
      cases hload
      exact Process.guarded_dispositions_sigsegv
    | bus =>
      rw [hcell] at hload
      cases hload
      exact Process.guarded_dispositions_sigbus

/-! ## One call -/

/-- A call whose handlers are not both installed reads nothing and undoes what it did. -/
theorem safeReadUint8_of_not_installs (h : ¬ (segv = .succeeds ∧ bus = .succeeds)) :
    safeReadUint8 address segv bus p = .ok (none, p) := by
  cases segv with
  | fails errno => rfl
  | succeeds =>
    cases bus with
    | fails errno =>
      simp only [safeReadUint8, TemporarySignalHandlers.install_bus_fails]
      rfl
    | succeeds => exact absurd ⟨rfl, rfl⟩ h

/-- A call with its handlers gives what the load gives, and of the process changes only the jump
buffer. -/
theorem safeReadUint8_of_installs (hidle : p.readActive = 0) :
    safeReadUint8 address .succeeds .succeeds p =
      .ok ((p.memory address).load.toOption, p.sigsetjmp) := by
  have hrestore : TemporarySignalHandlers.restore
      ⟨p.dispositions sigsegv, p.dispositions sigbus⟩ (p.guarded.sigsetjmp.setReadActive 0) =
        p.sigsetjmp.setReadActive 0 :=
    congrArg (fun q : Process => q.sigsetjmp.setReadActive 0)
      TemporarySignalHandlers.restore_install
  simp only [safeReadUint8, TemporarySignalHandlers.install_succeeds, guardedRead_guarded,
    hrestore]
  rw [← hidle]
  rfl

/-! ## Sequences of calls -/

/-- A call of `safe_read_uint8` with what the system answers to its two installations. -/
structure ReadCall where
  address : UIntPtr
  segv : Answer
  bus : Answer

/-- Both handlers of the call are installed. -/
def ReadCall.Installs (call : ReadCall) : Prop :=
  call.segv = .succeeds ∧ call.bus = .succeeds

/-- Calls one after the other: the result of each, and the process when it has returned. -/
def safeReads : Process → List ReadCall →
    Except (Ending × Process) (List (Option (BitVec 8) × Process))
  | _, [] => .ok []
  | p, call :: calls =>
    match safeReadUint8 call.address call.segv call.bus p with
    | .error ended => .error ended
    | .ok (result, q) => (safeReads q calls).map ((result, q) :: ·)

/-- All but the jump buffer of the guarded reads is the same. -/
def Untraced (p q : Process) : Prop :=
  q = { p with readJumpBuffer := q.readJumpBuffer }

theorem Untraced.refl : Untraced p p := rfl

theorem Untraced.trans {q r : Process} (h : Untraced p q) (h' : Untraced q r) : Untraced p r := by
  rw [Untraced] at *
  rw [h', h]

theorem Untraced.sigsetjmp : Untraced p p.sigsetjmp := rfl

/-- One call returns, leaves no trace, and gives a byte just when it should. -/
theorem safeReadUint8_spec (call : ReadCall) (hidle : p.readActive = 0) :
    ∃ result q, safeReadUint8 call.address call.segv call.bus p = .ok (result, q) ∧
      Untraced p q ∧
      ∀ value, result = some value ↔ call.Installs ∧ p.memory call.address = .byte value := by
  obtain ⟨address, segv, bus⟩ := call
  by_cases hinstalls : segv = .succeeds ∧ bus = .succeeds
  · obtain ⟨rfl, rfl⟩ := hinstalls
    refine ⟨_, _, safeReadUint8_of_installs hidle, .sigsetjmp, fun value => ?_⟩
    cases p.memory address <;> simp [Cell.load, Except.toOption, ReadCall.Installs]
  · refine ⟨_, _, safeReadUint8_of_not_installs hinstalls, .refl, fun value => ?_⟩
    simp [ReadCall.Installs, hinstalls]

/-- What a call has to give in a process that started as `p`, and how it has to leave it. -/
structure Exact (p : Process) (call : ReadCall) (record : Option (BitVec 8) × Process) :
    Prop where
  result : ∀ value, record.1 = some value ↔
    call.Installs ∧ p.memory call.address = .byte value
  memory : record.2.memory = p.memory
  dispositions : record.2.dispositions = p.dispositions
  mask : record.2.mask = p.mask
  errno : record.2.errno = p.errno
  readActive : record.2.readActive = 0

/-- **Guarded reads are exact and leave no trace.** Every call of a sequence returns: the byte if
both handlers were installed and the address is readable in the memory of the beginning, `nullopt`
otherwise. After each call memory, dispositions, mask and `errno` are those of the beginning, and
no read is active. -/
theorem safe_reads_exact (p : Process) (calls : List ReadCall) (hidle : p.readActive = 0) :
    ∃ records, safeReads p calls = .ok records ∧ List.Forall₂ (Exact p) calls records := by
  have hall : ∀ q, Untraced p q →
      ∃ records, safeReads q calls = .ok records ∧ List.Forall₂ (Exact p) calls records := by
    induction calls with
    | nil => exact fun q _ => ⟨[], rfl, .nil⟩
    | cons call calls ih =>
      intro q hq
      have hq' : q.readActive = 0 := by rw [hq]; exact hidle
      obtain ⟨result, r, hread, hr, hresult⟩ := safeReadUint8_spec call hq'
      obtain ⟨records, hreads, hrecords⟩ := ih r (hq.trans hr)
      refine ⟨(result, r) :: records, ?_, .cons ?_ hrecords⟩
      · simp only [safeReads, hread, hreads]
        rfl
      · have hpr := hq.trans hr
        have hmemory : q.memory = p.memory := by rw [hq]
        refine ⟨fun value => by rw [← hmemory]; exact hresult value, ?_, ?_, ?_, ?_, ?_⟩
        all_goals rw [hpr]
        exact hidle
  exact hall p .refl

/-- A process with the overflow handler for `SIGSEGV` and a handler of its own for `SIGBUS`. The
address `0x1000` can be read, `0x2000` faults with `SIGBUS`, and all else with `SIGSEGV`. -/
def handledProcess : Process where
  memory address :=
    if address = 0x1000 then .byte 0x5a else if address = 0x2000 then .bus else .segv
  dispositions signal :=
    if signal = sigsegv then ⟨.function .poolSignalHandler, ∅, saSiginfo ||| saNodefer⟩
    else ⟨.function (.user signal), ∅, 0⟩
  mask := {2}
  errno := 34
  readActive := 0
  readJumpBuffer := ∅
  poolRegistry := []
  poolSignalHandlerInstalled := true
  previousSigsegv := .zero
  previousSigbus := .zero
  stderr := ""

/-- Reads that fault in both ways, whose installations fail in both ways, and that succeed. -/
def mixedCalls : List ReadCall :=
  [⟨0, .succeeds, .succeeds⟩, ⟨0x1000, .succeeds, .succeeds⟩, ⟨0x1000, .fails 22, .succeeds⟩,
    ⟨0x2000, .succeeds, .succeeds⟩, ⟨0x1000, .succeeds, .fails 22⟩, ⟨0x1000, .succeeds, .succeeds⟩]

theorem safe_reads_exact_mixedCalls :
    ∃ records, safeReads handledProcess mixedCalls = .ok records ∧
      records.map Prod.fst = [none, some 0x5a, none, none, none, some 0x5a] ∧
      List.Forall₂ (Exact handledProcess) mixedCalls records := by
  have hresults : (safeReads handledProcess mixedCalls).map (·.map Prod.fst) =
      .ok [none, some 0x5a, none, none, none, some 0x5a] := by
    rfl
  obtain ⟨records, hreads, hexact⟩ := safe_reads_exact handledProcess mixedCalls rfl
  rw [hreads] at hresults
  exact ⟨records, hreads, Except.ok.inj hresults, hexact⟩

end Doost.Signals
