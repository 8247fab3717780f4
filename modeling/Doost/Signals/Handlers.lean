import Doost.Signals.Process

/-!
# The handlers of the library

`safeReadSignalHandler` jumps out of a guarded read. `poolSignalHandler` reports a fault inside the
guard of a registered pool and passes every other fault to the action that was in force before it
was installed (`callPreviousSignalHandler`). Neither returns to the faulting instruction: how each
gives up control is an `Ending`.

`Process.deliver` is the fault itself: the mask of the handler is set up and the installed handler
runs. POSIX does not say what happens when the signal of the fault is blocked; here the handler runs
then as well (`Process.fault` has what Linux does). What a handler outside the library does is not
followed.
-/

namespace Doost.Signals

open Pools (UIntPtr PoolRegistryEntry)

/-- How a signal handler gives up control. -/
inductive Ending
  /-- `siglongjmp(g_read_jump_buffer, 1)`. -/
  | siglongjmp
  /-- `_exit(status)`. -/
  | exit (status : ℕ)
  /-- The signal is raised under its default action; `_exit(status)` should the process survive. -/
  | raise (signal : SignalNumber) (status : ℕ)
  /-- `function` is called, with the `siginfo_t` if `siginfo`, and `_exit(status)` if it returns. -/
  | call (function : HandlerFunction) (siginfo : Bool) (status : ℕ)
  /-- The system ends the process by the default action of the signal. -/
  | killed (signal : SignalNumber)
  /-- A handler of the program that uses the library has taken over. -/
  | left (id : ℕ)
  deriving DecidableEq, Repr

/-! ## The handler of a guarded read -/

def safeReadSignalHandler (p : Process) (signalNumber : SignalNumber) : Ending :=
  if p.readActive ≠ 0 then .siglongjmp else .exit (128 + signalNumber)

/-! ## The overflow handler -/

def writeAll (text : String) (p : Process) : Process :=
  { p with stderr := p.stderr ++ text }

def signalName (signalNumber : SignalNumber) : String :=
  if signalNumber = sigsegv then "SIGSEGV"
  else if signalNumber = sigbus then "SIGBUS"
  else "signal"

/-- The digits that `write_size` puts into its buffer. -/
def sizeDigits (value : ℕ) : List Char :=
  let digit := Char.ofNat ('0'.toNat + value % 10)
  if value / 10 = 0 then [digit] else sizeDigits (value / 10) ++ [digit]
  termination_by value
  decreasing_by omega

def writeSize (value : ℕ) (p : Process) : Process :=
  { p with stderr := p.stderr ++ String.ofList (sizeDigits value) }

/-- The loop of `find_pool_index`, which has come to `index`. -/
def findPoolIndexFrom (address : UIntPtr) : ℤ → List PoolRegistryEntry → ℤ
  | _, [] => -1
  | index, entry :: rest =>
    if entry.guardBegin = 0 then findPoolIndexFrom address (index + 1) rest
    else if entry.guardBegin ≤ address ∧ address < entry.guardEnd then index
    else findPoolIndexFrom address (index + 1) rest

def findPoolIndex (registry : List PoolRegistryEntry) (faultAddress : UIntPtr) : ℤ :=
  findPoolIndexFrom faultAddress 0 registry

def previousSignalAction (p : Process) (signalNumber : SignalNumber) : Option SigAction :=
  if signalNumber = sigsegv then some p.previousSigsegv
  else if signalNumber = sigbus then some p.previousSigbus
  else none

def raiseWithDefaultAction (signalNumber : SignalNumber) (p : Process) : Ending × Process :=
  (.raise signalNumber (128 + signalNumber), p.setDisposition signalNumber ⟨.sigDfl, ∅, 0⟩)

def callPreviousSignalHandler (signalNumber : SignalNumber) (p : Process) : Ending × Process :=
  match previousSignalAction p signalNumber with
  | none => raiseWithDefaultAction signalNumber p
  | some previous =>
    match previous.handler with
    | .sigDfl => raiseWithDefaultAction signalNumber p
    | .sigIgn => (.exit (128 + signalNumber), p)
    | .function f => (.call f (previous.flags &&& saSiginfo ≠ 0) (128 + signalNumber), p)

/-- `info` is `si_addr`, `none` for a null `siginfo_t*`. -/
def poolSignalHandler (signalNumber : SignalNumber) (info : Option UIntPtr) (p : Process) :
    Ending × Process :=
  let poolIndex := info.elim (-1) (findPoolIndex p.poolRegistry)
  if poolIndex < 0 then callPreviousSignalHandler signalNumber p
  else
    let p := writeAll "doost: " p
    let p := writeAll (signalName signalNumber) p
    let p := writeAll " while accessing protected pool #" p
    let p := writeSize poolIndex.toNat p
    let p := writeAll "\n" p
    raiseWithDefaultAction signalNumber p

/-! ## Faults -/

/-- The mask under which the handler of `action` runs. -/
def SigAction.maskDuring (action : SigAction) (mask : Finset SignalNumber)
    (signal : SignalNumber) : Finset SignalNumber :=
  mask ∪ action.mask ∪ if action.flags &&& saNodefer = 0 then {signal} else ∅

/-- A load at `address` faults with `signal`. -/
def Process.deliver (p : Process) (signal : SignalNumber) (address : UIntPtr) :
    Ending × Process :=
  let action := p.dispositions signal
  let q := { p with mask := action.maskDuring p.mask signal }
  match action.handler with
  | .sigDfl => (.killed signal, p)
  -- a fault of the program itself cannot be ignored
  | .sigIgn => (.killed signal, p)
  | .function .safeReadSignalHandler => (safeReadSignalHandler q signal, q)
  | .function .poolSignalHandler => poolSignalHandler signal (some address) q
  | .function (.user id) => (.left id, q)

end Doost.Signals
