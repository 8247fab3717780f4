import Mathlib.Data.Finset.Basic
import Mathlib.Logic.Function.Basic
import Doost.Pools.Storage

/-!
# Signals of a process

What `safe_read_uint8` and the overflow handler read and change of their process: memory that a
load reads or faults on, the dispositions of the signals, the signal mask, `errno`, the jump
buffer, and the variables that the two files keep for themselves.

`Process.sigaction` is the system call that installs an action and hands back the one in force; the
caller says what the system answers. `Process.setDisposition` is the call that puts an action back,
which succeeds. An action of the program that uses the library (`OwnAction`) names none of the
library's own handlers, since these are in anonymous namespaces.
-/

namespace Doost.Signals

open Pools (UIntPtr PoolRegistryEntry)

abbrev SignalNumber := ℕ

/-- `SIGSEGV`, with its number on Linux. -/
def sigsegv : SignalNumber := 11

/-- `SIGBUS`, with its number on Linux. -/
def sigbus : SignalNumber := 7

theorem sigbus_ne_sigsegv : sigbus ≠ sigsegv := by decide

/-! ## Actions -/

/-- A function that an action can hold. -/
inductive HandlerFunction
  | safeReadSignalHandler
  | poolSignalHandler
  /-- A function of the program that uses the library. -/
  | user (id : ℕ)
  deriving DecidableEq, Repr

/-- `sa_handler` and `sa_sigaction`, which share their storage. -/
inductive Handler
  | sigDfl
  | sigIgn
  | function (f : HandlerFunction)
  deriving DecidableEq, Repr

/-- `struct sigaction`. -/
structure SigAction where
  handler : Handler
  mask : Finset SignalNumber
  flags : BitVec 32
  deriving DecidableEq

/-- `SA_SIGINFO`. -/
def saSiginfo : BitVec 32 := 0x4

/-- `SA_NODEFER`. -/
def saNodefer : BitVec 32 := 0x40000000

/-- A value-initialised `struct sigaction`: the handler is `SIG_DFL`. -/
def SigAction.zero : SigAction := ⟨.sigDfl, ∅, 0⟩

/-- The action holds no handler of the library. -/
def SigAction.Own (action : SigAction) : Prop :=
  action.handler ≠ .function .safeReadSignalHandler ∧ action.handler ≠ .function .poolSignalHandler

instance (action : SigAction) : Decidable action.Own :=
  inferInstanceAs (Decidable (_ ∧ _))

theorem SigAction.zero_own : SigAction.zero.Own := by decide

/-- An action that the program can write down itself. -/
abbrev OwnAction := { action : SigAction // action.Own }

/-! ## The process -/

/-- What a load of one address does. -/
inductive Cell
  | byte (value : BitVec 8)
  /-- The load faults with `SIGSEGV`. -/
  | segv
  /-- The load faults with `SIGBUS`. -/
  | bus
  deriving DecidableEq, Repr

/-- The byte that is read, or the signal of the fault. -/
def Cell.load : Cell → Except SignalNumber (BitVec 8)
  | .byte value => .ok value
  | .segv => .error sigsegv
  | .bus => .error sigbus

structure Process where
  memory : UIntPtr → Cell
  dispositions : SignalNumber → SigAction
  mask : Finset SignalNumber
  errno : ℤ
  /-- `g_read_active`. -/
  readActive : ℤ
  /-- The signal mask in `g_read_jump_buffer`. -/
  readJumpBuffer : Finset SignalNumber
  /-- `g_pool_registry`. -/
  poolRegistry : List PoolRegistryEntry
  /-- `g_pool_signal_handler_installed`. -/
  poolSignalHandlerInstalled : Bool
  /-- `g_previous_sigsegv`. -/
  previousSigsegv : SigAction
  /-- `g_previous_sigbus`. -/
  previousSigbus : SigAction
  /-- What has been written to `STDERR_FILENO`. -/
  stderr : String

/-- A process whose static variables have their initial values. -/
def Process.start (memory : UIntPtr → Cell) (dispositions : SignalNumber → OwnAction)
    (mask : Finset SignalNumber) (errno : ℤ) (poolRegistry : List PoolRegistryEntry) : Process where
  memory := memory
  dispositions signal := (dispositions signal).val
  mask := mask
  errno := errno
  readActive := 0
  readJumpBuffer := ∅
  poolRegistry := poolRegistry
  poolSignalHandlerInstalled := false
  previousSigsegv := .zero
  previousSigbus := .zero
  stderr := ""

/-! ## System calls -/

/-- What the system answers when an action is to be installed. -/
inductive Answer
  | succeeds
  | fails (errno : ℤ)
  deriving DecidableEq, Repr

variable {p : Process} {signal other : SignalNumber} {action : SigAction}

/-- `g_read_active = value`. -/
def Process.setReadActive (p : Process) (value : ℤ) : Process :=
  { p with readActive := value }

/-- `g_pool_signal_handler_installed = value`. -/
def Process.setInstalled (p : Process) (value : Bool) : Process :=
  { p with poolSignalHandlerInstalled := value }

/-- `errno = value`. -/
def Process.setErrno (p : Process) (value : ℤ) : Process :=
  { p with errno := value }

/-- `sigaction(signal, &action, nullptr)`, which succeeds. -/
def Process.setDisposition (p : Process) (signal : SignalNumber) (action : SigAction) : Process :=
  { p with dispositions := Function.update p.dispositions signal action }

/-- `sigaction(signal, &action, &previous)`: what is stored in `previous` when the call returns 0,
and `none` when it returns -1. -/
def Process.sigaction (p : Process) (signal : SignalNumber) (action : SigAction) :
    Answer → Option SigAction × Process
  | .succeeds => (some (p.dispositions signal), p.setDisposition signal action)
  | .fails errno => (none, p.setErrno errno)

/-- `sigsetjmp(g_read_jump_buffer, 1)` when it returns 0. -/
def Process.sigsetjmp (p : Process) : Process :=
  { p with readJumpBuffer := p.mask }

/-- `sigsetjmp(g_read_jump_buffer, 1)` when it returns a second time, after `siglongjmp`. -/
def Process.siglongjmp (p : Process) : Process :=
  { p with mask := p.readJumpBuffer }

@[simp]
theorem Process.setDisposition_dispositions_self :
    (p.setDisposition signal action).dispositions signal = action :=
  Function.update_self ..

theorem Process.setDisposition_dispositions_of_ne (h : other ≠ signal) :
    (p.setDisposition signal action).dispositions other = p.dispositions other :=
  Function.update_of_ne h ..

variable {action' : SigAction}

/-- An action that replaces another is all that is left of the two. -/
theorem Process.setDisposition_idem :
    (p.setDisposition signal action).setDisposition signal action' =
      p.setDisposition signal action' := by
  simp only [Process.setDisposition, Function.update_idem]

/-- Putting back the action in force changes nothing. -/
theorem Process.setDisposition_eq_self :
    p.setDisposition signal (p.dispositions signal) = p := by
  simp only [Process.setDisposition, Function.update_eq_self]

theorem Process.setInstalled_eq_self {value : Bool} (h : p.poolSignalHandlerInstalled = value) :
    p.setInstalled value = p := by
  rw [Process.setInstalled, ← h]

end Doost.Signals
