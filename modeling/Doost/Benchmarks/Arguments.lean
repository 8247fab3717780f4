import Doost.Foundations.Strtoull
import Doost.Lists.SharedPool

/-!
# The arguments of the benchmarks

The benchmarks take their sizes from the command line. The list benchmarks (`Options`) want whole
numerals that are not zero, the others (`parseCount`) whole numerals that fit an `unsigned`. Both
read with `strtoull`, which takes a number with a minus sign modulo `2 ^ 64`.

`run_benchmark` of the list benchmarks multiplies the sizes before it does anything, and reports
every exception in one way. `list_benchmark_exact` says for every command line when it succeeds and
which sizes it then works with.
-/

namespace Doost.Benchmarks

open Strtoull Pools Doost.Lists

/-! ## Outcomes -/

/-- What is written to `std::cerr`, and the result or the `what()` of the exception. -/
structure Outcome (α : Type) where
  cerr : String
  result : Except String α

namespace Outcome

variable {α β : Type}

def write (text : String) : Outcome Unit := ⟨text, .ok ()⟩

def throw (what : String) : Outcome α := ⟨"", .error what⟩

instance : Monad Outcome where
  pure a := ⟨"", .ok a⟩
  bind x f :=
    match x.result with
    | .error what => ⟨x.cerr, .error what⟩
    | .ok a => ⟨x.cerr ++ (f a).cerr, (f a).result⟩

/-- A call that may throw and does not write. -/
def call (result : Except String α) : Outcome α := ⟨"", result⟩

/-- After a part that has written nothing. -/
theorem ok_bind (a : α) (f : α → Outcome β) : (⟨"", .ok a⟩ : Outcome α) >>= f = f a := by
  change (⟨"" ++ (f a).cerr, (f a).result⟩ : Outcome β) = f a
  rw [String.empty_append]

theorem error_bind (cerr what : String) (f : α → Outcome β) :
    (⟨cerr, .error what⟩ : Outcome α) >>= f = ⟨cerr, .error what⟩ := rfl

theorem write_throw (text what : String) :
    (do write text; throw what : Outcome α) = ⟨text, .error what⟩ := by
  change (⟨text ++ "", .error what⟩ : Outcome α) = _
  rw [String.append_empty]

end Outcome

/-- `what()` of an exception, without the message that a `std::system_error` appends. -/
def what : PoolError → String
  | .lengthError text => text
  | .systemError _ text => text

/-! ## The list benchmarks -/

structure Options where
  nodeCount : SizeT
  threadCount : BitVec 32
deriving DecidableEq, Repr

def defaultNodeCount : SizeT := 10000000

def defaultThreadCount : BitVec 32 := 16

/-- `PoolStats`. -/
structure PoolStats where
  usableStorage : SizeT
  usedStorage : SizeT
deriving DecidableEq, Repr

def usage (program : String) : String := "Usage: " ++ program ++ " [node-count] [thread-count]\n"

/-- `parse_size`. -/
def parseSize (text name program : String) : Outcome SizeT :=
  let conversion := strtoull text.toList
  if conversion.outOfRange ∨ conversion.consumed = 0 ∨
      conversion.consumed ≠ text.toList.length ∨ BitVec.allOnes 64 < conversion.value then do
    Outcome.write (usage program)
    Outcome.throw (name ++ " must be a positive integer")
  else if conversion.value = 0 then Outcome.throw (name ++ " must be greater than zero")
  else pure conversion.value

/-- The part of `parse_options` for `argv[1]`. -/
def parseNodeCountOption (program : String) : Option String → Outcome SizeT
  | none => pure defaultNodeCount
  | some text => parseSize text "node-count" program

/-- The part of `parse_options` for `argv[2]`. -/
def parseThreadCountOption (program : String) : Option String → Outcome (BitVec 32)
  | none => pure defaultThreadCount
  | some text => do
    let threadCount ← parseSize text "thread-count" program
    if (BitVec.allOnes 32).setWidth 64 < threadCount then Outcome.throw "thread-count is too large"
    else pure (threadCount.setWidth 32)

/-- `parse_options`, with `argv[0]` and the other arguments. -/
def parseOptions (program : String) (arguments : List String) : Outcome Options :=
  if 2 < arguments.length then do
    Outcome.write (usage program)
    Outcome.throw "too many benchmark arguments"
  else do
    let nodeCount ← parseNodeCountOption program arguments[0]?
    let threadCount ← parseThreadCountOption program arguments[1]?
    return ⟨nodeCount, threadCount⟩

/-- What `run_benchmark` hands to `print_result`, the times left out. -/
structure Report where
  options : Options
  memoryUsed : BitVec 64
  nodeStorageRequired : SizeT
  poolStats : PoolStats
deriving DecidableEq, Repr

/-- The `try` block of `run_benchmark` up to `print_result`. `start` and `finish` are the two calls
of `get_usage`, the second with what `max_rss_bytes` makes of it. -/
def runWork (program : String) (arguments : List String) (layout : NodeLayout)
    (start : Except String Unit) (finish : Except String (BitVec 64))
    (work : Options → SizeT → Except String PoolStats) : Outcome Report := do
  let options ← parseOptions program arguments
  let nodeStorageRequired ← Outcome.call
    ((nodeStorageRequired layout options.nodeCount options.threadCount).mapError what)
  Outcome.call start
  let poolStats ← Outcome.call (work options nodeStorageRequired)
  let memoryUsed ← Outcome.call finish
  let directStorage :=
    if nodeStorageRequired < poolStats.usableStorage then poolStats.usableStorage
    else nodeStorageRequired
  let memoryUsed := if memoryUsed < directStorage then directStorage else memoryUsed
  return ⟨options, memoryUsed, nodeStorageRequired, poolStats⟩

/-- The exit status, what is written to `std::cerr`, and what is printed. -/
structure Exit where
  status : ℕ
  cerr : String
  report : Option Report
deriving DecidableEq, Repr

/-- `run_benchmark`. The total that `print_result` prints is computed once more. -/
def runBenchmark (program : String) (arguments : List String) (layout : NodeLayout)
    (start : Except String Unit) (finish : Except String (BitVec 64))
    (work : Options → SizeT → Except String PoolStats) : Exit :=
  let outcome : Outcome Report := do
    let report ← runWork program arguments layout start finish work
    let _ ← Outcome.call ((checkedMultiply report.options.nodeCount
      (report.options.threadCount.setWidth 64)).mapError what)
    return report
  match outcome.result with
  | .ok report => ⟨0, outcome.cerr, some report⟩
  | .error text => ⟨1, outcome.cerr ++ "Benchmark failed: " ++ text ++ "\n", none⟩

/-! ## The other benchmarks -/

/-- `parse_string_count` and `parse_node_count`: the error is what is written before
`std::exit(EXIT_FAILURE)`. -/
def parseCount (parameter : String) (defaultCount : BitVec 32) (program : String)
    (arguments : List String) : Except String (BitVec 32) :=
  match arguments with
  | [] => .ok defaultCount
  | text :: _ =>
    let conversion := strtoull text.toList
    if conversion.outOfRange ∨ conversion.consumed = 0 ∨
        text.toList.drop conversion.consumed ≠ [] ∨
        (BitVec.allOnes 32).setWidth 64 < conversion.value then
      .error ("Usage: " ++ program ++ " [" ++ parameter ++ "]\n")
    else .ok (conversion.value.setWidth 32)

/-- In the string benchmark. -/
def parseStringCount : String → List String → Except String (BitVec 32) :=
  parseCount "string-count" 5000

/-- In the benchmarks of one list. -/
def parseNodeCount : String → List String → Except String (BitVec 32) :=
  parseCount "node-count" 10000000

/-! ## What the arguments ask for -/

/-- An argument that is left out stands for `defaultValue`; another one is a numeral that is not
zero. -/
def Asks (argument : Option String) (defaultValue value : SizeT) : Prop :=
  match argument with
  | none => value = defaultValue
  | some text => IsNumeral text.toList [] value ∧ value ≠ 0

/-- The arguments ask for these options. -/
structure Options.Asked (arguments : List String) (options : Options) : Prop where
  length_le : arguments.length ≤ 2
  nodeCount : Asks arguments[0]? defaultNodeCount options.nodeCount
  threadCount : Asks arguments[1]? (defaultThreadCount.setWidth 64)
    (options.threadCount.setWidth 64)

/-- What is wrong with the arguments: whether the usage is written, and the exception. -/
inductive ArgumentError (arguments : List String) : Bool → String → Prop
  | tooMany (h : 2 < arguments.length) : ArgumentError arguments true "too many benchmark arguments"
  | nodeCountText {text : String} (h : arguments[0]? = some text)
      (hnone : ∀ value, ¬ IsNumeral text.toList [] value) :
      ArgumentError arguments true "node-count must be a positive integer"
  | nodeCountZero {text : String} (h : arguments[0]? = some text)
      (hzero : IsNumeral text.toList [] 0) :
      ArgumentError arguments false "node-count must be greater than zero"
  | threadCountText {text : String} (h : arguments[1]? = some text)
      (hnone : ∀ value, ¬ IsNumeral text.toList [] value) :
      ArgumentError arguments true "thread-count must be a positive integer"
  | threadCountZero {text : String} (h : arguments[1]? = some text)
      (hzero : IsNumeral text.toList [] 0) :
      ArgumentError arguments false "thread-count must be greater than zero"
  | threadCountLarge {text : String} {value : SizeT} (h : arguments[1]? = some text)
      (hvalue : IsNumeral text.toList [] value) (hlarge : 2 ^ 32 ≤ value.toNat) :
      ArgumentError arguments false "thread-count is too large"

variable {arguments : List String} {options options' : Options} {text name program what' : String}
  {value value' : SizeT} {layout : NodeLayout}

theorem numeral_eq {rest rest' : List Char} {cs : List Char} (h : IsNumeral cs rest value)
    (h' : IsNumeral cs rest' value') : value = value' :=
  ((converts_iff cs rest value).mp h).2.2.2.symm.trans ((converts_iff cs rest' value').mp h').2.2.2

theorem Asks.eq {argument : Option String} {defaultValue : SizeT}
    (h : Asks argument defaultValue value) (h' : Asks argument defaultValue value') :
    value = value' := by
  cases argument with
  | none => exact h.trans h'.symm
  | some text => exact numeral_eq h.1 h'.1

theorem Options.Asked.eq (h : options.Asked arguments) (h' : options'.Asked arguments) :
    options = options' := by
  obtain ⟨nodeCount, threadCount⟩ := options
  obtain ⟨nodeCount', threadCount'⟩ := options'
  have hthreads := congrArg (BitVec.setWidth 32) (h.threadCount.eq h'.threadCount)
  simp only [BitVec.setWidth_setWidth_of_le, Nat.reduceLeDiff, BitVec.setWidth_eq] at hthreads
  rw [Options.mk.injEq]
  exact ⟨h.nodeCount.eq h'.nodeCount, hthreads⟩

/-- The text is a whole numeral if and only if the test of `parse_size` finds no fault. -/
theorem isNumeral_iff (text : List Char) (value : SizeT) : IsNumeral text [] value ↔
    ¬ ((strtoull text).outOfRange ∨ (strtoull text).consumed = 0 ∨
        (strtoull text).consumed ≠ text.length ∨ BitVec.allOnes 64 < (strtoull text).value) ∧
      (strtoull text).value = value := by
  have hle := consumed_le text
  have hmax : ¬ BitVec.allOnes 64 < (strtoull text).value := by
    rw [BitVec.lt_def, BitVec.toNat_allOnes]
    have hlt := (strtoull text).value.isLt
    omega
  rw [converts_iff, List.drop_eq_nil_iff]
  simp only [not_or, Bool.not_eq_true, hmax, not_false_eq_true, and_true, ne_eq, not_not]
  constructor
  · rintro ⟨hrange, hpos, hlength, hvalue⟩
    exact ⟨⟨hrange, hpos, le_antisymm hle hlength⟩, hvalue⟩
  · rintro ⟨⟨hrange, hpos, hlength⟩, hvalue⟩
    exact ⟨hrange, hpos, hlength.ge, hvalue⟩

/-- **`parse_size`** returns the number of a numeral, and otherwise says what is wrong. -/
theorem parseSize_cases (text name program : String) :
    (∃ value, IsNumeral text.toList [] value ∧ value ≠ 0 ∧
        parseSize text name program = ⟨"", .ok value⟩) ∨
      (IsNumeral text.toList [] 0 ∧
        parseSize text name program = ⟨"", .error (name ++ " must be greater than zero")⟩) ∨
      ((∀ value, ¬ IsNumeral text.toList [] value) ∧ parseSize text name program =
        ⟨usage program, .error (name ++ " must be a positive integer")⟩) := by
  by_cases hfault : (strtoull text.toList).outOfRange ∨ (strtoull text.toList).consumed = 0 ∨
      (strtoull text.toList).consumed ≠ text.toList.length ∨
      BitVec.allOnes 64 < (strtoull text.toList).value
  · refine Or.inr (Or.inr ⟨fun value hvalue => ?_, ?_⟩)
    · exact ((isNumeral_iff _ _).mp hvalue).1 hfault
    · simp only [parseSize, if_pos hfault, Outcome.write_throw]
  · have hnumeral := (isNumeral_iff _ _).mpr ⟨hfault, rfl⟩
    by_cases hzero : (strtoull text.toList).value = 0
    · refine Or.inr (Or.inl ⟨hzero ▸ hnumeral, ?_⟩)
      simp only [parseSize, if_neg hfault, if_pos hzero]
      rfl
    · refine Or.inl ⟨_, hnumeral, hzero, ?_⟩
      simp only [parseSize, if_neg hfault, if_neg hzero]
      rfl

theorem parseNodeCountOption_cases (program : String) (arguments : List String) :
    (∃ value, Asks arguments[0]? defaultNodeCount value ∧
        parseNodeCountOption program arguments[0]? = ⟨"", .ok value⟩) ∨
      ∃ wrong text, ArgumentError arguments wrong text ∧
        parseNodeCountOption program arguments[0]? =
          ⟨if wrong then usage program else "", .error text⟩ := by
  cases hargument : arguments[0]? with
  | none => exact Or.inl ⟨_, rfl, rfl⟩
  | some text =>
    obtain ⟨value, hvalue, hne, hread⟩ | ⟨hzero, hread⟩ | ⟨hnone, hread⟩ :=
      parseSize_cases text "node-count" program
    · exact Or.inl ⟨value, ⟨hvalue, hne⟩, hread⟩
    · exact Or.inr ⟨false, _, .nodeCountZero hargument hzero, hread⟩
    · exact Or.inr ⟨true, _, .nodeCountText hargument hnone, hread⟩

theorem parseThreadCountOption_cases (program : String) (arguments : List String) :
    (∃ value, Asks arguments[1]? (defaultThreadCount.setWidth 64) (value.setWidth 64) ∧
        parseThreadCountOption program arguments[1]? = ⟨"", .ok value⟩) ∨
      ∃ wrong text, ArgumentError arguments wrong text ∧
        parseThreadCountOption program arguments[1]? =
          ⟨if wrong then usage program else "", .error text⟩ := by
  cases hargument : arguments[1]? with
  | none => exact Or.inl ⟨_, rfl, rfl⟩
  | some text =>
    have hmax : ((BitVec.allOnes 32).setWidth 64).toNat = 2 ^ 32 - 1 := by decide
    rw [parseThreadCountOption]
    obtain ⟨value, hvalue, hne, hread⟩ | ⟨hzero, hread⟩ | ⟨hnone, hread⟩ :=
      parseSize_cases text "thread-count" program
    · rw [hread, Outcome.ok_bind]
      by_cases hlarge : (BitVec.allOnes 32).setWidth 64 < value
      · refine Or.inr ⟨false, _, .threadCountLarge hargument hvalue ?_, if_pos hlarge⟩
        rw [BitVec.lt_def, hmax] at hlarge
        omega
      · have hsmall : (value.setWidth 32).setWidth 64 = value := by
          rw [BitVec.lt_def, hmax] at hlarge
          apply BitVec.eq_of_toNat_eq
          rw [BitVec.toNat_setWidth, BitVec.toNat_setWidth]
          omega
        exact Or.inl ⟨value.setWidth 32, ⟨hsmall.symm ▸ hvalue, hsmall.symm ▸ hne⟩, if_neg hlarge⟩
    · rw [hread, Outcome.error_bind]
      exact Or.inr ⟨false, _, .threadCountZero hargument hzero, rfl⟩
    · rw [hread, Outcome.error_bind]
      exact Or.inr ⟨true, _, .threadCountText hargument hnone, rfl⟩

/-- **`parse_options`** returns the options that the arguments ask for, and otherwise says what is
wrong. -/
theorem parseOptions_cases (program : String) (arguments : List String) :
    (∃ options, options.Asked arguments ∧
        parseOptions program arguments = ⟨"", .ok options⟩) ∨
      ∃ wrong text, ArgumentError arguments wrong text ∧
        parseOptions program arguments = ⟨if wrong then usage program else "", .error text⟩ := by
  rw [parseOptions]
  by_cases hmany : 2 < arguments.length
  · rw [if_pos hmany, Outcome.write_throw]
    exact Or.inr ⟨true, _, .tooMany hmany, rfl⟩
  · rw [if_neg hmany]
    obtain ⟨nodeCount, hnodes, hread⟩ | ⟨wrong, text, herror, hread⟩ :=
      parseNodeCountOption_cases program arguments
    · rw [hread, Outcome.ok_bind]
      obtain ⟨threadCount, hthreads, hread'⟩ | ⟨wrong, text, herror, hread'⟩ :=
        parseThreadCountOption_cases program arguments
      · rw [hread', Outcome.ok_bind]
        exact Or.inl ⟨_, ⟨Nat.le_of_not_lt hmany, hnodes, hthreads⟩, rfl⟩
      · rw [hread', Outcome.error_bind]
        exact Or.inr ⟨wrong, text, herror, rfl⟩
    · rw [hread, Outcome.error_bind]
      exact Or.inr ⟨wrong, text, herror, rfl⟩

theorem ArgumentError.not_asked {wrong : Bool} (h : ArgumentError arguments wrong text) :
    ¬ options.Asked arguments := by
  intro hasked
  have hnodes := hasked.nodeCount
  have hthreads := hasked.threadCount
  cases h with
  | tooMany h => exact absurd hasked.length_le (Nat.not_le.mpr h)
  | nodeCountText h hnone =>
    rw [h] at hnodes
    exact hnone _ hnodes.1
  | nodeCountZero h hzero =>
    rw [h] at hnodes
    exact hnodes.2 (numeral_eq hnodes.1 hzero)
  | threadCountText h hnone =>
    rw [h] at hthreads
    exact hnone _ hthreads.1
  | threadCountZero h hzero =>
    rw [h] at hthreads
    exact hthreads.2 (numeral_eq hthreads.1 hzero)
  | threadCountLarge h hvalue hlarge =>
    rw [h] at hthreads
    have hlt := options.threadCount.isLt
    rw [numeral_eq hvalue hthreads.1, BitVec.toNat_setWidth] at hlarge
    omega

/-- Numerals ask for their numbers. -/
theorem asked_numerals {nodeCount : SizeT} {threadCount : BitVec 32} (hnodes : nodeCount ≠ 0)
    (hthreads : threadCount ≠ 0) : Options.Asked
      [String.ofList (Decimal.write nodeCount.toNat),
        String.ofList (Decimal.write threadCount.toNat)]
      ⟨nodeCount, threadCount⟩ where
  length_le := le_rfl
  nodeCount := by
    refine ⟨?_, hnodes⟩
    rw [String.toList_ofList]
    simpa using isNumeral_write nodeCount.isLt
  threadCount := by
    have hlt := threadCount.isLt
    refine ⟨?_, fun hzero => hthreads ?_⟩
    · rw [String.toList_ofList]
      have hnumeral := isNumeral_write (n := threadCount.toNat) (by omega)
      rwa [BitVec.ofNat_toNat] at hnumeral
    · have hback := congrArg (BitVec.setWidth 32) hzero
      simpa using hback

/-! ## The product of the sizes -/

/-- The bytes of all nodes. -/
def requiredBytes (layout : NodeLayout) (options : Options) : ℕ :=
  options.nodeCount.toNat * options.threadCount.toNat * layout.nodeSize.toNat

theorem checkedMultiply_error {lhs rhs : SizeT} {e : PoolError}
    (h : checkedMultiply lhs rhs = .error e) :
    e = .lengthError "benchmark size overflows size_t" ∧ 2 ^ 64 ≤ lhs.toNat * rhs.toNat := by
  unfold checkedMultiply at h
  split at h
  · next hlt =>
    obtain ⟨hne, hlt⟩ := hlt
    have hpos : 0 < rhs.toNat := by
      rw [Nat.pos_iff_ne_zero]
      exact fun hzero => hne (BitVec.eq_of_toNat_eq hzero)
    rw [BitVec.lt_def, BitVec.toNat_udiv, BitVec.toNat_allOnes, Nat.div_lt_iff_lt_mul hpos] at hlt
    exact ⟨(Except.error.inj h).symm, by omega⟩
  · cases h

theorem nodeStorageRequired_cases (layout : NodeLayout) (options : Options) :
    (∃ bytes, nodeStorageRequired layout options.nodeCount options.threadCount = .ok bytes ∧
        bytes.toNat = requiredBytes layout options ∧
        ∃ nodes, checkedMultiply options.nodeCount (options.threadCount.setWidth 64) =
          .ok nodes) ∨
      (nodeStorageRequired layout options.nodeCount options.threadCount =
          .error (.lengthError "benchmark size overflows size_t") ∧
        2 ^ 64 ≤ requiredBytes layout options) := by
  have hthreads : (options.threadCount.setWidth 64).toNat = options.threadCount.toNat := by
    have hlt := options.threadCount.isLt
    rw [BitVec.toNat_setWidth, Nat.mod_eq_of_lt (by omega)]
  cases hnodes : checkedMultiply options.nodeCount (options.threadCount.setWidth 64) with
  | error e =>
    obtain ⟨rfl, hlarge⟩ := checkedMultiply_error hnodes
    refine Or.inr ⟨by rw [nodeStorageRequired, hnodes]; rfl, ?_⟩
    rw [hthreads] at hlarge
    exact hlarge.trans (Nat.le_mul_of_pos_right _ layout.size_pos)
  | ok nodes =>
    have hproduct := checkedMultiply_ok hnodes
    rw [hthreads] at hproduct
    have hbind : nodeStorageRequired layout options.nodeCount options.threadCount =
        checkedMultiply nodes layout.nodeSize := by
      rw [nodeStorageRequired, hnodes]
      rfl
    cases hbytes : checkedMultiply nodes layout.nodeSize with
    | error e =>
      obtain ⟨rfl, hlarge⟩ := checkedMultiply_error hbytes
      rw [hproduct] at hlarge
      exact Or.inr ⟨hbind.trans hbytes, hlarge⟩
    | ok bytes =>
      have hall := checkedMultiply_ok hbytes
      rw [hproduct] at hall
      exact Or.inl ⟨bytes, hbind.trans hbytes, hall, nodes, rfl⟩

/-! ## The list benchmarks as a whole -/

variable {start : Except String Unit} {finish : Except String (BitVec 64)}
  {work : Options → SizeT → Except String PoolStats} {report : Report}

/-- `report` is what a successful run prints. -/
structure Succeeds (arguments : List String) (layout : NodeLayout) (start : Except String Unit)
    (finish : Except String (BitVec 64)) (work : Options → SizeT → Except String PoolStats)
    (report : Report) : Prop where
  asked : report.options.Asked arguments
  required : report.nodeStorageRequired.toNat = requiredBytes layout report.options
  start : start = .ok ()
  work : work report.options report.nodeStorageRequired = .ok report.poolStats
  memory : ∃ maxRss, finish = .ok maxRss ∧ report.memoryUsed.toNat =
    max maxRss.toNat (max report.nodeStorageRequired.toNat report.poolStats.usableStorage.toNat)

/-- Why a run fails: whether the usage is written, and the exception. -/
inductive Failure (arguments : List String) (layout : NodeLayout) (start : Except String Unit)
    (finish : Except String (BitVec 64)) (work : Options → SizeT → Except String PoolStats) :
    Bool → String → Prop
  | arguments {wrong : Bool} {text : String} (h : ArgumentError arguments wrong text) :
    Failure arguments layout start finish work wrong text
  | overflow {options : Options} (h : options.Asked arguments)
      (hlarge : 2 ^ 64 ≤ requiredBytes layout options) :
    Failure arguments layout start finish work false "benchmark size overflows size_t"
  | start {options : Options} {text : String} (h : options.Asked arguments)
      (herror : start = .error text) : Failure arguments layout start finish work false text
  | work {options : Options} {required : SizeT} {text : String} (h : options.Asked arguments)
      (hrequired : required.toNat = requiredBytes layout options)
      (herror : work options required = .error text) :
    Failure arguments layout start finish work false text
  | finish {options : Options} {text : String} (h : options.Asked arguments)
      (herror : finish = .error text) : Failure arguments layout start finish work false text

theorem Failure.not_succeeds {wrong : Bool}
    (h : Failure arguments layout start finish work wrong text) :
    ¬ Succeeds arguments layout start finish work report := by
  rintro ⟨hasked, hrequired, hstart, hwork, maxRss, hfinish, -⟩
  cases h with
  | arguments h => exact h.not_asked hasked
  | overflow h hlarge =>
    rw [h.eq hasked, ← hrequired] at hlarge
    exact absurd report.nodeStorageRequired.isLt (Nat.not_lt.mpr hlarge)
  | start h herror => cases hstart.symm.trans herror
  | work h hrequired' herror =>
    obtain rfl := h.eq hasked
    rw [BitVec.eq_of_toNat_eq (hrequired'.trans hrequired.symm), hwork] at herror
    cases herror
  | finish h herror => cases hfinish.symm.trans herror

theorem toNat_memoryUsed (maxRss required usable : BitVec 64) :
    (let directStorage := if required < usable then usable else required
      if maxRss < directStorage then directStorage else maxRss).toNat =
        max maxRss.toNat (max required.toNat usable.toNat) := by
  simp only [BitVec.lt_def]
  split <;> split <;> omega

/-- The `try` block succeeds or throws for a reason. -/
theorem runWork_cases (program : String) (arguments : List String) (layout : NodeLayout)
    (start : Except String Unit) (finish : Except String (BitVec 64))
    (work : Options → SizeT → Except String PoolStats) :
    (∃ report nodes, Succeeds arguments layout start finish work report ∧
        checkedMultiply report.options.nodeCount (report.options.threadCount.setWidth 64) =
          .ok nodes ∧
        runWork program arguments layout start finish work = ⟨"", .ok report⟩) ∨
      ∃ wrong text, Failure arguments layout start finish work wrong text ∧
        runWork program arguments layout start finish work =
          ⟨if wrong then usage program else "", .error text⟩ := by
  rw [runWork]
  obtain ⟨options, hasked, hread⟩ | ⟨wrong, text, herror, hread⟩ :=
    parseOptions_cases program arguments
  swap
  · rw [hread, Outcome.error_bind]
    exact Or.inr ⟨wrong, text, .arguments herror, rfl⟩
  rw [hread, Outcome.ok_bind]
  obtain ⟨required, hrequired, hbytes, nodes, hnodes⟩ | ⟨hoverflow, hlarge⟩ :=
    nodeStorageRequired_cases layout options
  swap
  · rw [hoverflow]
    exact Or.inr ⟨false, _, .overflow hasked hlarge, rfl⟩
  simp only [hrequired, Outcome.call, Except.mapError, Outcome.ok_bind]
  cases hstart : start with
  | error text => exact Or.inr ⟨false, text, .start hasked rfl, rfl⟩
  | ok u =>
    simp only [Outcome.ok_bind]
    cases hwork : work options required with
    | error text => exact Or.inr ⟨false, text, .work hasked hbytes hwork, rfl⟩
    | ok poolStats =>
      simp only [Outcome.ok_bind]
      cases hfinish : finish with
      | error text => exact Or.inr ⟨false, text, .finish hasked rfl, rfl⟩
      | ok maxRss =>
        refine Or.inl ⟨_, nodes, ⟨hasked, hbytes, rfl, hwork, maxRss, rfl, ?_⟩, hnodes, rfl⟩
        exact toNat_memoryUsed maxRss required poolStats.usableStorage

/-- **The list benchmarks, for every command line.** A run either does its work with the options
that the arguments ask for and with exactly the bytes of their nodes, and reports no less memory
than these and the pools take; or it exits with status 1, says why, and no report is possible. -/
theorem list_benchmark_exact (program : String) (arguments : List String) (layout : NodeLayout)
    (start : Except String Unit) (finish : Except String (BitVec 64))
    (work : Options → SizeT → Except String PoolStats) :
    (∃ report, Succeeds arguments layout start finish work report ∧
        runBenchmark program arguments layout start finish work = ⟨0, "", some report⟩) ∨
      ∃ wrong text, Failure arguments layout start finish work wrong text ∧
        (∀ report, ¬ Succeeds arguments layout start finish work report) ∧
        runBenchmark program arguments layout start finish work =
          ⟨1, (if wrong then usage program else "") ++ "Benchmark failed: " ++ text ++ "\n",
            none⟩ := by
  obtain ⟨report, nodes, hsucceeds, hnodes, hrun⟩ | ⟨wrong, text, hfailure, hrun⟩ :=
    runWork_cases program arguments layout start finish work
  · refine Or.inl ⟨report, hsucceeds, ?_⟩
    simp only [runBenchmark, hrun, Outcome.ok_bind, hnodes, Outcome.call, Except.mapError]
    rfl
  · refine Or.inr ⟨wrong, text, hfailure, fun report => hfailure.not_succeeds, ?_⟩
    simp only [runBenchmark, hrun, Outcome.error_bind]

/-! ## The other benchmarks' arguments -/

/-- The first argument is left out, or a numeral of a number that fits an `unsigned`. -/
def CountAsked (defaultCount : BitVec 32) (arguments : List String) (n : BitVec 32) : Prop :=
  match arguments with
  | [] => n = defaultCount
  | text :: _ => IsNumeral text.toList [] (n.setWidth 64)

theorem CountAsked.eq {defaultCount n m : BitVec 32} (h : CountAsked defaultCount arguments n)
    (h' : CountAsked defaultCount arguments m) : n = m := by
  cases arguments with
  | nil => exact h.trans h'.symm
  | cons text rest =>
    have heq := congrArg (BitVec.setWidth 32) (numeral_eq h h')
    simpa only [BitVec.setWidth_setWidth_of_le, Nat.reduceLeDiff, BitVec.setWidth_eq] using heq

theorem parseCount_cases (parameter : String) (defaultCount : BitVec 32) (program : String)
    (arguments : List String) :
    (∃ n, CountAsked defaultCount arguments n ∧
        parseCount parameter defaultCount program arguments = .ok n) ∨
      ((∀ n, ¬ CountAsked defaultCount arguments n) ∧
        parseCount parameter defaultCount program arguments =
          .error ("Usage: " ++ program ++ " [" ++ parameter ++ "]\n")) := by
  cases arguments with
  | nil => exact Or.inl ⟨defaultCount, rfl, rfl⟩
  | cons text rest =>
    have hmax : ((BitVec.allOnes 32).setWidth 64).toNat = 2 ^ 32 - 1 := by decide
    by_cases hfault : (strtoull text.toList).outOfRange ∨ (strtoull text.toList).consumed = 0 ∨
        text.toList.drop (strtoull text.toList).consumed ≠ [] ∨
        (BitVec.allOnes 32).setWidth 64 < (strtoull text.toList).value
    · refine Or.inr ⟨fun n hn => ?_, if_pos hfault⟩
      obtain ⟨hrange, hpos, hrest, hvalue⟩ := (converts_iff _ _ _).mp hn
      have hlt := n.isLt
      rw [hvalue, BitVec.lt_def, hmax, BitVec.toNat_setWidth, Nat.mod_eq_of_lt (by omega)]
        at hfault
      simp only [hrange, Bool.false_eq_true, hpos, hrest, ne_eq, not_true_eq_false,
        false_or] at hfault
      omega
    · refine Or.inl ⟨(strtoull text.toList).value.setWidth 32, ?_, if_neg hfault⟩
      simp only [not_or, Bool.not_eq_true, ne_eq, not_not, BitVec.lt_def, hmax] at hfault
      obtain ⟨hrange, hpos, hrest, hsmall⟩ := hfault
      refine (converts_iff _ _ _).mpr ⟨hrange, hpos, hrest, BitVec.eq_of_toNat_eq ?_⟩
      rw [BitVec.toNat_setWidth, BitVec.toNat_setWidth]
      omega

/-- **`parse_string_count` and `parse_node_count`**, for every command line: only the first
argument counts, and it may be 0. -/
theorem parseCount_iff (parameter : String) (defaultCount : BitVec 32) (program : String)
    (arguments : List String) :
    (∀ n, parseCount parameter defaultCount program arguments = .ok n ↔
      CountAsked defaultCount arguments n) ∧
    ∀ text, parseCount parameter defaultCount program arguments = .error text ↔
      (∀ n, ¬ CountAsked defaultCount arguments n) ∧
        text = "Usage: " ++ program ++ " [" ++ parameter ++ "]\n" := by
  obtain ⟨m, hasked, hparse⟩ | ⟨hnone, hparse⟩ :=
    parseCount_cases parameter defaultCount program arguments
  · rw [hparse]
    refine ⟨fun n => ⟨fun heq => ?_, fun hn => congrArg Except.ok (hasked.eq hn)⟩,
      fun text => ⟨fun heq => ?_, fun hnone => absurd hasked (hnone.1 m)⟩⟩
    · cases heq
      exact hasked
    · cases heq
  · rw [hparse]
    refine ⟨fun n => ⟨fun heq => ?_, fun hn => absurd hn (hnone n)⟩, fun text =>
      ⟨fun heq => ⟨hnone, (Except.error.inj heq).symm⟩, fun htext => congrArg Except.error
        htext.2.symm⟩⟩
    cases heq

end Doost.Benchmarks
