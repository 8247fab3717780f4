import Mathlib.Data.Nat.Log
import Doost.Benchmarks.Arguments

/-!
# The benchmark of the smallest copy worth its threads

`parallel_memcpy_min_size_benchmark` measures copies of `min_bytes`, of twice as many, and so on up
to `max_bytes`, and reports the first size at which the pool was faster. `min_size_benchmark_exact`:
the arguments that `parse_options` accepts keep the sizes positive and in order, and for these the
loop measures every doubling within `max_bytes` once, never more bytes than the two vectors have,
and ends without an overflow.
-/

namespace Doost.Benchmarks.MinSize

open Strtoull Pools

/-! ## The program -/

structure Options where
  threadCount : SizeT
  minBytes : SizeT
  maxBytes : SizeT
  repeats : BitVec 32
deriving DecidableEq, Repr

def defaultMinBytes : SizeT := 64 * 1024

def defaultMaxBytes : SizeT := 256 * 1024 * 1024

def defaultRepeats : BitVec 32 := 5

/-- `default_thread_count`, with what `hardware_concurrency` returns. -/
def defaultThreadCount (hardwareThreads : BitVec 32) : SizeT :=
  if hardwareThreads ≤ 1 then 1 else (hardwareThreads - 1).setWidth 64

/-- `std::stoull`, with `none` for an exception. What follows the number does not matter. -/
def stoull (text : List Char) : Option (BitVec 64) :=
  let conversion := strtoull text
  if conversion.consumed = 0 then none
  else if conversion.outOfRange then none
  else some conversion.value

/-- `parse_size`. -/
def parseSize (text name : String) : Except String SizeT :=
  match stoull text.toList with
  | some value => .ok value
  | none => .error ("invalid " ++ name)

/-- The value of an option that may be left out. -/
def parseOption (argument : Option String) (name : String) (defaultValue : SizeT) :
    Except String SizeT :=
  match argument with
  | some text => parseSize text name
  | none => .ok defaultValue

/-- The checks at the end of `parse_options`. -/
def checkOptions (argumentCount : ℕ) (options : Options) : Except String Options :=
  if 4 < argumentCount then .error
    "usage: parallel_memcpy_min_size_benchmark [threads] [min-bytes] [max-bytes] [repeats]"
  else if options.threadCount = 0 then .error "thread count must be positive"
  else if options.minBytes = 0 then .error "minimum byte count must be positive"
  else if options.maxBytes < options.minBytes then .error
    "minimum byte count must not exceed maximum byte count"
  else if options.repeats = 0 then .error "repeat count must be positive"
  else .ok options

/-- `parse_options`, with the arguments behind `argv[0]`. -/
def parseOptions (hardwareThreads : BitVec 32) (arguments : List String) :
    Except String Options := do
  let threadCount ← parseOption arguments[0]? "thread count" (defaultThreadCount hardwareThreads)
  let minBytes ← parseOption arguments[1]? "minimum byte count" defaultMinBytes
  let maxBytes ← parseOption arguments[2]? "maximum byte count" defaultMaxBytes
  let repeats ← parseOption arguments[3]? "repeat count" (defaultRepeats.setWidth 64)
  checkOptions arguments.length ⟨threadCount, minBytes, maxBytes, repeats.setWidth 32⟩

/-- The loop of `main` from `size` on, if it ends within `fuel` rounds. `measure size` says whether
the pool was faster, or throws; `samples` are the sizes measured so far. -/
def sample (maxBytes : SizeT) (measure : SizeT → Except String Bool) :
    ℕ → SizeT → SizeT → List SizeT → Option (Except String (List SizeT × SizeT))
  | 0, _, _, _ => none
  | fuel + 1, size, firstWinningSize, samples =>
    if size ≤ maxBytes then
      match measure size with
      | .error text => some (.error text)
      | .ok wins =>
        let firstWinningSize := if firstWinningSize = 0 ∧ wins then size else firstWinningSize
        if BitVec.allOnes 64 / 2 < size ∨ maxBytes < size * 2 then
          some (.ok (samples ++ [size], firstWinningSize))
        else sample maxBytes measure fuel (size * 2) firstWinningSize (samples ++ [size])
    else some (.ok (samples, firstWinningSize))

/-! ## What the arguments ask for -/

/-- An argument that is left out stands for `defaultValue`; another one begins with a numeral. -/
def Asks (argument : Option String) (defaultValue value : SizeT) : Prop :=
  match argument with
  | none => value = defaultValue
  | some text => ∃ rest, IsNumeral text.toList rest value

/-- The arguments ask for these options, and the benchmark can work with them. -/
structure Options.Asked (hardwareThreads : BitVec 32) (arguments : List String)
    (options : Options) : Prop where
  length_le : arguments.length ≤ 4
  threadCount : Asks arguments[0]? (defaultThreadCount hardwareThreads) options.threadCount
  minBytes : Asks arguments[1]? defaultMinBytes options.minBytes
  maxBytes : Asks arguments[2]? defaultMaxBytes options.maxBytes
  repeats : ∃ repeats, Asks arguments[3]? (defaultRepeats.setWidth 64) repeats ∧
    options.repeats = repeats.setWidth 32
  threadCount_pos : 0 < options.threadCount.toNat
  minBytes_pos : 0 < options.minBytes.toNat
  minBytes_le : options.minBytes.toNat ≤ options.maxBytes.toNat
  repeats_pos : 0 < options.repeats.toNat

variable {arguments : List String} {argument : Option String} {name : String}
  {options : Options} {hardwareThreads : BitVec 32} {defaultValue value : SizeT}

theorem bind_ok {α β : Type} {x : Except String α} {f : α → Except String β} {b : β}
    (h : x >>= f = .ok b) : ∃ a, x = .ok a ∧ f a = .ok b := by
  cases x with
  | error text => cases h
  | ok a => exact ⟨a, rfl, h⟩

theorem stoull_iff (text : List Char) (value : BitVec 64) :
    stoull text = some value ↔ ∃ rest, IsNumeral text rest value := by
  simp only [converts_iff, stoull]
  constructor
  · intro h
    split at h
    · cases h
    · next hpos =>
      split at h
      · cases h
      · next hrange =>
        exact ⟨_, Bool.not_eq_true _ ▸ hrange, hpos, rfl, Option.some.inj h⟩
  · rintro ⟨rest, hrange, hpos, -, rfl⟩
    rw [if_neg hpos, if_neg (by rw [hrange]; exact Bool.false_ne_true)]

theorem parseOption_iff : parseOption argument name defaultValue = .ok value ↔
    Asks argument defaultValue value := by
  cases argument with
  | none =>
    rw [parseOption, Except.ok.injEq]
    exact eq_comm
  | some text =>
    change parseSize text name = _ ↔ ∃ rest, IsNumeral text.toList rest value
    rw [parseSize, ← stoull_iff]
    cases stoull text.toList with
    | none => exact ⟨fun h => (by cases h), fun h => (by cases h)⟩
    | some v => rw [Except.ok.injEq, Option.some.injEq]

theorem pos_toNat_iff {w : ℕ} {x : BitVec w} : 0 < x.toNat ↔ x ≠ 0 := by
  rw [Nat.pos_iff_ne_zero, ne_eq, ne_eq, ← BitVec.toNat_inj]
  rfl

theorem checkOptions_iff {argumentCount : ℕ} {options' : Options} :
    checkOptions argumentCount options = .ok options' ↔ options = options' ∧ argumentCount ≤ 4 ∧
      0 < options.threadCount.toNat ∧ 0 < options.minBytes.toNat ∧
      options.minBytes.toNat ≤ options.maxBytes.toNat ∧ 0 < options.repeats.toNat := by
  rw [checkOptions, pos_toNat_iff, pos_toNat_iff, pos_toNat_iff, ← BitVec.le_def,
    ← BitVec.not_lt, ← Nat.not_lt]
  constructor
  · intro h
    by_cases hcount : 4 < argumentCount
    · rw [if_pos hcount] at h
      cases h
    by_cases hthreads : options.threadCount = 0
    · rw [if_neg hcount, if_pos hthreads] at h
      cases h
    by_cases hmin : options.minBytes = 0
    · rw [if_neg hcount, if_neg hthreads, if_pos hmin] at h
      cases h
    by_cases hle : options.maxBytes < options.minBytes
    · rw [if_neg hcount, if_neg hthreads, if_neg hmin, if_pos hle] at h
      cases h
    by_cases hrepeats : options.repeats = 0
    · rw [if_neg hcount, if_neg hthreads, if_neg hmin, if_neg hle, if_pos hrepeats] at h
      cases h
    rw [if_neg hcount, if_neg hthreads, if_neg hmin, if_neg hle, if_neg hrepeats] at h
    exact ⟨Except.ok.inj h, hcount, hthreads, hmin, hle, hrepeats⟩
  · rintro ⟨rfl, hcount, hthreads, hmin, hle, hrepeats⟩
    rw [if_neg hcount, if_neg hthreads, if_neg hmin, if_neg hle, if_neg hrepeats]

/-- **`parse_options`** returns the options that the arguments ask for. -/
theorem parseOptions_iff : parseOptions hardwareThreads arguments = .ok options ↔
    options.Asked hardwareThreads arguments := by
  constructor
  · intro h
    obtain ⟨threadCount, hthreads, h⟩ := bind_ok h
    obtain ⟨minBytes, hmin, h⟩ := bind_ok h
    obtain ⟨maxBytes, hmax, h⟩ := bind_ok h
    obtain ⟨repeats, hrepeats, h⟩ := bind_ok h
    obtain ⟨rfl, hlength, hthreads', hmin', hle, hrepeats'⟩ := checkOptions_iff.mp h
    exact ⟨hlength, parseOption_iff.mp hthreads, parseOption_iff.mp hmin, parseOption_iff.mp hmax,
      ⟨repeats, parseOption_iff.mp hrepeats, rfl⟩, hthreads', hmin', hle, hrepeats'⟩
  · intro h
    obtain ⟨repeats, hrepeats, heq⟩ := h.repeats
    obtain ⟨threadCount, minBytes, maxBytes, repeats'⟩ := options
    obtain rfl : repeats' = repeats.setWidth 32 := heq
    rw [parseOptions, parseOption_iff.mpr h.threadCount, parseOption_iff.mpr h.minBytes,
      parseOption_iff.mpr h.maxBytes, parseOption_iff.mpr hrepeats]
    exact checkOptions_iff.mpr ⟨rfl, h.length_le, h.threadCount_pos, h.minBytes_pos, h.minBytes_le,
      h.repeats_pos⟩

/-! ## The sizes -/

/-- `size`, twice `size` and so on, `count` sizes in all. -/
def doublings (size : SizeT) (count : ℕ) : List SizeT :=
  (List.range count).map fun k => BitVec.ofNat 64 (size.toNat * 2 ^ k)

/-- The first of the sizes at which the pool was faster, or 0. -/
def firstWinner : List SizeT → List Bool → SizeT
  | size :: sizes, win :: wins => if win then size else firstWinner sizes wins
  | _, _ => 0

theorem doublings_succ {size : SizeT} (count : ℕ) (h : size.toNat * 2 < 2 ^ 64) :
    doublings size (count + 1) = size :: doublings (size * 2) count := by
  have hdouble : (size * 2).toNat = size.toNat * 2 := by
    rw [BitVec.toNat_mul]
    exact Nat.mod_eq_of_lt h
  rw [doublings, List.range_succ_eq_map, List.map_cons, List.map_map, doublings, hdouble]
  refine congrArg₂ List.cons ?_ (List.map_congr_left fun k _ => ?_)
  · rw [Nat.pow_zero, Nat.mul_one, BitVec.ofNat_toNat, BitVec.setWidth_eq]
  · rw [Function.comp_apply, Nat.succ_eq_add_one, Nat.pow_succ', Nat.mul_assoc]

theorem doublings_one (size : SizeT) : doublings size 1 = [size] := by
  rw [doublings, List.range_one, List.map_singleton, Nat.pow_zero, Nat.mul_one, BitVec.ofNat_toNat,
    BitVec.setWidth_eq]

/-- The first measurement throws, or the others follow it. -/
theorem map_mapM_cons {α β γ : Type} (f : α → Except String β) (g : List β → γ) (a : α)
    (l : List α) : ((a :: l).mapM f).map g =
      match f a with
      | .error text => .error text
      | .ok b => (l.mapM f).map fun bs => g (b :: bs) := by
  rw [List.mapM_cons]
  cases f a with
  | error text => rfl
  | ok b => cases l.mapM f <;> rfl

/-- **The loop** measures the doublings of `size` up to `maxBytes`. -/
theorem sample_spec {maxBytes size : SizeT} {measure : SizeT → Except String Bool} {d fuel : ℕ}
    (hpos : 0 < size.toNat) (hle : size.toNat * 2 ^ d ≤ maxBytes.toNat)
    (hlt : maxBytes.toNat < size.toNat * 2 ^ (d + 1)) (hfuel : d < fuel)
    (firstWinningSize : SizeT) (samples : List SizeT) :
    sample maxBytes measure fuel size firstWinningSize samples =
      some (((doublings size (d + 1)).mapM measure).map fun wins =>
        (samples ++ doublings size (d + 1), if firstWinningSize = 0 then
          firstWinner (doublings size (d + 1)) wins else firstWinningSize)) := by
  have hne : size ≠ 0#64 := pos_toNat_iff.mp hpos
  have hbound := maxBytes.isLt
  have hhalf : (BitVec.allOnes 64 / 2 : SizeT).toNat = 2 ^ 63 - 1 := by decide
  obtain ⟨fuel, rfl⟩ := Nat.exists_eq_add_one.mpr (Nat.zero_lt_of_lt hfuel)
  have hmeasured : size ≤ maxBytes := by
    have hpow := Nat.one_le_two_pow (n := d)
    have hmul := Nat.le_mul_of_pos_right size.toNat hpow
    exact BitVec.le_def.mpr (hmul.trans hle)
  induction d generalizing size fuel firstWinningSize samples with
  | zero =>
    rw [Nat.zero_add, Nat.pow_one] at hlt
    have hstop : BitVec.allOnes 64 / 2 < size ∨ maxBytes < size * 2 := by
      by_cases hlarge : BitVec.allOnes 64 / 2 < size
      · exact Or.inl hlarge
      · rw [BitVec.lt_def, hhalf] at hlarge
        refine Or.inr (BitVec.lt_def.mpr ?_)
        rw [BitVec.toNat_mul, Nat.mod_eq_of_lt (by change size.toNat * 2 < _; omega)]
        exact hlt
    rw [Nat.zero_add, doublings_one, map_mapM_cons, sample, if_pos hmeasured]
    cases measure size with
    | error text => rfl
    | ok wins =>
      simp only [if_pos hstop]
      change some (Except.ok _) = some (Except.ok _)
      by_cases hfirst : firstWinningSize = 0#64 <;> cases wins <;> simp [hfirst, firstWinner]
  | succ d ih =>
    have hpow := Nat.one_le_two_pow (n := d)
    have hdouble : size.toNat * 2 ≤ maxBytes.toNat := by
      rw [Nat.pow_succ', ← Nat.mul_assoc] at hle
      exact (Nat.le_mul_of_pos_right _ hpow).trans hle
    have htoNat : (size * 2).toNat = size.toNat * 2 := by
      rw [BitVec.toNat_mul]
      exact Nat.mod_eq_of_lt (by change size.toNat * 2 < _; omega)
    have hgo : ¬ (BitVec.allOnes 64 / 2 < size ∨ maxBytes < size * 2) := by
      rw [BitVec.lt_def, BitVec.lt_def, hhalf, htoNat]
      omega
    have hrest : ∀ k, (size * 2).toNat * 2 ^ k = size.toNat * 2 ^ (k + 1) := fun k => by
      rw [htoNat, Nat.pow_succ', Nat.mul_assoc]
    obtain ⟨fuel, rfl⟩ := Nat.exists_eq_add_one.mpr
      (Nat.zero_lt_of_lt (Nat.lt_of_succ_lt_succ hfuel))
    have hih := fun first samples => ih (by omega : 0 < (size * 2).toNat)
      (hrest d ▸ hle) (hrest (d + 1) ▸ hlt) first samples
      (fun hzero => by rw [hzero] at htoNat; change 0 = _ at htoNat; omega) fuel
      (by omega) (BitVec.le_def.mpr (by omega))
    rw [doublings_succ _ (by omega), map_mapM_cons, sample, if_pos hmeasured]
    cases measure size with
    | error text => rfl
    | ok wins =>
      simp only [if_neg hgo, hih]
      refine congrArg some (congrArg (fun g => Except.map g _) (funext fun ws => ?_))
      by_cases hfirst : firstWinningSize = 0#64 <;> cases wins <;> simp [hfirst, hne, firstWinner]

/-- The number of doublings that stay within `maxBytes`. -/
theorem exists_count {size maxBytes : SizeT} (hpos : 0 < size.toNat)
    (hle : size.toNat ≤ maxBytes.toNat) :
    ∃ d < 64, size.toNat * 2 ^ d ≤ maxBytes.toNat ∧ maxBytes.toNat < size.toNat * 2 ^ (d + 1) := by
  have hquotient : maxBytes.toNat / size.toNat ≠ 0 :=
    (Nat.div_pos hle hpos).ne'
  have hlower := Nat.pow_log_le_self 2 hquotient
  have hupper := Nat.lt_pow_succ_log_self (b := 2) (by decide) (maxBytes.toNat / size.toNat)
  refine ⟨Nat.log 2 (maxBytes.toNat / size.toNat), ?_, ?_, ?_⟩
  · refine Nat.log_lt_of_lt_pow hquotient ?_
    exact (Nat.div_le_self _ _).trans_lt maxBytes.isLt
  · rw [Nat.mul_comm]
    exact (Nat.le_div_iff_mul_le hpos).mp hlower
  · rw [Nat.mul_comm]
    exact (Nat.div_lt_iff_lt_mul hpos).mp hupper

/-- **The benchmark measures every doubling once.** The first part says which command lines are
accepted; for these the loop measures the doublings of `minBytes` up to `maxBytes` in their order
until one throws, and otherwise ends with the first of them at which the pool was faster. -/
theorem min_size_benchmark_exact (hardwareThreads : BitVec 32) (arguments : List String)
    (options : Options) :
    (parseOptions hardwareThreads arguments = .ok options ↔
        options.Asked hardwareThreads arguments) ∧
      (options.Asked hardwareThreads arguments → ∃ count ≤ 64,
        (∀ k, k < count ↔ options.minBytes.toNat * 2 ^ k ≤ options.maxBytes.toNat) ∧
        (∀ size ∈ doublings options.minBytes count,
          0 < size.toNat ∧ size.toNat ≤ options.maxBytes.toNat) ∧
        ∀ measure fuel, count ≤ fuel →
          sample options.maxBytes measure fuel options.minBytes 0 [] =
            some (((doublings options.minBytes count).mapM measure).map fun wins =>
              (doublings options.minBytes count,
                firstWinner (doublings options.minBytes count) wins))) := by
  refine ⟨parseOptions_iff, fun hasked => ?_⟩
  have hpos := hasked.minBytes_pos
  obtain ⟨d, hd, hle, hlt⟩ := exists_count hpos hasked.minBytes_le
  have hcount : ∀ k, k < d + 1 ↔ options.minBytes.toNat * 2 ^ k ≤ options.maxBytes.toNat := by
    intro k
    constructor
    · intro hk
      have hpow := Nat.pow_le_pow_right (n := 2) (by decide) (Nat.le_of_lt_succ hk)
      exact (Nat.mul_le_mul_left _ hpow).trans hle
    · intro hk
      by_contra hnot
      have hpow := Nat.pow_le_pow_right (n := 2) (by decide) (Nat.le_of_not_lt hnot)
      exact absurd (hk.trans_lt hlt) (Nat.not_lt.mpr (Nat.mul_le_mul_left _ hpow))
  refine ⟨d + 1, hd, hcount, fun size hsize => ?_, fun measure fuel hfuel => ?_⟩
  · obtain ⟨k, hk, rfl⟩ := List.mem_map.mp hsize
    have hwithin := (hcount k).mp (List.mem_range.mp hk)
    have hbound := options.maxBytes.isLt
    rw [BitVec.toNat_ofNat, Nat.mod_eq_of_lt (by omega)]
    exact ⟨Nat.mul_pos hpos (Nat.two_pow_pos k), hwithin⟩
  · rw [sample_spec hpos hle hlt hfuel 0 []]
    rfl

/-- The sizes without arguments, for eight hardware threads. -/
def defaultOptions : Options := ⟨7, defaultMinBytes, defaultMaxBytes, defaultRepeats⟩

/-- There are 13 of them; the pool is faster from the fifth on. -/
theorem min_size_benchmark_exact_defaults :
    parseOptions 8 [] = .ok defaultOptions ∧
      sample defaultMaxBytes (fun size => .ok (decide (1000000 ≤ size.toNat))) 64
        defaultMinBytes 0 [] = some (.ok (doublings defaultMinBytes 13, 1048576)) := by
  obtain ⟨hparse, hsample⟩ := min_size_benchmark_exact 8 [] defaultOptions
  have haccepted : parseOptions 8 [] = .ok defaultOptions := rfl
  obtain ⟨count, hle, hcount, -, hrun⟩ := hsample (hparse.mp haccepted)
  have hlower : 12 < count := (hcount 12).mpr (by decide)
  have hupper : ¬ 13 < count := fun h => absurd ((hcount 13).mp h) (by decide)
  obtain rfl : count = 13 := by omega
  refine ⟨haccepted, (hrun _ 64 hle).trans ?_⟩
  rfl

end Doost.Benchmarks.MinSize
