import Mathlib.Order.Bounds.Basic
import Doost.Pools.Objects

/-!
# Sizes and capacities

`makeDownwardPoolStorage` rounds the two sizes up to pages with word arithmetic and tests the sum of
the rounded sizes for overflow. The roundings themselves can wrap: `sizing_exact_iff` says for which
sizes a construction that does not throw maps and protects what it should.

`usable_bytes` is computed from the length of the mapping less one page, whatever the guard is:
`usableBytes_is_capacity_iff` says for which sizes it is the accessible length, for all types of
pools and after any moves and resets.
-/

namespace Doost.Pools

open AlignedWord Transition

/-! ## The sizes of a construction -/

/-- Rounding the size up to a page does not wrap. -/
def NoWrap (page : ℕ) (value : SizeT) : Prop := value.toNat + (page - 1) < 2 ^ 64

instance (page : ℕ) (value : SizeT) : Decidable (NoWrap page value) :=
  inferInstanceAs (Decidable (_ < _))

/-- A construction that does not throw has asked for `U + G` bytes and protected the first `G`,
where `U` and `G` are the least multiples of the page size that hold the two sizes. -/
def SizesExactly (os : Os) (usableBytes maxAllocSize : SizeT) : Prop :=
  ∀ process storage process',
    makeDownwardPoolStorage os usableBytes maxAllocSize process = (.ok storage, process') →
    ∃ U G, IsLeast {k | os.page ∣ k ∧ usableBytes.toNat ≤ k} U ∧
      IsLeast {k | os.page ∣ k ∧ maxAllocSize.toNat ≤ k} G ∧
      storage.mappingBytes.toNat = U + G ∧ ∃ guardPageBytes : SizeT, guardPageBytes.toNat = G ∧
        process'.calls = .mprotect storage.mappingBegin guardPageBytes ::
          .mmap storage.mappingBytes :: process.calls

theorem isLeast_ceilTo {page : ℕ} (hpage : 0 < page) (n : ℕ) :
    IsLeast {k | page ∣ k ∧ n ≤ k} (ceilTo n page) :=
  ⟨⟨dvd_ceilTo n page, le_ceilTo hpage n⟩, fun _ hk => ceilTo_le hk.1 hk.2⟩

variable {os : Os} {usableBytes maxAllocSize value page : SizeT} {process process' : Process}
  {storage : DownwardPoolStorage}

/-- The calls of a construction that does not throw. -/
theorem makeDownwardPoolStorage_calls (hos : os.Lawful)
    (h : makeDownwardPoolStorage os usableBytes maxAllocSize process = (.ok storage, process')) :
    process'.calls = .mprotect storage.mappingBegin
        (roundUp maxAllocSize (BitVec.ofInt 64 os.pageSize)) ::
      .mmap storage.mappingBytes :: process.calls := by
  have hpage : systemPageSize os = .ok (BitVec.ofInt 64 os.pageSize) := by
    simp [systemPageSize, not_le.mpr hos.pageSize_pos]
  simp only [makeDownwardPoolStorage, hpage] at h
  split at h
  · cases h
  simp only [mapPoolStorage] at h
  split at h
  · cases h
  split at h
  · obtain ⟨hstorage, rfl⟩ := Prod.mk.inj h
    obtain rfl := Except.ok.inj hstorage
    rfl
  · cases h

/-- Sizes that round up without wrapping. -/
theorem sizesExactly_of_noWrap (hos : os.Lawful) (hu : NoWrap os.page usableBytes)
    (hm : NoWrap os.page maxAllocSize) : SizesExactly os usableBytes maxAllocSize := by
  intro process storage process' hmake
  obtain ⟨u, g, hu', hg', hsum, hbytes, -, -⟩ := makeDownwardPoolStorage_ok hos hmake
  have hcalls := makeDownwardPoolStorage_calls hos hmake
  have hun : u.toNat = ceilTo usableBytes.toNat os.page := by
    rw [hu']
    exact toNat_roundUp hos.pageSize_pow hu
  have hgn : g.toNat = ceilTo maxAllocSize.toNat os.page := by
    rw [hg']
    exact toNat_roundUp hos.pageSize_pow hm
  refine ⟨_, _, isLeast_ceilTo hos.page_pos _, isLeast_ceilTo hos.page_pos _, ?_, g, hgn, ?_⟩
  · rw [hbytes, BitVec.toNat_add, Nat.mod_eq_of_lt hsum, hun, hgn]
  · rw [hcalls, hg']

/-- A rounding that wraps gives zero. -/
theorem roundUp_of_wrap (hpage : page.toNat.isPowerOfTwo) (hwrap : ¬ NoWrap page.toNat value) :
    roundUp value page = 0 := by
  have hpos := Nat.pos_of_isPowerOfTwo hpage
  have hmask := toNat_sub_one hpos
  have hlt := page.isLt
  have hvalue := value.isLt
  unfold NoWrap at hwrap
  have hsum : (value + (page - 1)).toNat = value.toNat + (page.toNat - 1) - 2 ^ 64 := by
    rw [BitVec.toNat_add, hmask, Nat.mod_eq_sub_mod (by omega), Nat.mod_eq_of_lt (by omega)]
  have hdvd : page.toNat ∣ (roundUp value page).toNat := dvd_roundUp hpage
  have hle := roundDown_le hpage (value + (page - 1))
  rw [← roundUp_eq, hsum] at hle
  apply BitVec.eq_of_toNat_eq
  exact Nat.eq_zero_of_dvd_of_lt hdvd (by omega)

/-- A size whose rounding wraps has no multiple of the page size above it that fits a word. -/
theorem le_of_wrap {k : ℕ} (hpage : page.toNat.isPowerOfTwo) (hwrap : ¬ NoWrap page.toNat value)
    (hdvd : page.toNat ∣ k) (hk : value.toNat ≤ k) : 2 ^ 64 ≤ k := by
  have hpos := Nat.pos_of_isPowerOfTwo hpage
  have hlt := page.isLt
  unfold NoWrap at hwrap
  have hword : page.toNat ∣ 2 ^ 64 := dvd_of_isPowerOfTwo_of_le hpage ⟨64, rfl⟩ hlt.le
  by_contra hlt'
  have hgap := Nat.le_of_dvd (by omega) (Nat.dvd_sub hword hdvd)
  omega

/-- A system with the given page size that maps at the first page what fits above it. -/
def Os.granting (page : SizeT) : Os where
  pageSize := page.toNat
  mmap bytes := if bytes = 0 ∨ 2 ^ 64 ≤ page.toNat + bytes.toNat then none else some page
  mprotect _ _ := true
  errno := 12

theorem Os.granting_page (page : SizeT) : BitVec.ofInt 64 (Os.granting page).pageSize = page := by
  simp [Os.granting]

theorem Os.granting_lawful (hpage : page.toNat.isPowerOfTwo) : (Os.granting page).Lawful := by
  have hpos := Nat.pos_of_isPowerOfTwo hpage
  have hmmap : ∀ bytes begin, (Os.granting page).mmap bytes = some begin →
      begin = page ∧ page.toNat + bytes.toNat < 2 ^ 64 := by
    intro bytes begin h
    simp only [Os.granting, Option.ite_none_left_eq_some, Option.some.injEq, not_or,
      not_le] at h
    exact ⟨h.2.symm, h.1.2⟩
  have hzero : (Os.granting page).mmap 0 = none := by simp [Os.granting]
  refine ⟨Int.natCast_pos.mpr hpos, ?_, hzero, fun bytes begin h => ?_,
    fun bytes begin h => ?_, fun bytes begin h => ?_⟩
  · rw [Os.granting_page]
    exact hpage
  · rw [(hmmap bytes begin h).1]
    rintro rfl
    exact absurd hpos (by simp)
  · rw [(hmmap bytes begin h).1, Os.granting_page]
  · obtain ⟨rfl, hlt⟩ := hmmap bytes begin h
    exact hlt

/-- **When pool sizing does not wrap.** For a page size that is a power of two, every construction
with the sizes `usableBytes` and `maxAllocSize` either throws or maps and protects what it should,
whatever the operating system answers, if and only if neither rounding wraps, or the sum of the
rounded sizes is a length that cannot be mapped: zero, or so large that no page lies below it. -/
theorem sizing_exact_iff (hpage : page.toNat.isPowerOfTwo) (usableBytes maxAllocSize : SizeT) :
    (∀ os : Os, os.Lawful → BitVec.ofInt 64 os.pageSize = page →
        SizesExactly os usableBytes maxAllocSize) ↔
      (NoWrap page.toNat usableBytes ∧ NoWrap page.toNat maxAllocSize) ∨
        roundUp usableBytes page + roundUp maxAllocSize page = 0 ∨
        2 ^ 64 ≤ page.toNat + (roundUp usableBytes page + roundUp maxAllocSize page).toNat := by
  constructor
  · intro hexact
    by_contra hnot
    rw [not_or, not_or, not_le] at hnot
    obtain ⟨hwrap, hzero, hfits⟩ := hnot
    have hlawful := Os.granting_lawful hpage
    have hsystem : systemPageSize (Os.granting page) = .ok page := by
      rw [systemPageSize, if_neg (not_le.mpr hlawful.pageSize_pos), Os.granting_page]
    -- one of the rounded sizes is zero, so that the test for overflow passes
    have hpass : ¬ BitVec.allOnes 64 - roundUp maxAllocSize page < roundUp usableBytes page := by
      rw [not_and_or] at hwrap
      rcases hwrap with hwrap | hwrap
      · rw [roundUp_of_wrap hpage hwrap]
        exact BitVec.not_lt_zero
      · have hall : BitVec.allOnes 64 - (0 : SizeT) = BitVec.allOnes 64 := by simp
        have hlt := (roundUp usableBytes page).isLt
        rw [roundUp_of_wrap hpage hwrap, hall, BitVec.not_lt, BitVec.le_def, BitVec.toNat_allOnes]
        omega
    have hmmap : (Os.granting page).mmap
        (roundUp usableBytes page + roundUp maxAllocSize page) = some page :=
      if_neg (not_or.mpr ⟨hzero, not_le.mpr hfits⟩)
    obtain ⟨storage, process', hmake⟩ : ∃ storage process',
        makeDownwardPoolStorage (Os.granting page) usableBytes maxAllocSize ⟨[], none, []⟩ =
          (.ok storage, process') := by
      simp only [makeDownwardPoolStorage, hsystem, if_neg hpass, mapPoolStorage, hmmap]
      exact ⟨_, _, rfl⟩
    obtain ⟨U, G, hU, hG, hbytes, -⟩ :=
      hexact _ hlawful (Os.granting_page page) _ _ _ hmake
    have hlt := storage.mappingBytes.isLt
    have hosPage : (Os.granting page).page = page.toNat := by
      rw [Os.page, Os.granting_page]
    rw [hosPage] at hU hG
    rw [not_and_or] at hwrap
    rcases hwrap with hwrap | hwrap
    · have hle := le_of_wrap hpage hwrap hU.1.1 hU.1.2
      omega
    · have hle := le_of_wrap hpage hwrap hG.1.1 hG.1.2
      omega
  · rintro hcases os hos rfl
    rcases hcases with ⟨hu, hm⟩ | hunmappable
    · exact sizesExactly_of_noWrap hos hu hm
    · -- no mapping of this length can be granted
      intro process storage process' hmake
      obtain ⟨u, g, rfl, rfl, -, -, hmmap, -⟩ := makeDownwardPoolStorage_ok hos hmake
      exfalso
      rcases hunmappable with hzero | hlarge
      · rw [hzero, hos.mmap_zero] at hmmap
        cases hmmap
      · have hfits := hos.mmap_fits _ _ hmmap
        have hbegin : 0 < storage.mappingBegin.toNat := by
          refine Nat.pos_of_ne_zero fun h => hos.mmap_ne_zero _ _ hmmap ?_
          exact BitVec.eq_of_toNat_eq h
        have hle := Nat.le_of_dvd hbegin (hos.mmap_aligned _ _ hmmap)
        omega

theorem sizing_exact_iff_fixed : SizesExactly Os.fixed 10000 100 := by
  have hpage : (4096 : SizeT).toNat.isPowerOfTwo := ⟨12, rfl⟩
  exact (sizing_exact_iff hpage 10000 100).mpr (Or.inl ⟨by decide, by decide⟩) Os.fixed
    Os.fixed_lawful rfl

/-- The largest number of usable bytes is rounded up to zero: one page is mapped, which is all
guard. -/
theorem wrapped_size_maps_guard_only :
    ∃ (os : Os) (storage : DownwardPoolStorage) (process : Process), os.Lawful ∧
      makeDownwardPoolStorage os (BitVec.allOnes 64) 4096 ⟨[], none, []⟩ =
        (.ok storage, process) ∧
      process.calls = [.mprotect storage.mappingBegin 4096, .mmap 4096] ∧
      ¬ SizesExactly os (BitVec.allOnes 64) 4096 := by
  refine ⟨Os.fixed, ⟨0x10000, 4096⟩, ⟨[⟨0x10000, 4096, 4096⟩], none,
    [.mprotect 0x10000 4096, .mmap 4096]⟩, Os.fixed_lawful, rfl, rfl, fun hexact => ?_⟩
  obtain ⟨U, G, hU, -, hbytes, -⟩ := hexact ⟨[], none, []⟩ _ _ rfl
  have hle : (BitVec.allOnes 64).toNat ≤ U := hU.1.2
  have hU' : U + G = 4096 := hbytes.symm
  rw [BitVec.toNat_allOnes] at hle
  omega

/-! ## The usable bytes of a mapping -/

/-- The usable bytes are what the mapping has besides one page, whatever the guard is. -/
theorem toNat_downwardPoolUsableBytes (hos : os.Lawful) (storage : DownwardPoolStorage) :
    (downwardPoolUsableBytes os storage).toNat = storage.mappingBytes.toNat - os.page := by
  have hsystem : systemPageSizeNoexcept os = BitVec.ofInt 64 os.pageSize :=
    if_neg (not_le.mpr hos.pageSize_pos)
  have hpage : (BitVec.ofInt 64 os.pageSize).toNat = os.page := rfl
  have hpos := hos.page_pos
  have hzero : BitVec.ofInt 64 os.pageSize ≠ 0 := by
    intro h
    rw [h] at hpage
    exact hpos.ne hpage
  unfold downwardPoolUsableBytes
  rw [hsystem]
  split
  · rename_i hbytes
    simp [hbytes]
  · simp only [hzero, false_or]
    split
    · rename_i hle
      rw [BitVec.le_def, hpage] at hle
      simp [Nat.sub_eq_zero_of_le hle]
    · rename_i hlt
      rw [BitVec.not_le] at hlt
      rw [BitVec.toNat_sub_of_le (BitVec.le_of_lt hlt), hpage]

/-- The guard of a request size is one page exactly when the size is not zero and fits a page. -/
theorem ceilTo_eq_self_iff {page : ℕ} (hpage : 0 < page) (n : ℕ) :
    ceilTo n page = page ↔ 1 ≤ n ∧ n ≤ page := by
  have hle := le_ceilTo hpage n
  constructor
  · intro heq
    refine ⟨Nat.pos_of_ne_zero ?_, heq ▸ hle⟩
    rintro rfl
    have := ceilTo_le (Nat.dvd_zero page) le_rfl
    omega
  · rintro ⟨hpos, hn⟩
    have hceil := ceilTo_le (Nat.dvd_refl page) hn
    have := Nat.le_of_dvd (by omega) (dvd_ceilTo n page)
    omega

/-- The usable bytes of a mapping are its accessible length exactly when its guard is one page. -/
theorem usableBytes_eq_accessible_iff {m : Mapping} {maxAlloc : ℕ} (hos : os.Lawful)
    (hm : m.Guards os.page maxAlloc) (hbytes : m.mappingBytes ≠ 0) :
    (downwardPoolUsableBytes os m.storage).toNat = m.hi - m.guardEnd ↔
      m.guardBytes.toNat = os.page := by
  have hpos : 0 < m.mappingBytes.toNat :=
    Nat.pos_of_ne_zero fun h => hbytes (BitVec.eq_of_toNat_eq h)
  have hpage := Nat.le_of_dvd hpos hm.bytes_dvd
  have hguard := hm.guard_le
  rw [toNat_downwardPoolUsableBytes hos]
  unfold Mapping.storage Mapping.hi Mapping.guardEnd
  simp only
  omega

/-! ## The pools of a mapping -/

namespace Pool

/-- A pool whose calls of `allocate` are one subtraction and one rounding. -/
def sequential : Pool → Option DownwardPool
  | downward pool => some pool
  | mutex m => some m.pool
  | nonblocking _ => none

/-- The pool reports the accessible length of its mapping, and a request without alignment that
fits what a sequential pool has left lies in accessible memory. -/
def ReportsCapacity (os : Os) (m : Mapping) (pool : Pool) : Prop :=
  (pool.usableBytes os).toNat = m.hi - m.guardEnd ∧
    ∀ p, pool.sequential = some p → ∀ bytes : SizeT,
      p.usedBytes.toNat + bytes.toNat ≤ (p.usableBytes os).toNat →
      m.Holds ⟨(p.allocate bytes 1).1, bytes, 1⟩

/-- The cursor of a sequential pool lies above address zero, and not above the mapping. -/
def CursorIn (m : Mapping) (pool : Pool) : Prop :=
  ∀ p, pool.sequential = some p → 0 < p.cursor.toNat ∧ p.cursor.toNat ≤ m.hi

variable {pool other pool' other' : Pool} {p : DownwardPool} {m : Mapping} {maxAlloc : ℕ}

theorem usableBytes_eq (os : Os) (pool : Pool) :
    pool.usableBytes os = downwardPoolUsableBytes os pool.storage := by
  cases pool <;> rfl

theorem sequential_storage (h : pool.sequential = some p) : p.storage = pool.storage := by
  cases pool <;> cases h <;> rfl

theorem sequential_cursor (h : pool.sequential = some p) : p.cursor = pool.cursor := by
  cases pool <;> cases h <;> rfl

/-- A new pool starts at the end of its mapping. -/
theorem make_cursor {kind : Kind}
    (h : make kind os usableBytes maxAllocSize process = (.ok pool, process')) :
    pool.cursor = downwardPoolMappingEnd pool.storage := by
  rcases hmake : makeDownwardPoolStorage os usableBytes maxAllocSize process with
    ⟨e | storage, process''⟩
  all_goals
    cases kind with
    | downward =>
      simp only [make, DownwardPool.make, hmake] at h
      cases h <;> rfl
    | mutex =>
      simp only [make, MutexDownwardPool.make, DownwardPool.make, hmake] at h
      cases h <;> rfl
    | nonblocking =>
      simp only [make, NonblockingDownwardPool.make, hmake] at h
      cases h <;> rfl

theorem sequential_reset (pool : Pool) :
    pool.reset.sequential = pool.sequential.map DownwardPool.reset := by
  cases pool <;> rfl

theorem sequential_allocate (bytes alignment : SizeT) (pool : Pool) :
    (pool.allocate bytes alignment).sequential =
      pool.sequential.map fun p => (p.allocate bytes alignment).2 := by
  cases pool <;> rfl

/-- A pool that is moved to becomes the pool that is moved from. -/
theorem moveConstruct_fst (h : other.moveConstruct = some (pool', other')) : pool' = other := by
  cases other <;> cases h <;> rfl

theorem moveAssign_fst (h : pool.moveAssign process other = some ((pool', other'), process')) :
    pool' = other := by
  cases pool <;> cases other <;> cases h <;> rfl

theorem reportsCapacity_of_guard (hos : os.Lawful) (hm : m.Guards os.page maxAlloc)
    (hbytes : m.mappingBytes ≠ 0) (hguard : m.guardBytes.toNat = os.page)
    (hstorage : pool.storage = m.storage) (hcursor : pool.CursorIn m) :
    pool.ReportsCapacity os m := by
  have husable := (usableBytes_eq_accessible_iff hos hm hbytes).mpr hguard
  refine ⟨by rw [usableBytes_eq, hstorage]; exact husable, fun p hp bytes hfit => ?_⟩
  obtain ⟨hpos, hle⟩ := hcursor p hp
  have hp' : p.storage = m.storage := (sequential_storage hp).trans hstorage
  have hne : p.cursor ≠ 0 := by
    intro h
    rw [h] at hpos
    exact absurd hpos (by simp)
  have hused : p.usedBytes.toNat = m.hi - p.cursor.toNat := by
    rw [DownwardPool.usedBytes, hp', toNat_downwardPoolUsedBytes m.storage hm.begin_ne hm.fits hle,
      if_neg hne]
    rfl
  have hpusable : (p.usableBytes os).toNat = m.hi - m.guardEnd := by
    rw [DownwardPool.usableBytes, hp']
    exact husable
  have hend := hm.guardEnd_le_hi
  rw [hused, hpusable] at hfit
  have hone : (1 : SizeT).toNat = 1 := rfl
  have hpow : (1 : SizeT).toNat.isPowerOfTwo := ⟨0, rfl⟩
  obtain ⟨-, htop, hbelow, -⟩ := alignDownwardPoolCursor_spec p.cursor bytes hpow (by omega)
  rw [hone] at hbelow
  -- without alignment the block is cut off exactly below the cursor
  refine ⟨?_, htop.trans hle⟩
  show m.guardEnd ≤ (alignDownwardPoolCursor p.cursor bytes 1).toNat
  omega

end Pool

namespace Objects

/-- An operation during which the mapping `m` is kept: `mmap` answers as it should, no object that
holds `m` lets go of it, and an allocation from it leaves room above address zero. -/
def Keeps (m : Mapping) (s : Objects) : Op → Prop
  | .construct _ _ os _ _ => os.Answers s.process
  | .moveAssign id other => id ≠ other → s.held id ≠ some m.storage
  | .allocate id bytes alignment => ∀ pool p, s.pools id = some pool →
      pool.storage = m.storage → pool.sequential = some p →
      alignment.toNat.isPowerOfTwo ∧ alignment.toNat + bytes.toNat ≤ p.cursor.toNat
  | .release id => s.held id ≠ some m.storage
  | .destroy id => s.held id ≠ some m.storage
  | _ => True

/-- The cursors of the objects that hold the mapping. -/
def CursorsIn (m : Mapping) (s : Objects) : Prop :=
  ∀ id pool, s.pools id = some pool → pool.storage = m.storage → pool.CursorIn m

section

variable {s s' : Objects} {id : ℕ} {pool : Pool} {m : Mapping} {maxAlloc : ℕ}
  {slotted : List Mapping}

theorem CursorsIn.update (h : s.CursorsIn m) (process : Process) (id : ℕ) (x : Option Pool)
    (hx : ∀ p, x = some p → p.storage = m.storage → p.CursorIn m) :
    CursorsIn m ⟨process, Function.update s.pools id x⟩ := by
  intro i p hp
  simp only at hp
  rcases eq_or_ne i id with rfl | hne
  · rw [Function.update_self] at hp
    exact hx p hp
  · rw [Function.update_of_ne hne] at hp
    exact h i p hp

/-- The release of another object's storage keeps the mapping. -/
theorem Ok.mem_of_release (h : s.Ok slotted) (hm : m ∈ s.process.mappings)
    (hid : s.pools id = some pool) (hother : s.held id ≠ some m.storage) :
    m ∈ (releaseDownwardPoolStorage pool.storage s.process).2.mappings := by
  by_cases hzero : pool.storage.mappingBegin = 0
  · rw [h.empty id pool hid hzero, release_empty]
    exact hm
  · have hheld : s.held id = some pool.storage := (held_eq hid).trans (if_neg hzero)
    obtain ⟨m', hm', hstorage⟩ := h.owned.live id _ hheld
    obtain ⟨hmappings, -⟩ := h.process.release hm'
    rw [← hstorage, hmappings]
    refine List.mem_filter.mpr ⟨hm, ?_⟩
    have hne : m.mappingBegin ≠ m'.mappingBegin := by
      intro heq
      rw [h.process.eq_of_begin hm hm' heq, hstorage] at hother
      exact hother hheld
    simpa using hne

/-- What holds of the mapping between two operations that keep it. -/
structure Kept (m : Mapping) (s : Objects) : Prop where
  ok : ∃ slotted, s.Ok slotted
  live : m ∈ s.process.mappings
  cursors : s.CursorsIn m

theorem Kept.nonempty (h : s.Kept m) : m.mappingBegin ≠ 0 ∧ m.mappingBytes ≠ 0 := by
  obtain ⟨slotted, hok⟩ := h.ok
  exact hok.process.nonempty m h.live

theorem Kept.next {op : Op} (hm : m.Guards os.page maxAlloc) (h : s.Kept m) (hkeeps : Keeps m s op)
    (hnext : s.next op = some s') : s'.Kept m := by
  obtain ⟨⟨slotted, hok⟩, hlive, hcursors⟩ := h
  have hos : s.Answers op := by
    cases op with
    | construct => exact hkeeps
    | _ => trivial
  have hempty : ∀ {p : Pool}, p.storage = .empty → p.storage = m.storage → p.CursorIn m :=
    fun hp hp' => absurd (congrArg DownwardPoolStorage.mappingBegin (hp'.symm.trans hp)) hm.begin_ne
  suffices hrest : m ∈ s'.process.mappings ∧ s'.CursorsIn m from
    ⟨⟨_, hok.next hos hnext⟩, hrest.1, hrest.2⟩
  cases op with
  | construct kind id os' usableBytes maxAllocSize =>
    obtain ⟨hid, ⟨pool, process', hmake, rfl⟩ | ⟨e, process', hmake, rfl⟩⟩ := next_construct hnext
    · obtain ⟨m', hstorage, hmappings, hnew, hok'⟩ := hok.construct hos hid hmake
      have hlive' : m ∈ process'.mappings := by simp [hmappings, hlive]
      refine ⟨hlive', hcursors.update _ _ _ fun p hp heq => ?_⟩
      -- the new mapping is not the one that is kept
      obtain rfl := Option.some.inj hp
      have hbegin : m'.mappingBegin = m.mappingBegin :=
        congrArg DownwardPoolStorage.mappingBegin (hstorage.trans heq)
      have hsame := hok'.process.eq_of_begin (by simp [hmappings]) hlive' hbegin
      exact absurd (hsame ▸ hlive) hnew
    · obtain ⟨hmappings, -⟩ := hok.construct_error hmake
      exact ⟨by simpa [hmappings] using hlive, hcursors⟩
  | moveConstruct id other =>
    obtain ⟨-, from_, pool', from', hother, hmove, rfl⟩ := next_moveConstruct hnext
    obtain rfl := Pool.moveConstruct_fst hmove
    obtain ⟨-, hfrom, -⟩ := Pool.moveConstruct_spec hmove
    have hfirst := hcursors.update s.process id (some pool')
      fun p hp => Option.some.inj hp ▸ hcursors other _ hother
    exact ⟨hlive, hfirst.update _ _ _ fun p hp => Option.some.inj hp ▸ hempty hfrom⟩
  | moveAssign id other =>
    obtain ⟨-, rfl⟩ | ⟨hne, pool, from_, pool', from', process', hid, hother, hmove, rfl⟩ :=
      next_moveAssign hnext
    · exact ⟨hlive, hcursors⟩
    · obtain rfl := Pool.moveAssign_fst hmove
      obtain ⟨-, hfrom, -, rfl⟩ := Pool.moveAssign_spec hmove
      have hfirst := hcursors.update (releaseDownwardPoolStorage pool.storage s.process).2 id
        (some pool') fun p hp => Option.some.inj hp ▸ hcursors other _ hother
      exact ⟨hok.mem_of_release hlive hid (hkeeps hne),
        hfirst.update _ _ _ fun p hp => Option.some.inj hp ▸ hempty hfrom⟩
  | allocate id bytes alignment =>
    obtain ⟨pool, hid, rfl⟩ := Option.map_eq_some_iff.mp hnext
    refine ⟨hlive, hcursors.update _ _ _ fun p hp hstorage q hq => ?_⟩
    obtain rfl := Option.some.inj hp
    rw [Pool.storage_allocate] at hstorage
    rw [Pool.sequential_allocate] at hq
    obtain ⟨d, hd, rfl⟩ := Option.map_eq_some_iff.mp hq
    obtain ⟨hpow, hroom⟩ := hkeeps pool d hid hstorage hd
    have hle := (hcursors id pool hid hstorage d hd).2
    obtain ⟨-, htop, hbelow, -⟩ := alignDownwardPoolCursor_spec d.cursor bytes hpow (by omega)
    simp only [DownwardPool.allocate]
    omega
  | reset id =>
    obtain ⟨pool, hid, rfl⟩ := Option.map_eq_some_iff.mp hnext
    refine ⟨hlive, hcursors.update _ _ _ fun p hp hstorage q hq => ?_⟩
    obtain rfl := Option.some.inj hp
    rw [Pool.storage_reset] at hstorage
    rw [Pool.sequential_reset] at hq
    obtain ⟨d, hd, rfl⟩ := Option.map_eq_some_iff.mp hq
    have hend := hm.toNat_mappingEnd
    rw [← hstorage, ← Pool.sequential_storage hd] at hend
    have hpos := hm.lo_pos
    have hlo := hm.lo_le_guardEnd
    have hhi := hm.guardEnd_le_hi
    simp only [DownwardPool.reset]
    omega
  | release id =>
    obtain ⟨pool, hid, rfl⟩ := next_release hnext
    obtain ⟨hrelease, -, -⟩ := Pool.release_spec pool s.process
    exact ⟨hok.mem_of_release hlive hid hkeeps,
      hcursors.update _ _ _ fun p hp => Option.some.inj hp ▸ hempty hrelease⟩
  | destroy id =>
    obtain ⟨pool, hid, rfl⟩ := next_destroy hnext
    exact ⟨hok.mem_of_release hlive hid hkeeps, hcursors.update _ _ _ fun p hp => by cases hp⟩

theorem Kept.run {ops : List Op} (hm : m.Guards os.page maxAlloc) (h : s.Kept m)
    (hkeeps : Along Objects.next (Keeps m) s ops) (hrun : run Objects.next s ops = some s') :
    s'.Kept m :=
  hkeeps.invariant (Keeps m) (fun _ _ _ h hkeeps hnext => h.next hm hkeeps hnext) h hrun

/-- What a construction that does not throw leaves. -/
theorem Ok.kept_of_construct {kind : Kind} (h : s.Ok slotted) (hos : os.Lawful)
    (hanswers : os.Answers s.process) (hm : NoWrap os.page maxAllocSize)
    (hnext : s.next (.construct kind id os usableBytes maxAllocSize) = some s')
    (hpool : s'.pools id = some pool) :
    ∃ m ∈ s'.process.mappings, m.Guards os.page maxAllocSize.toNat ∧ m.storage = pool.storage ∧
      m.guardBytes.toNat = ceilTo maxAllocSize.toNat os.page ∧
      m.hi = m.guardEnd + (roundUp usableBytes (BitVec.ofInt 64 os.pageSize)).toNat ∧
      s'.Kept m := by
  obtain ⟨hid, ⟨pool', process', hmake, rfl⟩ | ⟨e, process', -, rfl⟩⟩ := next_construct hnext
  swap
  · cases hid.symm.trans hpool
  simp only [Function.update_self, Option.some.injEq] at hpool
  subst hpool
  obtain ⟨hprocess, hstorage⟩ := Pool.make_eq kind os usableBytes maxAllocSize s.process
  rw [hmake] at hprocess hstorage
  obtain ⟨m, hguards, hmstorage, hguard, hhi, hmappings⟩ :=
    makeDownwardPoolStorage_guards hos hm (Prod.ext hstorage.symm hprocess.symm)
  obtain ⟨m', -, hmappings', hnew, hok⟩ := h.construct hanswers hid hmake
  obtain rfl : m = m' := (List.cons.inj (hmappings.symm.trans hmappings')).1
  have hlive : m ∈ process'.mappings := by simp [hmappings]
  have hold : s.CursorsIn m := by
    -- no other pool holds the new mapping
    intro i p hp heq
    rcases h.storage_live hp with hempty | ⟨m', hm', hm''⟩
    · have hbegin := congrArg DownwardPoolStorage.mappingBegin (heq.symm.trans hempty)
      exact absurd hbegin hguards.begin_ne
    · have hbegin : m'.mappingBegin = m.mappingBegin :=
        congrArg DownwardPoolStorage.mappingBegin (hm''.trans heq)
      have hsame := hok.process.eq_of_begin (by simp [hmappings, hm']) hlive hbegin
      exact absurd (hsame ▸ hm') hnew
  refine ⟨m, hlive, hguards, hmstorage, hguard, hhi, ⟨_, hok⟩, hlive,
    hold.update _ _ _ fun p hp _ q hq => ?_⟩
  obtain rfl := Option.some.inj hp
  have hend := hguards.toNat_mappingEnd
  rw [Pool.sequential_cursor hq, Pool.make_cursor hmake, ← hmstorage, hend]
  have hpos := hguards.lo_pos
  have hlo := hguards.lo_le_guardEnd
  have hhi' := hguards.guardEnd_le_hi
  omega

end

/-- **When `usable_bytes` is the capacity.** A pool of any of the three types is constructed with
sizes that round up without wrapping, in any reachable state of the process. It holds a mapping
with the rounded `usableBytes` above the guard, which is `maxAllocSize` rounded up. After any
further operations that keep the mapping, the pool that holds it reports the bytes above the guard,
and a request of alignment 1 that fits what a sequential pool has left lies in accessible memory, if
and only if `maxAllocSize` is at least one byte and at most one page. -/
theorem usableBytes_is_capacity_iff {registry : Option (List PoolRegistryEntry)} {ops : List Op}
    {s s₁ : Objects} {kind : Kind} {id : ℕ} {os : Os} {usableBytes maxAllocSize : SizeT}
    {pool : Pool} (hregistry : registry = none ∨ registry = some emptyPoolRegistry)
    (hanswers : Along Objects.next Answers (start registry) ops)
    (hrun : run Objects.next (start registry) ops = some s) (hos : os.Lawful)
    (hos' : os.Answers s.process) (hu : NoWrap os.page usableBytes)
    (hm : NoWrap os.page maxAllocSize)
    (hnext : s.next (.construct kind id os usableBytes maxAllocSize) = some s₁)
    (hpool : s₁.pools id = some pool) :
    ∃ m ∈ s₁.process.mappings, m.storage = pool.storage ∧
      m.guardEnd = m.lo + ceilTo maxAllocSize.toNat os.page ∧
      m.hi = m.guardEnd + ceilTo usableBytes.toNat os.page ∧
      ((∀ ops' s', Along Objects.next (Keeps m) s₁ ops' → run Objects.next s₁ ops' = some s' →
          ∀ i p, s'.pools i = some p → p.storage = m.storage → p.ReportsCapacity os m) ↔
        1 ≤ maxAllocSize.toNat ∧ maxAllocSize.toNat ≤ os.page) := by
  have hok := ok_of_run hregistry hanswers hrun
  obtain ⟨m, hlive, hguards, hstorage, hguard, hhi, hkept⟩ :=
    hok.kept_of_construct hos hos' hm hnext hpool
  have hround := toNat_roundUp hos.pageSize_pow hu
  have hend : m.guardEnd = m.lo + m.guardBytes.toNat := rfl
  rw [hround] at hhi
  refine ⟨m, hlive, hstorage, hguard ▸ hend, hhi, ?_⟩
  rw [← ceilTo_eq_self_iff hos.page_pos, ← hguard]
  constructor
  · intro hreports
    have hbytes := (hkept.nonempty).2
    obtain ⟨husable, -⟩ := hreports [] s₁ trivial rfl id pool hpool hstorage.symm
    rw [Pool.usableBytes_eq, ← hstorage] at husable
    exact (usableBytes_eq_accessible_iff hos hguards hbytes).mp husable
  · intro hpage ops' s' hkeeps hrun' i p hp hpstorage
    have hkept' := hkept.run hguards hkeeps hrun'
    exact Pool.reportsCapacity_of_guard hos hguards hkept'.nonempty.2 hpage hpstorage
      (hkept'.cursors i p hp hpstorage)

/-- A pool for 10000 bytes has three pages above its guard. Moved to another object and reset, it
reports them. -/
theorem usableBytes_is_capacity_iff_moved :
    ∃ s₁ s m p, (start none).next (.construct .downward 0 Os.fixed 10000 4096) = some s₁ ∧
      run Objects.next s₁ [.moveConstruct 1 0, .reset 1] = some s ∧ s.pools 1 = some p ∧
      p.storage = m.storage ∧ m.hi = m.guardEnd + 12288 ∧ p.ReportsCapacity Os.fixed m := by
  have hfacts : ((start none).next (.construct .downward 0 Os.fixed 10000 4096)).bind (fun s₁ =>
      (s₁.pools 0).bind fun pool =>
        (run Objects.next s₁ [.moveConstruct 1 0, .reset 1]).bind fun s =>
          (s.pools 1).map fun p => (pool.storage, p.storage)) =
          some (⟨0x10000, 0x4000⟩, ⟨0x10000, 0x4000⟩) := by rfl
  obtain ⟨s₁, hnext, hfacts⟩ := Option.bind_eq_some_iff.mp hfacts
  obtain ⟨pool, hpool, hfacts⟩ := Option.bind_eq_some_iff.mp hfacts
  obtain ⟨s, hrun, hfacts⟩ := Option.bind_eq_some_iff.mp hfacts
  obtain ⟨p, hp, hstorages⟩ := Option.map_eq_some_iff.mp hfacts
  obtain ⟨hpool', hp'⟩ := Prod.mk.inj hstorages
  have hanswers : Os.fixed.Answers (start none).process :=
    ⟨Os.fixed_lawful.mmap_zero, Os.fixed_lawful.mmap_ne_zero, fun _ _ _ m hm => by cases hm⟩
  have hstart : Along Objects.next Answers (start none) [] := trivial
  obtain ⟨m, -, hstorage, -, hhi, hiff⟩ := usableBytes_is_capacity_iff (Or.inl rfl) hstart rfl
    Os.fixed_lawful hanswers (by decide) (by decide) hnext hpool
  have hkeeps : Along Objects.next (Keeps m) s₁ [.moveConstruct 1 0, .reset 1] :=
    ⟨trivial, fun _ _ => ⟨trivial, fun _ _ => trivial⟩⟩
  have hsame : p.storage = m.storage := by rw [hstorage, hpool', hp']
  exact ⟨s₁, s, m, p, hnext, hrun, hp, hsame, hhi,
    hiff.mpr ⟨by decide, by decide⟩ _ s hkeeps hrun 1 p hp hsame⟩

/-- With two pages of guard, `usable_bytes` counts one of them, and a request that fits what is
reported starts in the guard. -/
theorem usableBytes_counts_guard :
    ∃ (os : Os) (pool : DownwardPool) (process : Process), os.Lawful ∧
      DownwardPool.make os 4096 8192 ⟨[], none, []⟩ = (.ok pool, process) ∧
      ∃ m ∈ process.mappings, m.storage = pool.storage ∧ m.hi - m.guardEnd = 4096 ∧
        pool.usableBytes os = 8192 ∧ pool.usedBytes = 0 ∧
        ¬ m.Holds ⟨(pool.allocate 8192 1).1, 8192, 1⟩ := by
  refine ⟨Os.fixed, ⟨⟨0x10000, 0x3000⟩, 0x13000⟩, ⟨[⟨0x10000, 0x3000, 0x2000⟩], none,
    [.mprotect 0x10000 0x2000, .mmap 0x3000]⟩, Os.fixed_lawful, rfl, ⟨0x10000, 0x3000, 0x2000⟩,
    by simp, rfl, rfl, rfl, rfl, by decide⟩

end Objects

end Doost.Pools
