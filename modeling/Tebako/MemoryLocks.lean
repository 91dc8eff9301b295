import Tebako.Common
import Tebako.Data.Machine
import Tebako.Data.Pages

namespace Tebako

open Data Data.Pages

/-! The memory of an image, parts of which are locked while they are in use.

Pages are numbered by address. An image need not begin where a page does. -/

structure Mfs where
  size : UInt64
  addr : Nat
  pageSize : Int64

/-- Which pages are locked. -/
abbrev LockedPages := Nat → Bool

inductive MfsOp where
  | lock (offset : Int64) (size : UInt64)
  | release (offset : Int64) (size : UInt64)
  | releaseUntil (offset : Int64)

namespace Mfs

variable (mfs : Mfs)

def pageBytes : Nat := mfs.pageSize.toInt.toNat

/-- `mlock` and `munlock` of the host. They round the address down to the beginning
of its page, also where the range is empty. A call that fails changes nothing. -/
def setLocked (locked : Bool) (addr len : Nat) (failure : Option Errno) (pages : LockedPages) :
    Option Errno × LockedPages :=
  match failure with
  | some errno => (some errno, pages)
  | none => (none, fun page =>
      if Meets mfs.pageBytes page (addr / mfs.pageBytes * mfs.pageBytes) (addr + len) then locked else pages page)

def lock (offset : Int64) (size : UInt64) (failure : Option Errno) (pages : LockedPages) :
    Option Errno × LockedPages :=
  mfs.setLocked true (mfs.addr + offset.toInt).toNat size.toNat failure pages

def release (offset : Int64) (size : UInt64) (failure : Option Errno) (pages : LockedPages) :
    Option Errno × LockedPages :=
  let misalign := offset % mfs.pageSize
  let offset := offset - misalign
  let size := size + misalign.toUInt64
  let size := size - size % mfs.pageSize.toUInt64
  mfs.setLocked false (mfs.addr + offset.toInt).toNat size.toNat failure pages

def releaseUntil (offset : Int64) (failure : Option Errno) (pages : LockedPages) : Option Errno × LockedPages :=
  let offset := offset - offset % mfs.pageSize
  mfs.setLocked false mfs.addr offset.toUInt64.toNat failure pages

/-- What a call fails with is up to the host. -/
def step : Machine LockedPages (MfsOp × Option Errno) (Option Errno)
  | (.lock offset size, failure), pages => mfs.lock offset size failure pages
  | (.release offset size, failure), pages => mfs.release offset size failure pages
  | (.releaseUntil offset, failure), pages => mfs.releaseUntil offset failure pages

/-! ## What the calls are for -/

/-- The image fits into memory. -/
structure Mapped : Prop where
  page : 0 < mfs.pageSize.toInt
  size : mfs.size.toNat < 2 ^ 63

/-- The range lies in the image. -/
def Within : MfsOp → Prop
  | .lock offset size => 0 ≤ offset.toInt ∧ offset.toInt + size.toNat ≤ mfs.size.toNat
  | .release offset size => 0 ≤ offset.toInt ∧ offset.toInt + size.toNat ≤ mfs.size.toNat
  | .releaseUntil offset => 0 ≤ offset.toInt ∧ offset.toInt ≤ mfs.size.toNat

/-- The page has something of the block of that number, counted from the
beginning of the image. -/
def Holds (page block : Nat) : Prop :=
  Meets mfs.pageBytes page (mfs.addr + block * mfs.pageBytes) (mfs.addr + (block + 1) * mfs.pageBytes)

/-- The last byte of the block is in the range. -/
def Completes (block : Nat) (offset stop : Int) : Prop :=
  offset < (block + 1) * mfs.pageBytes ∧ (block + 1) * mfs.pageBytes ≤ stop

/-- The block of the offset begins in the page, but not where the page does. -/
def Begins (page : Nat) (offset : Nat) : Prop :=
  Inside mfs.pageBytes page (mfs.addr + offset / mfs.pageBytes * mfs.pageBytes)

/-- A page is locked with each of its bytes, or if the range begins inside of it. -/
def Locks (page : Nat) : MfsOp × Option Errno → Prop
  | (.lock offset size, none) =>
      Meets mfs.pageBytes page (mfs.addr + offset.toInt.toNat) (mfs.addr + offset.toInt.toNat + size.toNat) ∨
        Inside mfs.pageBytes page (mfs.addr + offset.toInt.toNat)
  | _ => False

/-- A page is given back with each of its blocks whose last byte is released, or if
the block that is released first begins inside of it. -/
def Unlocks (page : Nat) : MfsOp × Option Errno → Prop
  | (.release offset size, none) =>
      (∃ block, mfs.Holds page block ∧ mfs.Completes block offset.toInt (offset.toInt + size.toNat)) ∨
        mfs.Begins page offset.toInt.toNat
  | (.releaseUntil offset, none) =>
      (∃ block, mfs.Holds page block ∧ mfs.Completes block 0 offset.toInt) ∨ mfs.Begins page 0
  | _ => False

/-- Releases of adjacent ranges, one after the other. -/
def releases (offset : Nat) : List UInt64 → List (MfsOp × Option Errno)
  | [] => []
  | size :: rest => (.release (Int64.ofNat offset) size, none) :: releases (offset + size.toNat) rest

variable {mfs} {offset : Int64} {size : UInt64} {failure : Option Errno} {pages : LockedPages} {page : Nat}

/-! ## One call -/

theorem setLocked_apply {locked : Bool} {addr len : Nat} :
    (mfs.setLocked locked addr len failure pages).2 page =
      if failure = none ∧ Meets mfs.pageBytes page (addr / mfs.pageBytes * mfs.pageBytes) (addr + len) then locked
      else pages page := by
  cases failure with
  | none => simp [setLocked]
  | some errno => simp [setLocked]

theorem cleared_iff {unlocked : Prop} [Decidable unlocked] {locked : Bool} :
    (if unlocked then false else locked) = true ↔ locked = true ∧ ¬ unlocked := by
  split
  · rename_i unlocked
    simp [unlocked]
  · rename_i kept
    simp [kept]

theorem misalign_toInt (mapped : mfs.Mapped) (nonneg : 0 ≤ offset.toInt) :
    (offset % mfs.pageSize).toInt = (offset.toInt.toNat % mfs.pageBytes : Nat) := by
  rw [Int64.toInt_mod, Int.tmod_eq_emod_of_nonneg nonneg, pageBytes, Int.natCast_emod, Int.toNat_of_nonneg nonneg,
    Int.toNat_of_nonneg mapped.page.le]

theorem aligned_toInt (mapped : mfs.Mapped) (nonneg : 0 ≤ offset.toInt) :
    (offset - offset % mfs.pageSize).toInt = (offset.toInt.toNat / mfs.pageBytes * mfs.pageBytes : Nat) := by
  have misalign := misalign_toInt mapped nonneg
  have split := Nat.div_add_mod' offset.toInt.toNat mfs.pageBytes
  have small := offset.toInt_lt
  rw [Int64.toInt_sub, misalign, Int.bmod_eq_of_le (by omega) (by omega)]
  omega

theorem toUInt64_toNat {value : Int64} (nonneg : 0 ≤ value.toInt) : value.toUInt64.toNat = value.toInt.toNat :=
  Int64.toNat_toUInt64_of_le (Int64.le_iff_toInt_le.mpr nonneg)

/-- The length of what is released, without an overflow on the way. -/
theorem rounded_toNat (mapped : mfs.Mapped) (nonneg : 0 ≤ offset.toInt)
    (inside : offset.toInt + size.toNat ≤ mfs.size.toNat) :
    (size + (offset % mfs.pageSize).toUInt64 -
        (size + (offset % mfs.pageSize).toUInt64) % mfs.pageSize.toUInt64).toNat =
      (offset.toInt.toNat + size.toNat) / mfs.pageBytes * mfs.pageBytes -
        offset.toInt.toNat / mfs.pageBytes * mfs.pageBytes := by
  have misalign := misalign_toInt mapped nonneg
  have positive : 0 < mfs.pageBytes := by
    have page := mapped.page
    rw [pageBytes]
    omega
  have rest : (offset % mfs.pageSize).toUInt64.toNat = offset.toInt.toNat % mfs.pageBytes := by
    rw [toUInt64_toNat (by omega), misalign, Int.toNat_natCast]
  have less := Nat.mod_le offset.toInt.toNat mfs.pageBytes
  have bound := mapped.size
  have sum : (size + (offset % mfs.pageSize).toUInt64).toNat =
      size.toNat + offset.toInt.toNat % mfs.pageBytes := by
    rw [UInt64.toNat_add, rest, Nat.mod_eq_of_lt (by omega)]
  have page : mfs.pageSize.toUInt64.toNat = mfs.pageBytes := toUInt64_toNat mapped.page.le
  rw [UInt64.toNat_sub_of_le _ _ (UInt64.le_iff_toNat_le.mpr (by rw [UInt64.toNat_mod]; exact Nat.mod_le _ _)),
    UInt64.toNat_mod, sum, page, rounded_length positive]

theorem Mapped.pageBytes_pos (mapped : mfs.Mapped) : 0 < mfs.pageBytes := by
  have page := mapped.page
  rw [pageBytes]
  omega

theorem acted_rounded_iff (mapped : mfs.Mapped) {first stop : Nat} (ordered : first ≤ stop) :
    Meets mfs.pageBytes page
        ((mfs.addr + first / mfs.pageBytes * mfs.pageBytes) / mfs.pageBytes * mfs.pageBytes)
        (mfs.addr + first / mfs.pageBytes * mfs.pageBytes +
          (stop / mfs.pageBytes * mfs.pageBytes - first / mfs.pageBytes * mfs.pageBytes)) ↔
      (∃ block, mfs.Holds page block ∧ mfs.Completes block first stop) ∨ mfs.Begins page first := by
  have positive := mapped.pageBytes_pos
  have below := Nat.mul_le_mul_right mfs.pageBytes (@Nat.div_le_div_right _ _ mfs.pageBytes ordered)
  rw [meets_floor_iff positive, Nat.add_assoc, Nat.add_sub_of_le below, meets_blocks positive]
  refine or_congr_left (exists_congr fun block => ?_)
  have whole := @last_in_range mfs.pageBytes first positive block stop
  have casts : mfs.Completes block first stop ↔
      first < (block + 1) * mfs.pageBytes ∧ (block + 1) * mfs.pageBytes ≤ stop := by
    rw [Completes]
    norm_cast
  rw [casts, whole, Holds]
  exact ⟨fun both => ⟨both.2.2, both.1, both.2.1⟩, fun both => ⟨both.2.1, both.2.2, both.1⟩⟩

/-- What one call makes of a page. -/
theorem step_apply (mapped : mfs.Mapped) {op : MfsOp × Option Errno} (within : mfs.Within op.1) :
    (mfs.step op pages).2 page = true ↔
      mfs.Locks page op ∨ pages page = true ∧ ¬ mfs.Unlocks page op := by
  obtain ⟨op, failure⟩ := op
  cases op with
  | lock offset size =>
      obtain ⟨nonneg, inside⟩ := within
      have start : (mfs.addr + offset.toInt).toNat = mfs.addr + offset.toInt.toNat := by omega
      rw [step, lock, setLocked_apply, start]
      cases failure with
      | none => simp [Locks, Unlocks, meets_floor_iff mapped.pageBytes_pos]
      | some errno => simp [Locks, Unlocks]
  | release offset size =>
      obtain ⟨nonneg, inside⟩ := within
      have aligned := aligned_toInt mapped nonneg
      have start : (mfs.addr + (offset - offset % mfs.pageSize).toInt).toNat =
          mfs.addr + offset.toInt.toNat / mfs.pageBytes * mfs.pageBytes := by
        rw [aligned, ← Int.natCast_add, Int.toNat_natCast]
      have same : ((offset.toInt.toNat : Nat) : Int) = offset.toInt := Int.toNat_of_nonneg nonneg
      have meets := @acted_rounded_iff mfs page mapped offset.toInt.toNat _ (Nat.le_add_right _ size.toNat)
      rw [Int.natCast_add, same] at meets
      rw [step, release, setLocked_apply, start, rounded_toNat mapped nonneg inside, cleared_iff, meets]
      cases failure with
      | none => simp only [Locks, Unlocks, true_and, false_or]
      | some errno => simp [Locks, Unlocks]
  | releaseUntil offset =>
      obtain ⟨nonneg, inside⟩ := within
      have aligned := aligned_toInt mapped nonneg
      have length : (offset - offset % mfs.pageSize).toUInt64.toNat =
          offset.toInt.toNat / mfs.pageBytes * mfs.pageBytes := by
        rw [toUInt64_toNat (by omega), aligned, Int.toNat_natCast]
      have same : ((offset.toInt.toNat : Nat) : Int) = offset.toInt := Int.toNat_of_nonneg nonneg
      have meets := @acted_rounded_iff mfs page mapped 0 offset.toInt.toNat (Nat.zero_le _)
      rw [Nat.zero_div, Nat.zero_mul, Nat.add_zero, Nat.sub_zero, same, Int.natCast_zero] at meets
      rw [step, releaseUntil, setLocked_apply, length, cleared_iff, meets]
      cases failure with
      | none => simp only [Locks, Unlocks, true_and, false_or]
      | some errno => simp [Locks, Unlocks]

/-! ## Runs of calls -/

/-- A page inside of which a later block begins has the last byte of the block before. -/
theorem completes_of_begins (mapped : mfs.Mapped) {first stop : Nat} (ordered : first ≤ stop)
    (begins : mfs.Begins page stop) :
    mfs.Begins page first ∨ ∃ block, mfs.Holds page block ∧ mfs.Completes block first stop := by
  have positive := mapped.pageBytes_pos
  rcases (@Nat.div_le_div_right _ _ mfs.pageBytes ordered).eq_or_lt with same | later
  · left
    rwa [Begins, same]
  · right
    obtain ⟨block, next⟩ := Nat.exists_eq_add_one_of_ne_zero (Nat.ne_zero_of_lt later)
    rw [Begins, next] at begins
    obtain ⟨before, behind⟩ := begins
    have length : (block + 1) * mfs.pageBytes = block * mfs.pageBytes + mfs.pageBytes := Nat.succ_mul _ _
    refine ⟨block, ⟨by omega, before, by omega⟩, ?_⟩
    have last := (@last_in_range mfs.pageBytes first positive block stop).mpr ⟨by omega, by omega⟩
    rw [Completes]
    exact_mod_cast last

theorem release_unlocks_iff {offset : Nat} {size : UInt64} (fits : offset < 2 ^ 63) :
    mfs.Unlocks page (.release (Int64.ofNat offset) size, none) ↔
      (∃ block, mfs.Holds page block ∧ mfs.Completes block offset (offset + size.toNat)) ∨
        mfs.Begins page offset := by
  have start : (Int64.ofNat offset).toInt = offset := Int64.toInt_ofNat_of_lt fits
  rw [Unlocks, start, Int.toNat_natCast]

theorem releases_unlock_iff (mapped : mfs.Mapped) {offset : Nat} {size : UInt64} {rest : List UInt64}
    (inside : offset + ((size :: rest).map UInt64.toNat).sum ≤ mfs.size.toNat) :
    (∃ op ∈ releases offset (size :: rest), mfs.Unlocks page op) ↔
      (∃ block, mfs.Holds page block ∧
        mfs.Completes block offset ((offset + ((size :: rest).map UInt64.toNat).sum : Nat) : Int)) ∨
      mfs.Begins page offset := by
  induction rest generalizing offset size with
  | nil =>
      rw [List.map_cons, List.sum_cons] at inside
      have bound := mapped.size
      have first := @release_unlocks_iff mfs page offset size (by omega)
      simpa [releases] using first
  | cons next rest ih =>
      rw [List.map_cons, List.sum_cons] at inside ⊢
      have bound := mapped.size
      have later := @ih (offset + size.toNat) next (by omega)
      rw [releases, List.exists_mem_cons_iff, release_unlocks_iff (by omega), later]
      generalize ((next :: rest).map UInt64.toNat).sum = total at inside ⊢
      have splits (block : Nat) : mfs.Completes block offset ((offset + (size.toNat + total) : Nat) : Int) ↔
          mfs.Completes block offset (offset + size.toNat) ∨
            mfs.Completes block (offset + size.toNat : Nat) ((offset + size.toNat + total : Nat) : Int) := by
        simp only [Completes]
        omega
      simp only [splits, and_or_left, exists_or]
      constructor
      · intro given
        rcases given with (own | begins) | more | begins
        · exact .inl (.inl own)
        · exact .inr begins
        · exact .inl (.inr more)
        · rcases completes_of_begins mapped (Nat.le_add_right offset size.toNat) begins with here | own
          · exact .inr here
          · exact .inl (.inl (by exact_mod_cast own))
      · intro given
        rcases given with (own | more) | begins
        · exact .inl (.inl own)
        · exact .inr (.inl more)
        · exact .inl (.inr begins)

theorem releases_within (mapped : mfs.Mapped) {offset : Nat} {sizes : List UInt64}
    (inside : offset + (sizes.map UInt64.toNat).sum ≤ mfs.size.toNat) :
    ∀ op ∈ releases offset sizes, mfs.Within op.1 ∧ ¬ mfs.Locks page op := by
  induction sizes generalizing offset with
  | nil => exact fun _ none => nomatch none
  | cons size rest ih =>
      rw [List.map_cons, List.sum_cons] at inside
      have bound := mapped.size
      have start : (Int64.ofNat offset).toInt = offset := Int64.toInt_ofNat_of_lt (by omega)
      refine List.forall_mem_cons.mpr ⟨⟨⟨by omega, by omega⟩, not_false⟩, ih (by omega)⟩

theorem after_apply (mapped : mfs.Mapped) {ops : List (MfsOp × Option Errno)} (within : ∀ op ∈ ops, mfs.Within op.1) :
    (Machine.after mfs.step ops pages) page = true ↔
      Machine.SetLast (mfs.Locks page) (mfs.Unlocks page) ops ∨
        pages page = true ∧ ∀ op ∈ ops, ¬ mfs.Unlocks page op :=
  @Machine.held_after_iff _ _ _ mfs.step _ (fun pages => pages page = true) _ _ ops fun op member _ =>
    step_apply mapped (within op member)

/-- In an image that begins at a page every block does. -/
theorem not_begins (mapped : mfs.Mapped) {index offset : Nat} (begins : mfs.addr = index * mfs.pageBytes) :
    ¬ mfs.Begins page offset := by
  have positive := mapped.pageBytes_pos
  rw [Begins, Inside, begins, ← Nat.add_mul, Nat.mul_lt_mul_right positive, Nat.mul_lt_mul_right positive]
  omega

theorem after_releases (mapped : mfs.Mapped) {sizes : List UInt64} (some : sizes ≠ [] ∨ ¬ mfs.Begins page 0)
    (inside : (sizes.map UInt64.toNat).sum ≤ mfs.size.toNat) :
    (Machine.after mfs.step (releases 0 sizes) pages) page = true ↔
      pages page = true ∧
        ¬ ((∃ block, mfs.Holds page block ∧ mfs.Completes block 0 ((sizes.map UInt64.toNat).sum : Nat)) ∨
          mfs.Begins page 0) := by
  have facts (page : Nat) := @releases_within mfs page mapped 0 sizes (by omega)
  have unlocks : (∃ op ∈ releases 0 sizes, mfs.Unlocks page op) ↔
      (∃ block, mfs.Holds page block ∧ mfs.Completes block 0 ((sizes.map UInt64.toNat).sum : Nat)) ∨
        mfs.Begins page 0 := by
    cases sizes with
    | nil =>
        simp only [releases, List.not_mem_nil, false_and, exists_false, List.map_nil, List.sum_nil, Completes,
          some.resolve_left (fun none => none rfl), or_false, false_iff, not_exists, not_and]
        intro block _ before behind
        omega
    | cons size rest =>
        have unlocks := @releases_unlock_iff mfs page mapped 0 size rest (by omega)
        rwa [Nat.zero_add, Int.natCast_zero] at unlocks
  rw [after_apply mapped fun op member => (facts 0 op member).1, ← unlocks]
  constructor
  · intro holds
    rcases holds with ⟨before, op, later, split, locks, _⟩ | ⟨first, kept⟩
    · exact absurd locks (facts page op (by simp [split])).2
    · exact ⟨first, fun unlocked => kept _ unlocked.choose_spec.1 unlocked.choose_spec.2⟩
  · intro holds
    obtain ⟨first, kept⟩ := holds
    exact .inr ⟨first, fun op member unlocked => kept ⟨op, member, unlocked⟩⟩

theorem after_lock_releases (mapped : mfs.Mapped) {sizes : List UInt64} {index block : Nat}
    (inside : (sizes.map UInt64.toNat).sum ≤ mfs.size.toNat) (begins : mfs.addr = index * mfs.pageBytes)
    (free : pages (index + block) = false) :
    (Machine.after mfs.step ((.lock 0 mfs.size, none) :: releases 0 sizes) pages) (index + block) = true ↔
      block * mfs.pageBytes < mfs.size.toNat ∧
        (sizes.map UInt64.toNat).sum < (block + 1) * mfs.pageBytes := by
  have positive := mapped.pageBytes_pos
  have whole : mfs.Within (.lock 0 mfs.size) := ⟨by decide, by simp⟩
  have locked := @step_apply mfs pages (index + block) mapped (.lock 0 mfs.size, none) whole
  have zero : (0 : Int64).toInt.toNat = 0 := rfl
  have meets : mfs.Locks (index + block) (.lock 0 mfs.size, none) ↔ block * mfs.pageBytes < mfs.size.toNat := by
    have before := Nat.add_mul index block mfs.pageBytes
    have behind : (index + block + 1) * mfs.pageBytes = (index + block) * mfs.pageBytes + mfs.pageBytes :=
      Nat.succ_mul _ _
    have outside : ¬ Inside mfs.pageBytes (index + block) (mfs.addr + 0) := by
      simpa [Begins] using @not_begins mfs (index + block) mapped index 0 begins
    rw [Locks, zero, or_iff_left outside, Meets, begins]
    omega
  have blocks (other : Nat) : mfs.Holds (index + block) other ↔ block = other := by
    rw [Holds, begins, meets_block_iff positive]
  have apart : ¬ mfs.Begins (index + block) 0 := not_begins mapped begins
  rw [Machine.after, after_releases mapped (.inr apart) inside, locked, meets, free]
  simp only [blocks, Completes, exists_eq_left', Bool.false_eq_true, false_and, or_false, apart]
  refine and_congr_right fun _ => ?_
  have some : 0 < (block + 1) * mfs.pageBytes := Nat.mul_pos (Nat.succ_pos _) positive
  have casts : ((block : Int) + 1) * mfs.pageBytes = ((block + 1) * mfs.pageBytes : Nat) := by push_cast; rfl
  rw [casts]
  omega

end Mfs

/-- Over every run of calls, a page is locked exactly when the last call that
concerned it locked it. Adjacent releases give back what one release of all of it
gives back, and leave the pages of an image at whose beginning a page begins that
have not been released in full. -/
theorem memory_locks_exact (mfs : Mfs) (mapped : mfs.Mapped) :
    (∀ ops pages page, (∀ op ∈ ops, mfs.Within op.1) →
      ((Machine.after mfs.step ops pages) page = true ↔
        Machine.SetLast (mfs.Locks page) (mfs.Unlocks page) ops ∨
          pages page = true ∧ ∀ op ∈ ops, ¬ mfs.Unlocks page op)) ∧
    ∀ sizes : List UInt64, (sizes.map UInt64.toNat).sum ≤ mfs.size.toNat →
      (sizes ≠ [] → ∀ pages, Machine.after mfs.step (Mfs.releases 0 sizes) pages =
        Machine.after mfs.step [(.releaseUntil (Int64.ofNat (sizes.map UInt64.toNat).sum), none)] pages) ∧
      ∀ pages index block, mfs.addr = index * mfs.pageBytes → pages (index + block) = false →
        ((Machine.after mfs.step ((.lock 0 mfs.size, none) :: Mfs.releases 0 sizes) pages) (index + block) = true ↔
          block * mfs.pageBytes < mfs.size.toNat ∧
            (sizes.map UInt64.toNat).sum < (block + 1) * mfs.pageBytes) := by
  refine ⟨fun ops pages page within => Mfs.after_apply mapped within, fun sizes inside => ⟨fun some pages => ?_, ?_⟩⟩
  · funext page
    have size := mapped.size
    have total : (Int64.ofNat (sizes.map UInt64.toNat).sum).toInt = ((sizes.map UInt64.toNat).sum : Nat) :=
      Int64.toInt_ofNat_of_lt (by omega)
    have within : mfs.Within (.releaseUntil (Int64.ofNat (sizes.map UInt64.toNat).sum)) :=
      ⟨by omega, by omega⟩
    have once := @Mfs.step_apply mfs pages page mapped
      (.releaseUntil (Int64.ofNat (sizes.map UInt64.toNat).sum), none) within
    rw [Mfs.Locks, Mfs.Unlocks, total, false_or] at once
    · rw [Bool.eq_iff_iff, Mfs.after_releases mapped (.inl some) inside]
      exact once.symm
    · nofun
  · exact fun pages index block begins free => Mfs.after_lock_releases mapped inside begins free

/-- Three pages, the last one not in full. -/
def threePages : Mfs := ⟨10000, 8192, 4096⟩

theorem two_releases :
    Machine.after threePages.step (Mfs.releases 0 [3000, 3000]) (fun _ => true) =
        Machine.after threePages.step [(.releaseUntil (Int64.ofNat 6000), none)] (fun _ => true) ∧
      (Machine.after threePages.step ((.lock 0 threePages.size, none) :: Mfs.releases 0 [3000, 3000])
        (fun _ => false)) 3 = true := by
  obtain ⟨alike, left⟩ := (memory_locks_exact threePages ⟨by decide, by decide⟩).2 [3000, 3000] (by decide)
  exact ⟨alike (by decide) _, (left _ 2 1 (by decide) rfl).mpr (by decide)⟩

end Tebako
