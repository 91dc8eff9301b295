import Tebako.MountState

namespace Tebako

open Data Data.Machine Data.OrderedMap

/-! Threads that mount images at the same time.

Mounting takes three steps: the image is entered in the memfs table, it is
loaded, and it is given its mount point, or taken out of the table again. The
locks of the tables are held for the first and the last step only. While threads
mount, no table is cleared. -/

structure MountRequest where
  image : ImageSource
  parentInode : UInt32
  folder : CString

/-- Where the mounting of a thread is: about to load the image that it has
entered, or done with that. -/
inductive MountCall where
  | load (request : MountRequest) (index : UInt32)
  | finish (request : MountRequest) (index : UInt32) (code : Int)

/-- The threads that have a mounting under way. `returned` is not known to the
library: the requests that were answered with an index. -/
structure MountThreads where
  globals : Globals
  calls : Std.ExtTreeMap Nat MountCall
  returned : List (MountRequest × UInt32)

inductive MountThreadOp where
  | mount (thread : Nat) (request : MountRequest)
  | goOn (thread : Nat)
  | mountPath (parentInode : UInt32) (folder target : CString)

namespace MountRequest

variable (request : MountRequest)

def point : TebakoMountPoint := (request.parentInode, request.folder.chars)

/-- The object that is entered in the table. -/
def registered (options : MemfsOptions) (index : UInt32) : Memfs :=
  (makeMemfs options request.image.data request.image.size).setRootInode
    (fsInoFromFsAndIno index 0).toUInt32

def loaded (loader : Loader) (options : MemfsOptions) (index : UInt32) : Int × Memfs :=
  (request.registered options index).load loader request.image.imageOffset

end MountRequest

def MountCall.index : MountCall → UInt32
  | .load _ index => index
  | .finish _ index _ => index

namespace MountThreads

variable (loader : Loader) (s : MountThreads)

def begin (thread : Nat) (request : MountRequest) : MountThreads :=
  let (index, table) := s.globals.memfsTable.insertAuto
    (makeMemfs s.globals.options request.image.data request.image.size)
  { s with
    globals := { s.globals with memfsTable := table }
    calls := s.calls.insert thread (.load request index) }

/-- The next step of a mounting. -/
def goOn (thread : Nat) : Option Int × MountThreads :=
  match s.calls[thread]? with
  | none => (none, s)
  | some (.load request index) =>
      let (code, table) := s.globals.memfsTable.load loader request.image.imageOffset index
      (none, { s with
        globals := { s.globals with memfsTable := table }
        calls := s.calls.insert thread (.finish request index code) })
  | some (.finish request index code) =>
      if code ≠ 0 then
        (some (-1), { s with
          globals := { s.globals with memfsTable := Std.ExtTreeMap.erase s.globals.memfsTable index }
          calls := s.calls.erase thread })
      else
        let (res, mountTable) := s.globals.mountTable.insert request.point (.memfs index)
        (some (if res then index.toNat else -1),
          { globals := { s.globals with mountTable := mountTable }
            calls := s.calls.erase thread
            returned := if res then (request, index) :: s.returned else s.returned })

end MountThreads

def mountThreadStep (loader : Loader) : Machine MountThreads MountThreadOp (Option Int)
  | .mount thread request, s => (none, s.begin thread request)
  | .goOn thread, s => s.goOn loader thread
  | .mountPath parentInode folder target, s =>
      (some 0, { s with globals := { s.globals with
        mountTable := (s.globals.mountTable.insert (parentInode, folder.chars) (.path target)).2 } })

/-- A thread makes one call after another, and finds a slot. -/
def MountThreads.Allowed (s : MountThreads) : MountThreadOp → Prop
  | .mount thread _ => s.calls[thread]? = none ∧ ¬ s.globals.Full
  | _ => True

section Alone

variable {loader : Loader} {s : MountThreads} {thread : Nat} {request : MountRequest}

theorem insert_erase_of_none (idle : s.calls[thread]? = none) (first second : MountCall) :
    ((s.calls.insert thread first).insert thread second).erase thread = s.calls := by
  have absent : thread ∉ s.calls := by
    intro present
    obtain ⟨call, waiting⟩ := exists_of_mem present
    rw [idle] at waiting
    cases waiting
  rw [insert_insert, erase_insert, erase_of_not_mem absent]

/-- A thread that is not disturbed does what `mount_memfs` does. -/
theorem mount_alone (idle : s.calls[thread]? = none) :
    ∃ done, ((s.begin thread request).goOn loader thread).2.goOn loader thread =
        (some (mountMemfs loader request.image request.parentInode request.folder s.globals).1, done) ∧
      done.globals = (mountMemfs loader request.image request.parentInode request.folder s.globals).2 ∧
      done.calls = s.calls := by
  cases entered : s.globals.memfsTable.insertAuto
      (makeMemfs s.globals.options request.image.data request.image.size) with
  | mk index table =>
      cases loads : table.load loader request.image.imageOffset index with
      | mk code after =>
          have none := insert_erase_of_none idle (.load request index) (.finish request index code)
          have notError : (index.toNat : Int) ≠ -1 := by omega
          by_cases failed : code = 0
          · subst failed
            cases inserted : s.globals.mountTable.insert request.point (.memfs index) with
            | mk res mountTable =>
                have point : s.globals.mountTable.insert (request.parentInode, request.folder.chars)
                    (.memfs index) = (res, mountTable) := inserted
                simp only [MountThreads.begin, MountThreads.goOn, entered, loads, inserted, point, none,
                  mountMemfs, loadMemfs, Std.ExtTreeMap.getElem?_insert_self, ne_eq, notError,
                  not_true_eq_false, not_false_eq_true, ↓reduceIte, Int.toNat_natCast, UInt32.ofNat_toNat]
                exact ⟨_, rfl, rfl, rfl⟩
          · simp only [MountThreads.begin, MountThreads.goOn, entered, loads, none, mountMemfs, loadMemfs,
              Std.ExtTreeMap.getElem?_insert_self, ne_eq, failed, not_true_eq_false, not_false_eq_true, ↓reduceIte]
            exact ⟨_, rfl, rfl, rfl⟩

end Alone

/-! ## All threads together -/

/-- The image has been loaded, with the offset of its index. -/
def LoadedAt (loader : Loader) (options : MemfsOptions) (request : MountRequest) (index : UInt32)
    (memfs : Memfs) : Prop :=
  request.loaded loader options index = (0, memfs)

namespace MountThreads

/-- What a call finds in its slot. -/
def Holds (loader : Loader) (s : MountThreads) : MountCall → Prop
  | .load request index =>
      s.globals.memfsTable[index]? = some (request.registered s.globals.options index)
  | .finish request index code =>
      s.globals.memfsTable[index]? = some (request.loaded loader s.globals.options index).2 ∧
        code = (request.loaded loader s.globals.options index).1

/-- The slot is that of a call that is under way. -/
def Occupied (s : MountThreads) (index : UInt32) : Prop :=
  ∃ (thread : Nat) (call : MountCall), s.calls[thread]? = some call ∧ call.index = index

/-- The image of a request that was answered is where it is mounted. -/
structure Settled (loader : Loader) (g : Globals) (s : MountThreads) (request : MountRequest)
    (index : UInt32) : Prop where
  new : index ∉ g.memfsTable
  idle : ¬ s.Occupied index
  loaded : ∃ memfs, s.globals.memfsTable[index]? = some memfs ∧
    LoadedAt loader g.options request index memfs
  mounted : s.globals.mountTable[request.point]? = some (.memfs index)

structure Consistent (loader : Loader) (g : Globals) (s : MountThreads) : Prop where
  options : s.globals.options = g.options
  images : ∀ {index : UInt32} {memfs : Memfs}, g.memfsTable[index]? = some memfs →
    s.globals.memfsTable[index]? = some memfs
  mounts : ∀ {point : TebakoMountPoint} {target : TebakoMountTarget}, g.mountTable[point]? = some target →
    s.globals.mountTable[point]? = some target
  holds : ∀ {thread : Nat} {call : MountCall}, s.calls[thread]? = some call →
    s.Holds loader call ∧ call.index ∉ g.memfsTable
  single : ∀ {thread other : Nat} {call otherCall : MountCall}, s.calls[thread]? = some call →
    s.calls[other]? = some otherCall → call.index = otherCall.index → thread = other
  added : ∀ {index : UInt32} {memfs : Memfs}, s.globals.memfsTable[index]? = some memfs →
    g.memfsTable[index]? = some memfs ∨ s.Occupied index ∨ ∃ request, LoadedAt loader g.options request index memfs
  settled : ∀ {request : MountRequest} {index : UInt32}, (request, index) ∈ s.returned →
    s.Settled loader g request index
  distinct : s.returned.Pairwise fun entry other => entry.2 ≠ other.2
  points : ∀ {point : TebakoMountPoint} {index : UInt32}, s.globals.mountTable[point]? = some (.memfs index) →
    g.mountTable[point]? = some (.memfs index) ∨ ∃ request, (request, index) ∈ s.returned

variable {loader : Loader} {g : Globals} {s : MountThreads} {thread : Nat} {request : MountRequest}
variable {index : UInt32}

theorem consistent_initial : Consistent loader g ⟨g, ∅, []⟩ where
  options := rfl
  images held := held
  mounts mount := mount
  holds waiting := by simp at waiting
  single waiting := by simp at waiting
  added held := .inl held
  settled member := by cases member
  distinct := .nil
  points mount := .inl mount

theorem Holds.held {call : MountCall} (holds : s.Holds loader call) : call.index ∈ s.globals.memfsTable := by
  cases call with
  | load request index => exact mem_of_getElem? holds
  | finish request index code => exact mem_of_getElem? holds.1

theorem Consistent.held (consistent : s.Consistent loader g) (occupied : s.Occupied index) :
    index ∈ s.globals.memfsTable ∧ index ∉ g.memfsTable := by
  obtain ⟨thread, call, waiting, rfl⟩ := occupied
  obtain ⟨holds, new⟩ := consistent.holds waiting
  exact ⟨holds.held, new⟩

/-- A thread has put an image in a slot. -/
def place (s : MountThreads) (thread : Nat) (call : MountCall) (memfs : Memfs) : MountThreads :=
  { s with
    globals := { s.globals with memfsTable := Std.ExtTreeMap.insert s.globals.memfsTable call.index memfs }
    calls := s.calls.insert thread call }

/-- What another call finds in its slot does not change. -/
theorem Holds.place {call own : MountCall} {memfs : Memfs} (holds : s.Holds loader call)
    (different : call.index ≠ own.index) : (s.place thread own memfs).Holds loader call := by
  cases call with
  | load request other => exact (getElem?_insert_ne different).trans holds
  | finish request other code => exact ⟨(getElem?_insert_ne different).trans holds.1, holds.2⟩

/-- A thread puts an image in a slot that is no other thread's. -/
theorem Consistent.place {call : MountCall} {memfs : Memfs} (consistent : s.Consistent loader g)
    (new : call.index ∉ g.memfsTable)
    (own : ∀ other otherCall, s.calls[other]? = some otherCall → (otherCall.index = call.index ↔ other = thread))
    (unsettled : ∀ request, (request, call.index) ∉ s.returned)
    (holds : (s.place thread call memfs).Holds loader call) :
    (s.place thread call memfs).Consistent loader g := by
  have occupied : ∀ index, (s.place thread call memfs).Occupied index ↔
      index = call.index ∨ s.Occupied index := by
    intro index
    constructor
    · intro taken
      obtain ⟨other, otherCall, waiting, rfl⟩ := taken
      rcases getElem?_insert_iff.mp waiting with ⟨_, rfl⟩ | ⟨_, before⟩
      · exact .inl rfl
      · exact .inr ⟨other, otherCall, before, rfl⟩
    · intro taken
      rcases taken with rfl | ⟨other, otherCall, before, rfl⟩
      · exact ⟨thread, call, Std.ExtTreeMap.getElem?_insert_self, rfl⟩
      · by_cases same : other = thread
        · exact ⟨thread, call, Std.ExtTreeMap.getElem?_insert_self, ((own _ _ before).mpr same).symm⟩
        · exact ⟨other, otherCall, getElem?_insert_iff.mpr (.inr ⟨same, before⟩), rfl⟩
  constructor
  · exact consistent.options
  · intro index image held
    have different : index ≠ call.index := fun same => new (same ▸ mem_of_getElem? held)
    exact (getElem?_insert_ne different).trans (consistent.images held)
  · exact consistent.mounts
  · intro other otherCall waiting
    rcases getElem?_insert_iff.mp waiting with ⟨_, rfl⟩ | ⟨different, before⟩
    · exact ⟨holds, new⟩
    · obtain ⟨held, absent⟩ := consistent.holds before
      exact ⟨held.place fun same => different ((own _ _ before).mp same), absent⟩
  · intro first second firstCall secondCall atFirst atSecond same
    rcases getElem?_insert_iff.mp atFirst with ⟨rfl, rfl⟩ | ⟨_, before⟩
    · rcases getElem?_insert_iff.mp atSecond with ⟨rfl, _⟩ | ⟨_, other⟩
      · rfl
      · exact ((own _ _ other).mp same.symm).symm
    · rcases getElem?_insert_iff.mp atSecond with ⟨rfl, rfl⟩ | ⟨_, other⟩
      · exact (own _ _ before).mp same
      · exact consistent.single before other same
  · intro index image held
    rcases getElem?_insert_iff.mp held with ⟨rfl, _⟩ | ⟨_, before⟩
    · exact .inr (.inl ((occupied _).mpr (.inl rfl)))
    · rcases consistent.added before with old | taken | loaded
      · exact .inl old
      · exact .inr (.inl ((occupied _).mpr (.inr taken)))
      · exact .inr (.inr loaded)
  · intro request index member
    have settled := consistent.settled member
    have different : index ≠ call.index := fun same => unsettled request (same ▸ member)
    obtain ⟨image, held, loaded⟩ := settled.loaded
    refine ⟨settled.new, ?_, ⟨image, (getElem?_insert_ne different).trans held, loaded⟩, settled.mounted⟩
    intro taken
    exact ((occupied index).mp taken).elim different settled.idle
  · exact consistent.distinct
  · exact consistent.points

theorem Consistent.begin (consistent : s.Consistent loader g) (idle : s.calls[thread]? = none)
    (room : ¬ s.globals.Full) : (s.begin thread request).Consistent loader g := by
  have slot : s.globals.nextSlot request.image ≠ 0 := fun none => room (nextSlot_eq_zero_iff.mp none)
  obtain ⟨absent, _, _, same⟩ := MemfsTable.insertAuto_spec slot
  rw [insertIfNew_of_not_mem absent] at same
  have entered : s.begin thread request = s.place thread (.load request (s.globals.nextSlot request.image))
      (request.registered s.globals.options (s.globals.nextSlot request.image)) := by
    simp only [MountThreads.begin, same]
    rfl
  rw [entered]
  apply consistent.place
  · intro old
    obtain ⟨memfs, held⟩ := exists_of_mem old
    exact absent (mem_of_getElem? (consistent.images held))
  · intro other otherCall waiting
    constructor
    · intro taken
      have held := (consistent.held ⟨other, otherCall, waiting, rfl⟩).1
      rw [taken] at held
      exact absurd held absent
    · intro here
      rw [here, idle] at waiting
      cases waiting
  · intro other member
    obtain ⟨memfs, held, _⟩ := (consistent.settled member).loaded
    exact absent (mem_of_getElem? held)
  · exact Std.ExtTreeMap.getElem?_insert_self

/-- The slot of a call is its own. -/
theorem Consistent.own {call : MountCall} (consistent : s.Consistent loader g)
    (waiting : s.calls[thread]? = some call) (other : Nat) (otherCall : MountCall)
    (there : s.calls[other]? = some otherCall) : otherCall.index = call.index ↔ other = thread := by
  constructor
  · exact fun same => consistent.single there waiting same
  · intro same
    rw [same, waiting] at there
    exact congrArg MountCall.index (Option.some.inj there).symm

theorem Consistent.load (consistent : s.Consistent loader g)
    (waiting : s.calls[thread]? = some (.load request index)) :
    (s.goOn loader thread).2.Consistent loader g := by
  obtain ⟨held, new⟩ := consistent.holds waiting
  have held : s.globals.memfsTable[index]? = some (request.registered s.globals.options index) := held
  have loads : (s.goOn loader thread).2 =
      s.place thread (.finish request index (request.loaded loader s.globals.options index).1)
        (request.loaded loader s.globals.options index).2 := by
    simp only [MountThreads.goOn, waiting, MemfsTable.load, held, modify_of_getElem? held]
    rfl
  rw [loads]
  apply consistent.place
  · exact new
  · exact fun other otherCall there => consistent.own waiting other otherCall there
  · intro other member
    exact (consistent.settled member).idle ⟨thread, _, waiting, rfl⟩
  · exact ⟨Std.ExtTreeMap.getElem?_insert_self, rfl⟩

/-- When a call has ended, its slot is not occupied any more, and others are as before. -/
theorem Consistent.occupied_ended {call : MountCall} {globals : Globals} {returned : List (MountRequest × UInt32)}
    (consistent : s.Consistent loader g) (waiting : s.calls[thread]? = some call) (other : UInt32) :
    Occupied ⟨globals, s.calls.erase thread, returned⟩ other ↔ other ≠ call.index ∧ s.Occupied other := by
  constructor
  · intro taken
    obtain ⟨otherThread, otherCall, there, rfl⟩ := taken
    obtain ⟨different, before⟩ := getElem?_erase_iff.mp there
    refine ⟨fun same => different (consistent.single before waiting same), ?_⟩
    exact ⟨otherThread, otherCall, before, rfl⟩
  · intro taken
    obtain ⟨different, otherThread, otherCall, before, rfl⟩ := taken
    refine ⟨otherThread, otherCall, getElem?_erase_iff.mpr ⟨fun same => different ?_, before⟩, rfl⟩
    rw [same, waiting] at before
    rw [Option.some.inj before]

theorem Consistent.giveUp {code : Int} (consistent : s.Consistent loader g)
    (waiting : s.calls[thread]? = some (.finish request index code)) :
    Consistent loader g { s with
      globals := { s.globals with memfsTable := Std.ExtTreeMap.erase s.globals.memfsTable index }
      calls := s.calls.erase thread } := by
  have new : index ∉ g.memfsTable := (consistent.holds waiting).2
  have taken : s.Occupied index := ⟨thread, _, waiting, rfl⟩
  constructor
  · exact consistent.options
  · intro other memfs held
    have different : other ≠ index := fun same => new (same ▸ mem_of_getElem? held)
    exact (getElem?_erase_ne different).trans (consistent.images held)
  · exact consistent.mounts
  · intro other call there
    obtain ⟨different, before⟩ := getElem?_erase_iff.mp there
    obtain ⟨holds, absent⟩ := consistent.holds before
    have apart : call.index ≠ index := fun same => different (consistent.single before waiting same)
    refine ⟨?_, absent⟩
    cases call with
    | load request other => exact (getElem?_erase_ne apart).trans holds
    | finish request other code => exact ⟨(getElem?_erase_ne apart).trans holds.1, holds.2⟩
  · intro first second firstCall secondCall atFirst atSecond same
    exact consistent.single (getElem?_erase_iff.mp atFirst).2 (getElem?_erase_iff.mp atSecond).2 same
  · intro other memfs held
    obtain ⟨different, before⟩ := getElem?_erase_iff.mp held
    rcases consistent.added before with old | occupied | loaded
    · exact .inl old
    · exact .inr (.inl ((consistent.occupied_ended waiting other).mpr ⟨different, occupied⟩))
    · exact .inr (.inr loaded)
  · intro other place member
    have settled := consistent.settled member
    have different : place ≠ index := fun same => settled.idle (same ▸ taken)
    obtain ⟨memfs, held, loaded⟩ := settled.loaded
    refine ⟨settled.new, ?_, ⟨memfs, (getElem?_erase_ne different).trans held, loaded⟩, settled.mounted⟩
    exact fun occupied => settled.idle ((consistent.occupied_ended waiting place).mp occupied).2
  · exact consistent.distinct
  · exact consistent.points

/-- An image that is loaded gets its mount point, unless that is taken. -/
theorem Consistent.publish {mountTable : MountTable} {returned : List (MountRequest × UInt32)}
    (consistent : s.Consistent loader g) (waiting : s.calls[thread]? = some (.finish request index 0))
    (result : request.point ∈ s.globals.mountTable ∧ mountTable = s.globals.mountTable ∧ returned = s.returned ∨
      request.point ∉ s.globals.mountTable ∧
        mountTable = Std.ExtTreeMap.insert s.globals.mountTable request.point (.memfs index) ∧
        returned = (request, index) :: s.returned) :
    Consistent loader g ⟨{ s.globals with mountTable := mountTable }, s.calls.erase thread, returned⟩ := by
  obtain ⟨⟨held, code⟩, new⟩ := consistent.holds waiting
  have taken : s.Occupied index := ⟨thread, _, waiting, rfl⟩
  have loaded : LoadedAt loader g.options request index (request.loaded loader g.options index).2 :=
    Prod.ext (consistent.options ▸ code.symm) rfl
  rw [consistent.options] at held
  have kept : ∀ (point : TebakoMountPoint) (target : TebakoMountTarget),
      s.globals.mountTable[point]? = some target → mountTable[point]? = some target := by
    intro point target mount
    rcases result with ⟨_, rfl, _⟩ | ⟨free, rfl, _⟩
    · exact mount
    · have different : point ≠ request.point := by
        intro same
        subst same
        exact free (mem_of_getElem? mount)
      exact (getElem?_insert_ne different).trans mount
  constructor
  · exact consistent.options
  · exact consistent.images
  · exact fun mount => kept _ _ (consistent.mounts mount)
  · intro other call there
    obtain ⟨holds, absent⟩ := consistent.holds (getElem?_erase_iff.mp there).2
    cases call <;> exact ⟨holds, absent⟩
  · intro first second firstCall secondCall atFirst atSecond same
    exact consistent.single (getElem?_erase_iff.mp atFirst).2 (getElem?_erase_iff.mp atSecond).2 same
  · intro other memfs there
    rcases consistent.added there with old | occupied | done
    · exact .inl old
    · by_cases same : other = index
      · subst same
        obtain rfl := Option.some.inj (held.symm.trans there)
        exact .inr (.inr ⟨request, loaded⟩)
      · exact .inr (.inl ((consistent.occupied_ended waiting other).mpr ⟨same, occupied⟩))
    · exact .inr (.inr done)
  · intro other place member
    have before : ∀ {other place}, (other, place) ∈ s.returned → Settled loader g
        ⟨{ s.globals with mountTable := mountTable }, s.calls.erase thread, returned⟩ other place := by
      intro other place member
      have settled := consistent.settled member
      refine ⟨settled.new, ?_, settled.loaded, kept _ _ settled.mounted⟩
      exact fun occupied => settled.idle ((consistent.occupied_ended waiting place).mp occupied).2
    rcases result with ⟨_, rfl, rfl⟩ | ⟨free, rfl, rfl⟩
    · exact before member
    · rcases List.mem_cons.mp member with same | earlier
      · cases same
        refine ⟨new, ?_, ⟨_, held, loaded⟩, Std.ExtTreeMap.getElem?_insert_self⟩
        exact fun occupied => ((consistent.occupied_ended waiting index).mp occupied).1 rfl
      · exact before earlier
  · rcases result with ⟨_, _, rfl⟩ | ⟨_, _, rfl⟩
    · exact consistent.distinct
    · refine List.pairwise_cons.mpr ⟨?_, consistent.distinct⟩
      intro entry member same
      exact (consistent.settled member).idle (same ▸ taken)
  · intro point place mount
    rcases result with ⟨_, rfl, rfl⟩ | ⟨free, rfl, rfl⟩
    · exact consistent.points mount
    · rcases getElem?_insert_iff.mp mount with ⟨_, same⟩ | ⟨_, earlier⟩
      · cases same
        exact .inr ⟨request, List.mem_cons_self ..⟩
      · rcases consistent.points earlier with old | ⟨other, member⟩
        · exact .inl old
        · exact .inr ⟨other, List.mem_cons_of_mem _ member⟩

theorem Consistent.goOn (consistent : s.Consistent loader g) (thread : Nat) :
    (s.goOn loader thread).2.Consistent loader g := by
  cases waiting : s.calls[thread]? with
  | none =>
      simp only [MountThreads.goOn, waiting]
      exact consistent
  | some call =>
      cases call with
      | load request index => exact consistent.load waiting
      | finish request index code =>
          by_cases failed : code = 0
          · subst failed
            simp only [MountThreads.goOn, waiting, ne_eq, not_true_eq_false, ↓reduceIte, MountTable.insert]
            apply consistent.publish waiting
            by_cases taken : request.point ∈ s.globals.mountTable
            · exact .inl ⟨taken, insertIfNew_of_mem taken _, by simp [taken]⟩
            · exact .inr ⟨taken, insertIfNew_of_not_mem taken _, by simp [taken]⟩
          · simp only [MountThreads.goOn, waiting, ne_eq, failed, not_false_eq_true, ↓reduceIte]
            exact consistent.giveUp waiting

theorem Consistent.mountPath (consistent : s.Consistent loader g) (point : TebakoMountPoint) (target : CString) :
    Consistent loader g { s with globals := { s.globals with
      mountTable := (s.globals.mountTable.insert point (.path target)).2 } } := by
  have kept : ∀ {other : TebakoMountPoint} {there : TebakoMountTarget}, s.globals.mountTable[other]? = some there →
      (s.globals.mountTable.insert point (.path target)).2[other]? = some there := by
    intro other there mount
    rw [MountTable.insert, Std.ExtTreeMap.getElem?_insertIfNew, if_neg]
    · exact mount
    · intro new
      rw [Std.LawfulEqCmp.compare_eq_iff_eq] at new
      exact new.2 (new.1 ▸ mem_of_getElem? mount)
  constructor
  · exact consistent.options
  · exact consistent.images
  · exact fun mount => kept (consistent.mounts mount)
  · intro thread call waiting
    obtain ⟨holds, new⟩ := consistent.holds waiting
    cases call <;> exact ⟨holds, new⟩
  · exact consistent.single
  · exact consistent.added
  · intro request index member
    have settled := consistent.settled member
    exact ⟨settled.new, settled.idle, settled.loaded, kept settled.mounted⟩
  · exact consistent.distinct
  · intro other index mount
    rw [MountTable.insert, Std.ExtTreeMap.getElem?_insertIfNew] at mount
    split at mount
    · cases mount
    · exact consistent.points mount

end MountThreads

/-- However threads interleave, an image that a call has mounted is the one it
was given, loaded, in a slot of its own; no mount point ever leads to an image
that is still being loaded; what was mounted before stays; and when all calls
have ended, no image that could not be loaded is left. -/
theorem concurrent_mounts_sound (loader : Loader) (g : Globals) (s : MountThreads)
    (reached : Reaches (mountThreadStep loader) MountThreads.Allowed ⟨g, ∅, []⟩ s) :
    (∀ request index, (request, index) ∈ s.returned → s.Settled loader g request index) ∧
    s.returned.Pairwise (fun entry other => entry.2 ≠ other.2) ∧
    (∀ (point : TebakoMountPoint) index, s.globals.mountTable[point]? = some (.memfs index) →
      g.mountTable[point]? = some (.memfs index) ∨
        ∃ request memfs, s.globals.memfsTable[index]? = some memfs ∧
          LoadedAt loader g.options request index memfs) ∧
    (∀ (index : UInt32) memfs, g.memfsTable[index]? = some memfs → s.globals.memfsTable[index]? = some memfs) ∧
    (∀ (point : TebakoMountPoint) target, g.mountTable[point]? = some target →
      s.globals.mountTable[point]? = some target) ∧
    (s.calls = ∅ → ∀ (index : UInt32) memfs, s.globals.memfsTable[index]? = some memfs →
      g.memfsTable[index]? = some memfs ∨ ∃ request, LoadedAt loader g.options request index memfs) := by
  have consistent : s.Consistent loader g := by
    refine reached.invariant MountThreads.consistent_initial ?_
    intro s op consistent allowed
    cases op with
    | mount thread request => exact consistent.begin allowed.1 allowed.2
    | goOn thread => exact consistent.goOn thread
    | mountPath parentInode folder target => exact consistent.mountPath (parentInode, folder.chars) target
  refine ⟨fun _ _ => consistent.settled, consistent.distinct, ?_, fun _ _ => consistent.images,
    fun _ _ => consistent.mounts, ?_⟩
  · intro point index mount
    rcases consistent.points mount with old | ⟨request, member⟩
    · exact .inl old
    · obtain ⟨memfs, held, loaded⟩ := (consistent.settled member).loaded
      exact .inr ⟨request, memfs, held, loaded⟩
  · intro ended index memfs held
    rcases consistent.added held with old | ⟨thread, call, waiting, _⟩ | loaded
    · exact .inl old
    · simp [ended] at waiting
    · exact .inr loaded

def mountAt (folder : Char) : MountRequest := ⟨noImage, 0, cStr [folder]⟩

/-- Two threads mount an image each; the second one is faster. -/
def overtaking : List MountThreadOp :=
  [.mount 1 (mountAt 'a'), .mount 2 (mountAt 'b'), .goOn 2, .goOn 2, .goOn 1, .goOn 1]

def overtaken : MountThreads := after (mountThreadStep emptyLoader) overtaking ⟨rootMounted, ∅, []⟩

theorem overtaken_sound :
    (∀ request index, (request, index) ∈ overtaken.returned →
      overtaken.Settled emptyLoader rootMounted request index) ∧
    overtaken.returned.Pairwise (fun entry other => entry.2 ≠ other.2) ∧
    (∀ (point : TebakoMountPoint) index, overtaken.globals.mountTable[point]? = some (.memfs index) →
      rootMounted.mountTable[point]? = some (.memfs index) ∨
        ∃ request memfs, overtaken.globals.memfsTable[index]? = some memfs ∧
          LoadedAt emptyLoader rootMounted.options request index memfs) ∧
    (∀ (index : UInt32) memfs, rootMounted.memfsTable[index]? = some memfs →
      overtaken.globals.memfsTable[index]? = some memfs) ∧
    (∀ (point : TebakoMountPoint) target, rootMounted.mountTable[point]? = some target →
      overtaken.globals.mountTable[point]? = some target) ∧
    (overtaken.calls = ∅ → ∀ (index : UInt32) memfs, overtaken.globals.memfsTable[index]? = some memfs →
      rootMounted.memfsTable[index]? = some memfs ∨
        ∃ request, LoadedAt emptyLoader rootMounted.options request index memfs) := by
  apply concurrent_mounts_sound
  apply Reaches.after .start
  have room : ∀ s : MountThreads, (3 : UInt32) ∉ s.globals.memfsTable → ¬ s.globals.Full :=
    fun s absent full => absent (full 3 (by decide) (by decide))
  exact ⟨⟨rfl, room _ (by decide +kernel)⟩, ⟨by decide +kernel, room _ (by decide +kernel)⟩, trivial, trivial,
    trivial, trivial, trivial⟩

end Tebako
