import Tebako.Data.Loop
import Tebako.OpenMemory

namespace Tebako

open Data Data.Loop Data.OrderedMap

/-! Opening directories and listing them, where there is not always memory for it. -/

/-- What the allocations for a directory come to: those of the descriptor, the
memory of the stream, and whether there is room for a node of the table. -/
structure DirMemory where
  opening : OpenMemory
  stream : Option StreamMemory
  node : Bool

namespace Process

variable (p : Process)

/-- `sync_tebako_dstable::opendir`: the address of the stream and the size of
the directory. -/
def openStreamIn (w : World) (vfd : Int) (memory : DirMemory) : Traced (Except Errno (Nat × Nat)) :=
  match memory.stream with
  | none => (.error .ENOMEM, [], p)
  | some into =>
      let (ret, ds) := (TebakoDs.make vfd into.memory).loadCache p.fdTable w.memfsTable 0 true
      if ret = dwarfsIoContinue then
        if into.address ∈ p.dsTable ∨ memory.node = true then
          (.ok (into.address, ds.dirSize), [], { p with
            dsTable := Std.ExtTreeMap.insert p.dsTable into.address ds })
        else
          -- the handler closes the stream, which has not got into the table
          let (_, calls, after) := p.closeStream into.address
          (.error .ENOMEM, calls, after)
      else (.error .ENOTDIR, [], p)

/-- `dirp` is where the host puts a stream of its own, if it has the directory. -/
def openHostDirAt (hosted : Bool) (dirp : Nat) : Nat × Process :=
  if hosted then p.hostStream (p.host.opendir dirp) dirp else (0, p)

/-- `tebako_opendir` -/
def opendirIn (w : World) (fuel : Nat) (dirname : Option CString) (hosted : Bool) (dirp : Nat)
    (memory : DirMemory) : Option (Traced Nat) :=
  match dirname with
  | none => some (0, [], p)
  | some dirname =>
      match toTebakoPath w.cwd dirname with
      | none =>
          let (ret, after) := p.openHostDirAt hosted dirp
          some (ret, [], after)
      | some path =>
          (p.openIn w fuel path oDirectory memory.opening).map fun (answer, calls, after) =>
            match answer with
            | .linkOutside _ =>
                let (ret, after) := after.openHostDirAt hosted dirp
                (ret, calls, after)
            | .opened vfd =>
                match after.openStreamIn w vfd memory with
                | (.error _, more, after) => (0, calls ++ more, after)
                | (.ok (ret, _), more, after) => (ret, calls ++ more, after)
            | _ => (0, calls, after)

end Process

/-! ## The loop of `tebako_scandir` -/

/-- What the allocations of a list come to: whether there is room for the list,
and where each copy lies. -/
structure ScanMemory where
  list : Bool
  copy : Nat → Option Nat

/-- The slots of the list that have been written, one after another, or nothing
for a null pointer; and the copies, by where they lie. -/
structure Scan where
  dsTable : DsTable
  list : Option (List Nat)
  heap : Std.ExtTreeMap Nat TebakoDirent

/-- One round. The result is nothing where the behaviour is undefined: an entry
is read from outside the cache, the list is written past its end, or the count,
which is an `int`, is increased past its largest value. -/
def scanBody (fdTable : FdTable) (memfsTable : MemfsTable) (dirp size : Nat)
    (sel : Option (TebakoDirent → Bool)) (copy : Nat → Option Nat) (scan : Scan) :
    Step Scan (Option Scan) :=
  match scan.list with
  | none => .halt (some scan)
  | some list =>
      match scan.dsTable.readdir fdTable memfsTable dirp with
      | ((_, none), dsTable) => .halt (some { scan with dsTable := dsTable })
      | ((_, some none), _) => .halt none
      | ((_, some (some ent)), dsTable) =>
          if sel.any (fun sel => !sel ent) then .next { scan with dsTable := dsTable }
          else
            match copy list.length with
            | none => .next ⟨dsTable, none, list.foldl (fun heap address => heap.erase address) scan.heap⟩
            | some address =>
                if list.length < size ∧ list.length + 1 < 2 ^ 31 then
                  .next ⟨dsTable, some (list ++ [address]), scan.heap.insert address ent⟩
                else .halt none

/-- `exhausted` is that of the opening. -/
inductive ScanAnswer where
  | undefined
  | host (dirname : CString)
  | failed (errno : Errno)
  | exhausted
  | listed (list : List Nat) (heap : Std.ExtTreeMap Nat TebakoDirent)

/-- The comparison of two entries of the list, by what they point to. -/
def comparAt (heap : Std.ExtTreeMap Nat TebakoDirent) (compar : TebakoDirent → TebakoDirent → Int)
    (left right : Nat) : Int :=
  match heap[left]?, heap[right]? with
  | some left, some right => compar left right
  | _, _ => 0

/-- The list is kept whether it can be shrunk to its entries or not. -/
def sorted (qsort : (Nat → Nat → Int) → List Nat → List Nat)
    (compar : Option (TebakoDirent → TebakoDirent → Int)) (heap : Std.ExtTreeMap Nat TebakoDirent)
    (list : List Nat) : List Nat :=
  match compar with
  | none => list
  | some compar => if 0 < list.length then qsort (comparAt heap compar) list else list

namespace Process

variable (p : Process)

/-- The list of an open stream, which is closed in the end. -/
def scanStream (w : World) (fuel : Nat) (dirp size : Nat) (sel : Option (TebakoDirent → Bool))
    (compar : Option (TebakoDirent → TebakoDirent → Int))
    (qsort : (Nat → Nat → Int) → List Nat → List Nat) (memory : ScanMemory) : Option (Traced ScanAnswer) :=
  (Loop.run (scanBody p.fdTable w.memfsTable dirp size sel memory.copy) fuel
      ⟨p.dsTable, if memory.list then some [] else none, ∅⟩).map fun finished =>
    match finished with
    | none => (.undefined, [], p)
    | some scan =>
        let (_, calls, after) := { p with dsTable := scan.dsTable }.closeStream dirp
        match scan.list with
        | none => (.failed .ENOMEM, calls, after)
        | some list => (.listed (sorted qsort compar scan.heap list) scan.heap, calls, after)

/-- `tebako_scandir`; `wanted` is whether there is a place for the list. -/
def scandirIn (w : World) (fuel : Nat) (dirname : Option CString) (wanted : Bool)
    (sel : Option (TebakoDirent → Bool)) (compar : Option (TebakoDirent → TebakoDirent → Int))
    (qsort : (Nat → Nat → Int) → List Nat → List Nat) (memory : DirMemory) (scan : ScanMemory) :
    Option (Traced ScanAnswer) :=
  match dirname with
  | none => some (.failed .ENOENT, [], p)
  | some dirname =>
      match toTebakoPath w.cwd dirname with
      | none => some (.host dirname, [], p)
      | some path =>
          (p.openIn w fuel path oDirectory memory.opening).bind fun (answer, calls, after) =>
            match answer with
            | .linkOutside lnk => some (.host lnk, calls, after)
            | .opened vfd =>
                if wanted = false then some (.failed .EFAULT, calls, after)
                else
                  match after.openStreamIn w vfd memory with
                  | (.error errno, more, after) => some (.failed errno, calls ++ more, after)
                  | (.ok (dirp, size), more, after) =>
                      (after.scanStream w fuel dirp size sel compar qsort scan).map
                        fun (answer, last, after) => (answer, calls ++ more ++ last, after)
            | .failed errno => some (.failed (if wanted then errno else .EFAULT), calls, after)
            | .exhausted => some (if wanted then .exhausted else .failed .EFAULT, calls, after)
            | .invalidFd => some (.failed (if wanted then .ENOENT else .EFAULT), calls, after)

/-- Nothing that the library keeps has changed, and no descriptor of the host. -/
structure SameTables (after : Process) : Prop where
  fdTable : after.fdTable = p.fdTable
  dsTable : after.dsTable = p.dsTable
  files : after.host.files = p.host.files

/-- No number is left, and the new handle happens to hold an open one. -/
def ClosesGarbage (memory : OpenMemory) : Prop :=
  p.host.dupStdin.1 = dwarfsIoError ∧ ∃ handle, memory.handle = some handle ∧ handle ∈ p.host.files

/-- There are a handle, a number for it, and a place in the table. -/
def Gives (memory : OpenMemory) : Prop :=
  memory.handle.isSome = true ∧ p.host.dupStdin.1 ≠ dwarfsIoError ∧ memory.node = true

/-- The process once a file with these attributes has been opened. -/
def holding (st : FileStat) : Process :=
  { p with
    fdTable := Std.ExtTreeMap.insert p.fdTable p.host.dupStdin.1 ⟨st, 0, 0, p.host.dupStdin.1⟩
    host := p.host.dupStdin.2 }

/-- There is memory for the stream, and the first entries of the directory can be read. -/
def StreamOpens (w : World) (vfd : Int) (memory : DirMemory) : Prop :=
  memory.node = true ∧ ∃ into, memory.stream = some into ∧
    ((TebakoDs.make vfd into.memory).loadCache p.fdTable w.memfsTable 0 true).1 = dwarfsIoContinue

/-- The path is that of a directory of the memfs, for which a descriptor is begun. -/
def FindsDir (w : World) (fuel : Nat) (dirname : Option CString) (memory : DirMemory) (st : FileStat) :
    Prop :=
  memory.opening.descriptor = true ∧ st.isDir = true ∧ ∃ name path, dirname = some name ∧
    toTebakoPath w.cwd name = some path ∧
    dwarfsStat w fuel path (oDirectory &&& oNofollow = 0) = some (.ok (.inode st))

/-- What is begun on a directory either takes nothing, or comes to an open stream
of which there is use. -/
def OpensWhole (w : World) (fuel : Nat) (dirname : Option CString) (wanted : Bool) (memory : DirMemory) :
    Prop :=
  ∀ st, FindsDir w fuel dirname memory st → ¬ p.ClosesGarbage memory.opening ∧
    (p.Gives memory.opening → wanted = true ∧ (p.holding st).StreamOpens w p.host.dupStdin.1 memory)

variable {p} {after : Process} {st : FileStat} {memory : OpenMemory} {w : World} {fuel : Nat}
variable {path : CString}

theorem sameTables_refl : p.SameTables p := ⟨rfl, rfl, rfl⟩

/-- The number is a new one, as all numbers of the table are open. -/
theorem dupStdin_fresh (backed : ∀ vfd ∈ p.fdTable, vfd ∈ p.host.files)
    (taken : p.host.dupStdin.1 ≠ dwarfsIoError) : p.host.dupStdin.1 ∉ p.fdTable := by
  obtain ⟨fd, host, _, unused, same, _⟩ := dupStdin_taken taken
  rw [same]
  exact fun there => unused (backed fd there)

theorem acquire_given (backed : ∀ vfd ∈ p.fdTable, vfd ∈ p.host.files) (gives : p.Gives memory) :
    p.acquire st memory = (.opened p.host.dupStdin.1, [], p.holding st) := by
  obtain ⟨room, taken, node⟩ := gives
  obtain ⟨handle, room⟩ := Option.isSome_iff_exists.mp room
  have none := Std.ExtTreeMap.getElem?_eq_none (dupStdin_fresh backed taken)
  simp only [acquire, room, taken, ↓reduceIte, register, none, node, holding]

theorem acquire_denied (backed : ∀ vfd ∈ p.fdTable, vfd ∈ p.host.files) (denied : ¬ p.Gives memory) :
    ∃ answer calls after, (answer = .exhausted ∨ ∃ errno, answer = .failed errno) ∧
      p.acquire st memory = (answer, calls, after) ∧
      (p.SameTables after ↔ ¬ p.ClosesGarbage memory) := by
  cases room : memory.handle with
  | none =>
      refine ⟨.failed .ENOMEM, [], p, .inr ⟨_, rfl⟩, ?_, iff_of_true sameTables_refl ?_⟩
      · simp only [acquire, room, outOfMemory_early]
      · intro closes
        obtain ⟨_, handle, there, _⟩ := closes
        rw [room] at there
        cases there
  | some handle =>
      by_cases failed : p.host.dupStdin.1 = dwarfsIoError
      · refine ⟨.exhausted, [.close handle], { p with host := p.host.close handle }, .inl rfl, ?_, ?_, ?_⟩
        · simp only [acquire, room, dupStdin_failed failed, ↓reduceIte]
        · intro same closes
          obtain ⟨_, garbage, there, listed⟩ := closes
          cases room.symm.trans there
          exact erase_ne_self listed same.files
        · intro spared
          refine ⟨rfl, rfl, erase_of_not_mem fun listed => spared ⟨failed, handle, room, listed⟩⟩
      · have absent := dupStdin_fresh backed failed
        obtain ⟨fd, host, taken, unused, same, isDir, files⟩ := dupStdin_taken failed
        have node : memory.node = false := by
          by_contra enough
          exact denied ⟨by rw [room]; rfl, failed, Bool.not_eq_false _ ▸ enough⟩
        rw [same] at absent failed
        have lost := @register_lost { p with host := host } st fd taken absent
        refine ⟨.failed .ENOMEM, [.close fd, .close fd], { p with host := (host.close fd).close fd },
          .inr ⟨_, rfl⟩, ?_, ?_⟩
        · simp only [acquire, room, same, failed, ↓reduceIte, node, lost]
        · refine iff_of_true ⟨rfl, rfl, ?_⟩ fun closes => ?_
          · rw [files]
            simp only [HostFds.close]
            rw [erase_insert, erase_of_not_mem unused, erase_of_not_mem unused]
          · rw [ClosesGarbage, same] at closes
            exact failed closes.1

theorem accepts_dir_iff {found : Except Errno Lookup} :
    Accepts found oDirectory ↔ ∃ st, found = .ok (.inode st) ∧ st.isDir = true := by
  have readOnly : oDirectory &&& oWrite = 0 := by decide
  have followed : oDirectory &&& oNofollow = 0 := by decide
  have asked : oDirectory &&& oDirectory ≠ 0 := by decide
  simp only [Accepts, readOnly, followed, asked, true_and, or_false, or_true, and_true]

theorem openIn_found (room : memory.descriptor = true) (directory : st.isDir = true)
    (found : dwarfsStat w fuel path (oDirectory &&& oNofollow = 0) = some (.ok (.inode st))) :
    p.openIn w fuel path oDirectory memory = some (p.acquire st memory) := by
  have accepts : Accepts (.ok (.inode st)) oDirectory := accepts_dir_iff.mpr ⟨st, rfl, directory⟩
  simp only [openIn, room, ↓reduceIte, found, Option.map_some, openFoundIn_accepted accepts]

theorem openIn_other {result : Traced OpenAnswer}
    (none : ¬ ∃ st, memory.descriptor = true ∧ st.isDir = true ∧
      dwarfsStat w fuel path (oDirectory &&& oNofollow = 0) = some (.ok (.inode st)))
    (opened : p.openIn w fuel path oDirectory memory = some result) :
    ∃ answer, (∀ vfd, answer ≠ .opened vfd) ∧ result = (answer, [], p) := by
  unfold openIn at opened
  split at opened
  · rename_i room
    obtain ⟨found, looked, rfl⟩ := Option.map_eq_some_iff.mp opened
    refine openFoundIn_refused fun accepts => ?_
    obtain ⟨st, rfl, directory⟩ := accepts_dir_iff.mp accepts
    exact none ⟨st, room, directory, looked⟩
  · cases opened
    exact ⟨_, by simp, outOfMemory_early⟩

theorem openIn_unfound {dir : DirMemory} {name : CString} {result : Traced OpenAnswer}
    (unfound : ¬ ∃ st, FindsDir w fuel (some name) dir st) (known : toTebakoPath w.cwd name = some path)
    (opened : p.openIn w fuel path oDirectory dir.opening = some result) :
    ∃ answer, (∀ vfd, answer ≠ .opened vfd) ∧ result = (answer, [], p) :=
  openIn_other (fun ⟨st, room, directory, there⟩ =>
    unfound ⟨st, room, directory, name, path, rfl, known, there⟩) opened

theorem loadCache_vfd {ds : TebakoDs} {fdTable : FdTable} {memfsTable : MemfsTable} {start : Int}
    {setPos : Bool} : (ds.loadCache fdTable memfsTable start setPos).2.vfd = ds.vfd := by
  unfold TebakoDs.loadCache
  simp only
  split <;> rfl

theorem openStreamIn_opens {vfd : Int} {dir : DirMemory} (opens : p.StreamOpens w vfd dir) :
    ∃ into size ds, dir.stream = some into ∧ ds.vfd = vfd ∧ p.openStreamIn w vfd dir =
      (.ok (into.address, size), [], { p with dsTable := Std.ExtTreeMap.insert p.dsTable into.address ds }) := by
  obtain ⟨node, into, room, loaded⟩ := opens
  rcases loads : (TebakoDs.make vfd into.memory).loadCache p.fdTable w.memfsTable 0 true with ⟨ret, ds⟩
  have same := @loadCache_vfd (TebakoDs.make vfd into.memory) p.fdTable w.memfsTable 0 true
  rw [loads] at loaded same
  refine ⟨into, ds.dirSize, ds, room, same, ?_⟩
  simp only at loaded
  simp only [openStreamIn, room, loads, loaded, node, or_true, ↓reduceIte]

theorem openStreamIn_fails {vfd : Int} {dir : DirMemory}
    (fresh : ∀ into, dir.stream = some into → p.Places into) (fails : ¬ p.StreamOpens w vfd dir) :
    ∃ errno, p.openStreamIn w vfd dir = (.error errno, [], p) := by
  cases room : dir.stream with
  | none => exact ⟨.ENOMEM, by simp only [openStreamIn, room]⟩
  | some into =>
      obtain ⟨_, absent, _⟩ := fresh into room
      rcases loads : (TebakoDs.make vfd into.memory).loadCache p.fdTable w.memfsTable 0 true with ⟨ret, ds⟩
      by_cases loaded : ret = dwarfsIoContinue
      · have node : ¬ dir.node = true := fun node => fails ⟨node, into, room, by rwa [loads]⟩
        have none := Std.ExtTreeMap.getElem?_eq_none absent
        refine ⟨.ENOMEM, ?_⟩
        simp only [openStreamIn, room, loads, loaded, absent, node, Bool.false_eq_true,
          or_false, ↓reduceIte, closeStream, none]
      · exact ⟨.ENOTDIR, by simp only [openStreamIn, room, loads, loaded, ↓reduceIte]⟩

theorem openHostDirAt_null {hosted : Bool} {dirp : Nat} (valid : dirp ≠ 0)
    (null : (p.openHostDirAt hosted dirp).1 = 0) : (p.openHostDirAt hosted dirp).2 = p := by
  unfold openHostDirAt hostStream at null ⊢
  split
  · rename_i there
    simp only [there, ↓reduceIte] at null
    split
    · rename_i opened
      rw [if_pos opened] at null
      exact absurd null valid
    · rfl
  · rfl

section Opens

variable {dirname : Option CString} {wanted : Bool} {dir : DirMemory}

/-- Each path finds one directory at most. -/
theorem opensWhole_iff (finds : FindsDir w fuel dirname dir st) :
    p.OpensWhole w fuel dirname wanted dir ↔ ¬ p.ClosesGarbage dir.opening ∧
      (p.Gives dir.opening → wanted = true ∧ (p.holding st).StreamOpens w p.host.dupStdin.1 dir) := by
  constructor
  · exact fun whole => whole st finds
  · intro whole other found
    obtain ⟨_, _, name, path, named, known, there⟩ := finds
    obtain ⟨_, _, name', path', named', known', there'⟩ := found
    obtain rfl := Option.some.inj (named.symm.trans named')
    obtain rfl := Option.some.inj (known.symm.trans known')
    cases there.symm.trans there'
    exact whole

theorem not_closesGarbage (gives : p.Gives memory) : ¬ p.ClosesGarbage memory :=
  fun closes => gives.2.1 closes.1

theorem holding_ne (backed : ∀ vfd ∈ p.fdTable, vfd ∈ p.host.files) (gives : p.Gives memory) :
    (p.holding st).fdTable ≠ p.fdTable :=
  insert_ne_self (dupStdin_fresh backed gives.2.1) _

theorem opendirIn_kept_iff {hosted : Bool} {dirp : Nat}
    (backed : ∀ vfd ∈ p.fdTable, vfd ∈ p.host.files) (valid : dirp ≠ 0)
    (fresh : ∀ into, dir.stream = some into → p.Places into) :
    (∀ result, p.opendirIn w fuel dirname hosted dirp dir = some result → result.1 = 0 →
        p.SameTables result.2.2) ↔ p.OpensWhole w fuel dirname true dir := by
  by_cases found : ∃ st, FindsDir w fuel dirname dir st
  · obtain ⟨st, finds⟩ := found
    rw [opensWhole_iff finds]
    obtain ⟨room, directory, name, path, rfl, known, there⟩ := finds
    have opened := @openIn_found p st dir.opening w fuel path room directory there
    simp only [opendirIn, known, opened, Option.map_some, Option.some.injEq, forall_eq', true_and]
    by_cases gives : p.Gives dir.opening
    · rw [acquire_given backed gives]
      simp only [gives, forall_const, not_closesGarbage gives, not_false_eq_true, true_and]
      by_cases opens : (p.holding st).StreamOpens w p.host.dupStdin.1 dir
      · obtain ⟨into, size, ds, stream, _, result⟩ := openStreamIn_opens opens
        rw [result]
        refine iff_of_true (fun null => ?_) opens
        exact absurd null (fresh into stream).1
      · obtain ⟨errno, result⟩ := @openStreamIn_fails (p.holding st) w _ dir fresh opens
        rw [result]
        refine iff_of_false (fun kept => ?_) opens
        exact holding_ne backed gives (kept rfl).fdTable
    · obtain ⟨answer, calls, after, denied, result, same⟩ := @acquire_denied p st dir.opening backed gives
      rw [result]
      rcases denied with rfl | ⟨errno, rfl⟩ <;>
        simp only [forall_const, same, gives, false_implies, and_true]
  · refine iff_of_true (fun result opened null => ?_) fun st finds => absurd ⟨st, finds⟩ found
    cases dirname with
    | none =>
        cases opened
        exact sameTables_refl
    | some name =>
        cases known : toTebakoPath w.cwd name with
        | none =>
            simp only [opendirIn, known, Option.some.injEq] at opened
            subst opened
            rw [openHostDirAt_null valid null]
            exact sameTables_refl
        | some path =>
            simp only [opendirIn, known] at opened
            obtain ⟨⟨answer, calls, after⟩, ran, same⟩ := Option.map_eq_some_iff.mp opened
            obtain ⟨other, unopened, same'⟩ := openIn_unfound found known ran
            cases same'
            cases answer with
            | opened vfd => exact absurd rfl (unopened vfd)
            | linkOutside lnk =>
                subst same
                rw [openHostDirAt_null valid null]
                exact sameTables_refl
            | failed errno =>
                subst same
                exact sameTables_refl
            | exhausted =>
                subst same
                exact sameTables_refl
            | invalidFd =>
                subst same
                exact sameTables_refl

end Opens

end Process

/-! ## The list -/

/-- Of all streams, only this one may have moved; it is still that of the descriptor. -/
structure Scan.Apart (before : DsTable) (dirp : Nat) (vfd : Int) (scan : Scan) : Prop where
  others : scan.dsTable.erase dirp = before.erase dirp
  own : ∃ ds, scan.dsTable[dirp]? = some ds ∧ ds.vfd = vfd

section Loop

variable {fdTable : FdTable} {memfsTable : MemfsTable} {dirp size : Nat} {vfd : Int} {before : DsTable}
variable {sel : Option (TebakoDirent → Bool)} {copy : Nat → Option Nat} {scan last : Scan}

theorem readdir_vfd {ds : TebakoDs} : (ds.readdir fdTable memfsTable).2.vfd = ds.vfd := by
  unfold TebakoDs.readdir
  split
  · rfl
  · split
    · rfl
    · split
      · have same := @Process.loadCache_vfd ds fdTable memfsTable (narrowInt ds.dirPosition) false
        simp only
        split <;> exact same
      · rfl

theorem Scan.Apart.readdir (apart : scan.Apart before dirp vfd) {list : Option (List Nat)}
    {heap : Std.ExtTreeMap Nat TebakoDirent} :
    Scan.Apart before dirp vfd ⟨(scan.dsTable.readdir fdTable memfsTable dirp).2, list, heap⟩ := by
  obtain ⟨ds, held, same⟩ := apart.own
  have moved : (scan.dsTable.readdir fdTable memfsTable dirp).2 =
      Std.ExtTreeMap.insert scan.dsTable dirp (ds.readdir fdTable memfsTable).2 := by
    simp only [DsTable.readdir, held]
  constructor
  · rw [moved, erase_insert, apart.others]
  · exact ⟨_, by rw [moved, Std.ExtTreeMap.getElem?_insert_self], readdir_vfd.trans same⟩

def Kept (before : DsTable) (dirp : Nat) (vfd : Int) : Step Scan (Option Scan) → Prop
  | .next after => after.Apart before dirp vfd
  | .halt (some last) => last.Apart before dirp vfd
  | .halt none => True

theorem scanBody_kept (apart : scan.Apart before dirp vfd) :
    Kept before dirp vfd (scanBody fdTable memfsTable dirp size sel copy scan) := by
  cases slots : scan.list with
  | none => simpa only [scanBody, slots, Kept] using apart
  | some list =>
      have moved := fun list heap => @Scan.Apart.readdir fdTable memfsTable dirp vfd before scan apart list heap
      rcases read : scan.dsTable.readdir fdTable memfsTable dirp with ⟨⟨answer, handed⟩, table⟩
      simp only [read] at moved
      rcases handed with _ | _ | ent
      · simp only [scanBody, slots, read]
        exact moved _ _
      · simp only [scanBody, slots, read]
        trivial
      · simp only [scanBody, slots, read]
        split
        · exact moved _ _
        · split
          · exact moved _ _
          · split
            · exact moved _ _
            · trivial

theorem scan_kept {fuel : Nat} (apart : scan.Apart before dirp vfd)
    (ran : Loop.run (scanBody fdTable memfsTable dirp size sel copy) fuel scan = some (some last)) :
    last.Apart before dirp vfd := by
  have returned : Returns (scanBody fdTable memfsTable dirp size sel copy) scan (some last) := ⟨fuel, ran⟩
  obtain ⟨final, _, apart, stopped⟩ := @Returns.invariant _ _ _ _ _
    (Scan.Apart before dirp vfd) returned (fun state after apart moved => by
      have kept := @scanBody_kept fdTable memfsTable dirp size vfd before sel copy state apart
      rwa [moved] at kept) apart
  have kept := @scanBody_kept fdTable memfsTable dirp size vfd before sel copy final apart
  rwa [stopped] at kept

end Loop

/-- The call returns, with a list or without one. -/
def ScanAnswer.Returns : ScanAnswer → Prop
  | .undefined => False
  | _ => True

namespace Process

variable {p : Process} {st : FileStat} {w : World} {fuel : Nat} {dirname : Option CString} {wanted : Bool}
variable {dir : DirMemory} {sel : Option (TebakoDirent → Bool)}
variable {compar : Option (TebakoDirent → TebakoDirent → Int)}
variable {qsort : (Nat → Nat → Int) → List Nat → List Nat} {memory : ScanMemory}

/-- Closing the only stream that has been opened since gives back all of it. -/
theorem closeStream_restores {table : DsTable} {dirp : Nat}
    (backed : ∀ vfd ∈ p.fdTable, vfd ∈ p.host.files) (gives : p.Gives dir.opening)
    (others : table.erase dirp = p.dsTable)
    (own : ∃ ds, table[dirp]? = some ds ∧ ds.vfd = p.host.dupStdin.1) :
    p.SameTables (closeStream { p.holding st with dsTable := table } dirp).2.2 := by
  obtain ⟨ds, held, same⟩ := own
  have absent := dupStdin_fresh backed gives.2.1
  have entry : (p.holding st).fdTable[ds.vfd]? = some ⟨st, 0, 0, p.host.dupStdin.1⟩ := by
    rw [same]
    exact Std.ExtTreeMap.getElem?_insert_self
  obtain ⟨fd, host, _, unused, taken, isDir, files⟩ := dupStdin_taken gives.2.1
  simp only [closeStream, held, closeFd, entry]
  constructor
  · simp only [FdTable.close, holding, same]
    rw [erase_insert, erase_of_not_mem absent]
  · exact others
  · simp only [HostFds.close, holding, taken, files]
    rw [erase_insert, erase_of_not_mem unused]

theorem scanStream_restores {dirp size : Nat} {ds : TebakoDs} {result : Traced ScanAnswer}
    (backed : ∀ vfd ∈ p.fdTable, vfd ∈ p.host.files) (gives : p.Gives dir.opening)
    (absent : dirp ∉ p.dsTable) (same : ds.vfd = p.host.dupStdin.1)
    (ran : scanStream { p.holding st with dsTable := Std.ExtTreeMap.insert p.dsTable dirp ds } w fuel
      dirp size sel compar qsort memory = some result) (returns : result.1.Returns) :
    p.SameTables result.2.2 := by
  obtain ⟨finished, loop, rfl⟩ := Option.map_eq_some_iff.mp ran
  cases finished with
  | none => exact returns.elim
  | some scan =>
      have start : Scan.Apart p.dsTable dirp p.host.dupStdin.1
          ⟨Std.ExtTreeMap.insert p.dsTable dirp ds, if memory.list then some [] else none, ∅⟩ :=
        ⟨erase_insert _ _ _, ds, Std.ExtTreeMap.getElem?_insert_self, same⟩
      obtain ⟨others, own⟩ := scan_kept start loop
      rw [erase_of_not_mem absent] at others
      have restored := @closeStream_restores p st dir scan.dsTable dirp backed gives others own
      simp only
      split <;> exact restored

theorem scandirIn_kept_iff (backed : ∀ vfd ∈ p.fdTable, vfd ∈ p.host.files)
    (fresh : ∀ into, dir.stream = some into → p.Places into) :
    (∀ result, p.scandirIn w fuel dirname wanted sel compar qsort dir memory = some result →
        result.1.Returns → p.SameTables result.2.2) ↔ p.OpensWhole w fuel dirname wanted dir := by
  by_cases found : ∃ st, FindsDir w fuel dirname dir st
  · obtain ⟨st, finds⟩ := found
    rw [opensWhole_iff finds]
    obtain ⟨room, directory, name, path, rfl, known, there⟩ := finds
    have opened := @openIn_found p st dir.opening w fuel path room directory there
    simp only [scandirIn, known, opened, Option.bind_some]
    by_cases gives : p.Gives dir.opening
    · rw [acquire_given backed gives]
      simp only [gives, forall_const, not_closesGarbage gives, not_false_eq_true, true_and]
      by_cases asked : wanted = false
      · rw [if_pos asked]
        refine iff_of_false (fun kept => ?_) fun whole => ?_
        · exact holding_ne backed gives (kept _ rfl trivial).fdTable
        · rw [asked] at whole
          cases whole.1
      · rw [if_neg asked]
        by_cases opens : (p.holding st).StreamOpens w p.host.dupStdin.1 dir
        · obtain ⟨into, size, ds, stream, same, result⟩ := openStreamIn_opens opens
          rw [result]
          refine iff_of_true (fun listed ran returns => ?_) ⟨Bool.not_eq_false _ ▸ asked, opens⟩
          obtain ⟨⟨answer, calls, after⟩, scanned, rfl⟩ := Option.map_eq_some_iff.mp ran
          exact scanStream_restores backed gives (fresh into stream).2.1 same scanned returns
        · obtain ⟨errno, result⟩ := @openStreamIn_fails (p.holding st) w _ dir fresh opens
          rw [result]
          refine iff_of_false (fun kept => ?_) fun whole => opens whole.2
          exact holding_ne backed gives (kept _ rfl trivial).fdTable
    · obtain ⟨answer, calls, after, denied, result, same⟩ := @acquire_denied p st dir.opening backed gives
      rw [result]
      rcases denied with rfl | ⟨errno, rfl⟩
      · simp only [Option.some.injEq, forall_eq', gives, false_implies, and_true, ← same]
        refine ⟨fun kept => kept ?_, fun kept _ => kept⟩
        cases wanted <;> trivial
      · simp only [Option.some.injEq, forall_eq', gives, false_implies, and_true, ← same]
        exact ⟨fun kept => kept trivial, fun kept _ => kept⟩
  · refine iff_of_true (fun result opened returns => ?_) fun st finds => absurd ⟨st, finds⟩ found
    cases dirname with
    | none =>
        cases opened
        exact sameTables_refl
    | some name =>
        cases known : toTebakoPath w.cwd name with
        | none =>
            simp only [scandirIn, known, Option.some.injEq] at opened
            subst opened
            exact sameTables_refl
        | some path =>
            simp only [scandirIn, known] at opened
            obtain ⟨⟨answer, calls, after⟩, ran, same⟩ := Option.bind_eq_some_iff.mp opened
            obtain ⟨other, unopened, same'⟩ := openIn_unfound found known ran
            cases same'
            cases answer with
            | opened vfd => exact absurd rfl (unopened vfd)
            | linkOutside lnk =>
                cases same
                exact sameTables_refl
            | failed errno =>
                cases same
                exact sameTables_refl
            | exhausted =>
                cases same
                exact sameTables_refl
            | invalidFd =>
                cases same
                exact sameTables_refl

end Process

/-- In a process all of whose numbers are open, what begins on a directory leaves
nothing behind if and only if no handle closes what it happens to hold, and each
directory that is given a number becomes a stream of which there is use. -/
theorem directory_all_or_nothing_iff (p : Process) (w : World) (fuel : Nat) (dirname : Option CString)
    (hosted : Bool) (dirp : Nat) (wanted : Bool) (sel : Option (TebakoDirent → Bool))
    (compar : Option (TebakoDirent → TebakoDirent → Int))
    (qsort : (Nat → Nat → Int) → List Nat → List Nat) (dir : DirMemory) (memory : ScanMemory)
    (backed : ∀ vfd ∈ p.fdTable, vfd ∈ p.host.files) (valid : dirp ≠ 0)
    (fresh : ∀ into, dir.stream = some into → p.Places into) :
    ((∀ result, p.opendirIn w fuel dirname hosted dirp dir = some result → result.1 = 0 →
        p.SameTables result.2.2) ↔ p.OpensWhole w fuel dirname true dir) ∧
    ((∀ result, p.scandirIn w fuel dirname wanted sel compar qsort dir memory = some result →
        result.1.Returns → p.SameTables result.2.2) ↔ p.OpensWhole w fuel dirname wanted dir) :=
  ⟨Process.opendirIn_kept_iff backed valid fresh, Process.scandirIn_kept_iff backed fresh⟩

def memfsRoot : Option CString := some (cStr tebakoMountPoint)

/-- The memory that there is for a directory, but for that of its stream. -/
def dirMemory (stream : Option StreamMemory) : DirMemory := ⟨⟨true, some 7, true⟩, stream, true⟩

def blankStream : StreamMemory := ⟨1, Vector.replicate tebakoDirCacheSize ⟨none, 0, none, .empty⟩⟩

theorem freshProcess_backed : ∀ vfd ∈ freshProcess.fdTable, vfd ∈ freshProcess.host.files := by
  simp [freshProcess]

/-- The root directory of the memfs, with memory for all of it. -/
theorem root_opens_whole : freshProcess.OpensWhole oneFileWorld 9 memfsRoot true (dirMemory (some blankStream)) := by
  have places : ∀ into, (dirMemory (some blankStream)).stream = some into → freshProcess.Places into := by
    intro into same
    cases same
    exact ⟨by decide, by decide +kernel, by decide +kernel⟩
  obtain ⟨opendir, _⟩ := directory_all_or_nothing_iff freshProcess oneFileWorld 9 memfsRoot false 2 true
    none none (fun _ list => list) (dirMemory (some blankStream)) ⟨true, some⟩ freshProcess_backed
    (by decide) places
  refine opendir.mp fun result opened null => ?_
  have there : (freshProcess.opendirIn oneFileWorld 9 memfsRoot false 2
      (dirMemory (some blankStream))).map (·.1) = some 1 := by decide +kernel
  rw [opened, Option.map_some, null] at there
  cases there

/-- Without memory for the stream, the descriptor stays in the table. -/
theorem failed_opendir_keeps_descriptor : ¬ ∀ (p : Process) (w : World) (fuel : Nat)
    (dirname : Option CString) (hosted : Bool) (dirp : Nat) (dir : DirMemory) (result : Traced Nat),
    (∀ vfd ∈ p.fdTable, vfd ∈ p.host.files) → dirp ≠ 0 →
      (∀ into, dir.stream = some into → p.Places into) →
      p.opendirIn w fuel dirname hosted dirp dir = some result → result.1 = 0 →
      p.SameTables result.2.2 := by
  intro always
  have opened : (freshProcess.opendirIn oneFileWorld 9 memfsRoot false 2 (dirMemory none)).map
      (fun result => (result.1, decide ((1 : Int) ∈ result.2.2.fdTable))) = some (0, true) := by
    decide +kernel
  obtain ⟨result, ran, same⟩ := Option.map_eq_some_iff.mp opened
  simp only [Prod.mk.injEq, decide_eq_true_eq] at same
  have kept := always freshProcess oneFileWorld 9 memfsRoot false 2 (dirMemory none) result
    freshProcess_backed (by decide) (by simp [dirMemory]) ran same.1
  rw [kept.fdTable] at same
  simp [freshProcess] at same

end Tebako
