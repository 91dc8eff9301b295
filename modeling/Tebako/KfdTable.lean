import Mathlib.Logic.Function.Basic
import Std.Data.ExtTreeSet.Lemmas
import Tebako.Data.Machine

namespace Tebako

open Data

/-! The host's directory streams, as threads open and close them.

Every step that takes a lock, and every call to the host, is a step of its own;
the steps of different threads may follow each other in any order. -/

/-- The `DIR` pointers that the library passes on to the host. -/
abbrev KfdTable := Std.ExtTreeSet Nat

namespace KfdTable

def check (table : KfdTable) (dirp : Nat) : Bool := table.contains dirp

def insert (table : KfdTable) (dirp : Nat) : KfdTable := Std.ExtTreeSet.insert table dirp

def erase (table : KfdTable) (dirp : Nat) : KfdTable := Std.ExtTreeSet.erase table dirp

variable {table : KfdTable} {dirp other : Nat}

@[simp] theorem check_iff : table.check dirp = true ↔ dirp ∈ table :=
  Std.ExtTreeSet.contains_iff_mem

@[simp] theorem mem_insert : other ∈ table.insert dirp ↔ other = dirp ∨ other ∈ table := by
  rw [insert, Std.ExtTreeSet.mem_insert, Std.compare_eq_iff_eq, eq_comm]

@[simp] theorem mem_erase : other ∈ table.erase dirp ↔ other ≠ dirp ∧ other ∈ table := by
  rw [erase, Std.ExtTreeSet.mem_erase, ne_eq, Std.compare_eq_iff_eq, eq_comm]

end KfdTable

/-- What a thread is in the middle of, by the next step that it takes. -/
inductive StreamCall where
  | none
  | insertKfd (dirp : Nat)
  | checkKfd (dirp : Nat)
  | hostClosedir (dirp : Nat)
  | eraseKfd (dirp : Nat)
deriving DecidableEq

/-- A call on this stream is in progress. -/
def StreamCall.On (dirp : Nat) : StreamCall → Prop
  | .none => False
  | .insertKfd other => other = dirp
  | .checkKfd other => other = dirp
  | .hostClosedir other => other = dirp
  | .eraseKfd other => other = dirp

/-- `hostOpen` are the streams that the host keeps open for the library. -/
structure HostStreams where
  hostOpen : Std.ExtTreeSet Nat
  kfdTable : KfdTable
  call : Nat → StreamCall

namespace HostStreams

def initial : HostStreams := ⟨∅, ∅, fun _ => .none⟩

def setCall (streams : HostStreams) (thread : Nat) (call : StreamCall) : HostStreams :=
  { streams with call := Function.update streams.call thread call }

end HostStreams

/-- A thread enters `tebako_opendir`, for a path that is passed on and that the
host opens at `dirp` or not at all, enters `tebako_closedir`, or goes on with
the call it is in. -/
inductive StreamOp where
  | opendir (thread : Nat) (dirp : Option Nat)
  | closedir (thread : Nat) (dirp : Nat)
  | resume (thread : Nat)

inductive StreamAnswer where
  | running
  | opened (dirp : Option Nat)
  | closed
  | badDescriptor
deriving DecidableEq

/-- An operation that the thread or the host is not free for changes nothing. -/
def streamStep : Machine HostStreams StreamOp StreamAnswer
  | .opendir thread dirp, streams =>
      if streams.call thread = .none then
        match dirp with
        | .none => (.opened .none, streams)
        | some dirp =>
            if dirp ∈ streams.hostOpen then (.running, streams)
            else (.running, { streams with hostOpen := streams.hostOpen.insert dirp }.setCall thread
              (.insertKfd dirp))
      else (.running, streams)
  | .closedir thread dirp, streams =>
      if streams.call thread = .none then (.running, streams.setCall thread (.checkKfd dirp))
      else (.running, streams)
  | .resume thread, streams =>
      match streams.call thread with
      | .none => (.running, streams)
      | .insertKfd dirp =>
          (.opened dirp, { streams with kfdTable := streams.kfdTable.insert dirp }.setCall thread .none)
      | .checkKfd dirp =>
          if streams.kfdTable.check dirp then (.running, streams.setCall thread (.hostClosedir dirp))
          else (.badDescriptor, streams.setCall thread .none)
      | .hostClosedir dirp =>
          (.running, { streams with hostOpen := streams.hostOpen.erase dirp }.setCall thread
            (.eraseKfd dirp))
      | .eraseKfd dirp =>
          (.closed, { streams with kfdTable := streams.kfdTable.erase dirp }.setCall thread .none)

/-- A stream that is open, and that no call is in progress on, is known. -/
def HostStreams.Registered (streams : HostStreams) : Prop :=
  ∀ dirp ∈ streams.hostOpen, (∀ thread, ¬ (streams.call thread).On dirp) → dirp ∈ streams.kfdTable

/-- The host opens no stream at an address that is still to be erased. -/
def StreamOp.Fresh (streams : HostStreams) : StreamOp → Prop
  | .opendir _ (some dirp) => ∀ thread, streams.call thread ≠ .eraseKfd dirp
  | _ => True

namespace HostStreams

/-- Open streams are known or about to be, and are not about to be erased. -/
structure Kept (streams : HostStreams) : Prop where
  known : ∀ dirp ∈ streams.hostOpen,
    dirp ∈ streams.kfdTable ∨ ∃ thread, streams.call thread = .insertKfd dirp
  lasting : ∀ thread dirp, streams.call thread = .eraseKfd dirp → dirp ∉ streams.hostOpen

variable {streams : HostStreams} {thread other : Nat} {call : StreamCall} {dirp : Nat}

theorem setCall_call : (streams.setCall thread call).call other =
    if other = thread then call else streams.call other := by
  simp only [setCall, Function.update_apply]

@[simp] theorem setCall_hostOpen : (streams.setCall thread call).hostOpen = streams.hostOpen := rfl

@[simp] theorem setCall_kfdTable : (streams.setCall thread call).kfdTable = streams.kfdTable := rfl

theorem Kept.registered (kept : streams.Kept) : streams.Registered := by
  intro dirp isOpen free
  rcases kept.known dirp isOpen with known | ⟨thread, inserting⟩
  · exact known
  · exact absurd (by rw [inserting]; rfl) (free thread)

theorem kept_initial : initial.Kept where
  known dirp isOpen := by simp [initial] at isOpen
  lasting thread dirp erasing := by simp [initial] at erasing

/-- A thread that is not inserting may turn to anything but erasing. -/
theorem Kept.setCall (kept : streams.Kept) (idle : ∀ dirp, streams.call thread ≠ .insertKfd dirp)
    (other : ∀ dirp, call = .eraseKfd dirp → dirp ∉ streams.hostOpen) :
    (streams.setCall thread call).Kept where
  known dirp isOpen := by
    rcases kept.known dirp isOpen with known | ⟨inserter, inserting⟩
    · exact .inl known
    · refine .inr ⟨inserter, ?_⟩
      rw [setCall_call, if_neg]
      · exact inserting
      · intro same
        subst same
        exact idle dirp inserting
  lasting eraser dirp erasing := by
    rw [setCall_call] at erasing
    split at erasing
    · exact other dirp erasing
    · exact kept.lasting eraser dirp erasing

theorem Kept.opendir (kept : streams.Kept) (free : streams.call thread = .none)
    (fresh : ∀ thread, streams.call thread ≠ .eraseKfd dirp) :
    ({ streams with hostOpen := streams.hostOpen.insert dirp }.setCall thread (.insertKfd dirp)).Kept where
  known other isOpen := by
    rw [setCall_hostOpen, Std.ExtTreeSet.mem_insert, Std.compare_eq_iff_eq] at isOpen
    rcases isOpen with rfl | before
    · exact .inr ⟨thread, by rw [setCall_call, if_pos rfl]⟩
    · rcases kept.known other before with known | ⟨inserter, inserting⟩
      · exact .inl known
      · refine .inr ⟨inserter, ?_⟩
        rw [setCall_call, if_neg]
        · exact inserting
        · intro same
          subst same
          rw [free] at inserting
          cases inserting
  lasting eraser other erasing := by
    rw [setCall_call] at erasing
    split at erasing
    · cases erasing
    · rw [setCall_hostOpen, Std.ExtTreeSet.mem_insert, Std.compare_eq_iff_eq]
      intro member
      rcases member with rfl | before
      · exact fresh eraser erasing
      · exact kept.lasting eraser other erasing before

theorem Kept.insertKfd (kept : streams.Kept) (inserting : streams.call thread = .insertKfd dirp) :
    ({ streams with kfdTable := streams.kfdTable.insert dirp }.setCall thread .none).Kept where
  known other isOpen := by
    rw [setCall_kfdTable, KfdTable.mem_insert]
    rcases kept.known other isOpen with known | ⟨inserter, waiting⟩
    · exact .inl (.inr known)
    · by_cases same : inserter = thread
      · rw [same, inserting] at waiting
        cases waiting
        exact .inl (.inl rfl)
      · exact .inr ⟨inserter, by rw [setCall_call, if_neg same]; exact waiting⟩
  lasting eraser other erasing := by
    rw [setCall_call] at erasing
    split at erasing
    · cases erasing
    · exact kept.lasting eraser other erasing

theorem Kept.hostClosedir (kept : streams.Kept) (closing : streams.call thread = .hostClosedir dirp) :
    ({ streams with hostOpen := streams.hostOpen.erase dirp }.setCall thread (.eraseKfd dirp)).Kept := by
  have smaller : ∀ other, other ∈ streams.hostOpen.erase dirp ↔
      other ≠ dirp ∧ other ∈ streams.hostOpen := by
    intro other
    rw [Std.ExtTreeSet.mem_erase, ne_eq, Std.compare_eq_iff_eq, eq_comm]
  refine Kept.setCall ⟨?_, ?_⟩ ?_ ?_
  · intro other isOpen
    exact kept.known other ((smaller other).mp isOpen).2
  · intro eraser other erasing isOpen
    exact kept.lasting eraser other erasing ((smaller other).mp isOpen).2
  · intro other inserting
    change streams.call thread = _ at inserting
    rw [closing] at inserting
    cases inserting
  · intro other erasing isOpen
    cases erasing
    exact ((smaller dirp).mp isOpen).1 rfl

theorem Kept.eraseKfd (kept : streams.Kept) (erasing : streams.call thread = .eraseKfd dirp) :
    ({ streams with kfdTable := streams.kfdTable.erase dirp }.setCall thread .none).Kept := by
  have closed := kept.lasting thread dirp erasing
  refine Kept.setCall ⟨?_, kept.lasting⟩ ?_ (fun _ other => by cases other)
  · intro other isOpen
    rcases kept.known other isOpen with known | inserting
    · exact .inl (KfdTable.mem_erase.mpr ⟨fun same => closed (same ▸ isOpen), known⟩)
    · exact .inr inserting
  · intro other inserting
    change streams.call thread = _ at inserting
    rw [erasing] at inserting
    cases inserting

theorem Kept.step (kept : streams.Kept) (op : StreamOp) (fresh : op.Fresh streams) :
    (streamStep op streams).2.Kept := by
  have quiet : ∀ {thread call}, streams.call thread = .none →
      (∀ dirp, call ≠ StreamCall.eraseKfd dirp) → (streams.setCall thread call).Kept :=
    fun free other => kept.setCall (fun dirp inserting => by rw [free] at inserting; cases inserting)
      fun dirp same => absurd same (other dirp)
  cases op with
  | opendir thread dirp =>
      simp only [streamStep]
      split
      · rename_i free
        cases dirp with
        | none => exact kept
        | some dirp =>
            simp only
            split
            · exact kept
            · exact kept.opendir free fresh
      · exact kept
  | closedir thread dirp =>
      simp only [streamStep]
      split
      · rename_i free
        exact quiet free (by simp)
      · exact kept
  | resume thread =>
      simp only [streamStep]
      split
      · exact kept
      · rename_i dirp inserting
        exact kept.insertKfd inserting
      · rename_i dirp checking
        split <;> exact kept.setCall (by simp [checking]) (by simp)
      · rename_i dirp closing
        exact kept.hostClosedir closing
      · rename_i dirp erasing
        exact kept.eraseKfd erasing

/-- A stream opened at an address that is still to be erased is forgotten. -/
theorem forgotten_of_reuse {closer opener : Nat} (erasing : streams.call closer = .eraseKfd dirp)
    (free : streams.call opener = .none) (closed : dirp ∉ streams.hostOpen)
    (alone : ∀ thread, thread ≠ closer → ¬ (streams.call thread).On dirp) :
    ¬ (streamStep (.resume closer) (streamStep (.resume opener)
      (streamStep (.opendir opener (some dirp)) streams).2).2).2.Registered := by
  intro registered
  have apart : closer ≠ opener := by
    intro same
    subst same
    rw [free] at erasing
    cases erasing
  simp only [streamStep, free, closed, ↓reduceIte, setCall_call, apart, erasing] at registered
  have known := registered dirp (by simp) (fun thread => by
    simp only [setCall_call]
    split
    · exact id
    · split
      · exact id
      · exact alone thread ‹_›)
  simp at known

/-- As long as the host does not hand out an address which is still to be erased
from the table, every open stream stays known to the library. If it does, the
stream is forgotten when nobody else is at work on it. -/
theorem open_streams_registered (streams : HostStreams) :
    (Machine.Reaches streamStep (fun streams op => op.Fresh streams) initial streams →
      streams.Registered) ∧
    ∀ closer opener dirp, streams.call closer = .eraseKfd dirp → streams.call opener = .none →
      dirp ∉ streams.hostOpen → (∀ thread, thread ≠ closer → ¬ (streams.call thread).On dirp) →
      ¬ (streamStep (.resume closer) (streamStep (.resume opener)
        (streamStep (.opendir opener (some dirp)) streams).2).2).2.Registered :=
  ⟨fun reached => (reached.invariant kept_initial
    fun _ op kept fresh => kept.step op fresh).registered,
    fun _ _ _ => forgotten_of_reuse⟩

/-- The stream at 5, opened by thread 1 and closed by it up to the last step. -/
def almostClosed : HostStreams :=
  Machine.after streamStep
    [.opendir 1 (some 5), .resume 1, .closedir 1 5, .resume 1, .resume 1] initial

theorem almostClosed_call (thread : Nat) :
    almostClosed.call thread = if thread = 1 then .eraseKfd 5 else .none := by
  simp [almostClosed, Machine.after, streamStep, initial, setCall_call]
  split <;> simp_all

/-- A stream is opened, closed and opened again by two threads, one after the other. -/
theorem reopened_stream_registered :
    (Machine.after streamStep [.opendir 1 (some 5), .resume 1, .closedir 1 5, .resume 1, .resume 1,
      .resume 1, .opendir 2 (some 5), .resume 2] initial).Registered := by
  refine (open_streams_registered _).1 (Machine.Reaches.start.after ?_)
  refine ⟨?_, trivial, trivial, trivial, trivial, trivial, ?_, trivial, trivial⟩
  · intro thread
    simp [initial]
  · intro thread
    change (streamStep (.resume 1) almostClosed).2.call thread ≠ _
    simp only [streamStep, almostClosed_call, ↓reduceIte, setCall_call]
    split
    · simp
    · simp

theorem reused_address_forgotten :
    ¬ ∀ streams, Machine.Reaches streamStep (fun _ _ => True) initial streams → streams.Registered := by
  intro always
  let reuse : List StreamOp := [.opendir 1 (some 5), .resume 1, .closedir 1 5, .resume 1, .resume 1,
    .opendir 2 (some 5), .resume 2, .resume 1]
  have reached : Machine.Reaches streamStep (fun _ _ => True) initial
      (Machine.after streamStep reuse initial) :=
    Machine.Reaches.start.after (by simp [reuse, Machine.Allows])
  refine @forgotten_of_reuse almostClosed 5 1 2 ?_ ?_ ?_ ?_ (always _ reached)
  · rw [almostClosed_call, if_pos rfl]
  · rw [almostClosed_call, if_neg (by decide)]
  · simp [almostClosed, Machine.after, streamStep, initial, setCall]
  · intro thread other
    rw [almostClosed_call, if_neg other]
    exact id

end HostStreams

end Tebako
