import Tebako.MemfsTable

namespace Tebako

/-! The table of descriptors opened in a memfs. -/

def dwarfsIoContinue : Int := 0

def dwarfsIoError : Int := -1

def dwarfsInvalidFd : Int := -2

def dwarfsSLinkOutside : Int := -3

def dwarfsSLinkAbsolute : Int := -4

def dwarfsSLinkRelative : Int := -5

/-- `tebako_fd`, with the number its handle points to. -/
structure TebakoFd where
  st : FileStat
  pos : Nat
  lock : Int
  handle : Int
deriving Repr, DecidableEq

abbrev FdTable := Std.ExtTreeMap Int TebakoFd

namespace FdTable

def close (table : FdTable) (vfd : Int) : Int × FdTable :=
  (if vfd ∈ table then dwarfsIoContinue else dwarfsInvalidFd, table.erase vfd)

def closeAll (_ : FdTable) : FdTable := ∅

def fstat (table : FdTable) (vfd : Int) : Option FileStat := table[vfd]?.map (·.st)

end FdTable

end Tebako
