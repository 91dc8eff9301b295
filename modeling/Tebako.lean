import Tebako.Data.Loop
import Tebako.Memfs
import Tebako.Data.Machine
import Tebako.Data.Reader
import Tebako.MemfsTable
import Tebako.InodeNamespace
import Tebako.Dirent
import Tebako.DirStream
import Tebako.DirStreamRuns
import Tebako.IoHelpers
import Tebako.PathClass
import Tebako.IoRoot
import Tebako.MountState
import Tebako.FindInode
import Tebako.LinkChain
import Tebako.LinkTarget
import Tebako.FdOpen
import Tebako.DirCtl
import Tebako.WorkingDirs
import Tebako.NameChanges
import Tebako.KfdTable
import Tebako.PackageDescriptor
import Tebako.Lstat
import Tebako.Data.LinkTree
import Tebako.RelativeLinks
import Tebako.PathPrefix
import Tebako.JoinedPath
import Tebako.RelativeLookup
import Tebako.Data.Substitution
import Tebako.LinkCycles
import Tebako.FileIo
import Tebako.Fstatat
import Tebako.MountRules
import Tebako.FdCalls
import Tebako.HostFds
import Tebako.Ownership
import Tebako.DlCtl
import Tebako.DlCache
import Tebako.FileReads
import Tebako.Data.Segments
import Tebako.FileSeek
import Tebako.ScatterReads
import Tebako.DirMemory
import Tebako.ScanList
import Tebako.FdThreads
import Tebako.HostMounts
import Tebako.Data.Confinement
import Tebako.DlCopies
import Tebako.DlNames
import Tebako.HeaderByteOrder
import Tebako.SlotAllocation
import Tebako.RejectedOptions
import Tebako.Cmdline
import Tebako.CmdlineReading
import Tebako.CmdlineSpellings
import Tebako.ArgumentVector
import Tebako.Data.QuotedLiteral
import Tebako.ExtractCommand
import Tebako.Data.TextStream
import Tebako.PackageVersions
import Tebako.DlErrors
import Tebako.ChdirComposition
import Tebako.WholeImage
import Tebako.Namespace
import Tebako.MountedTree
import Tebako.MountThreads
import Tebako.Data.OpenFile
import Tebako.Data.Keyed
import Tebako.OpenFiles
import Tebako.NamespaceReads
import Tebako.NamespaceListings
import Tebako.Readlink
import Tebako.Data.Watched
import Tebako.ProgramStreams
import Tebako.DlLifetime
import Tebako.Data.Pages
import Tebako.LoadChecks
import Tebako.MemoryLocks
import Tebako.Startup
import Tebako.GoingBack
import Tebako.Sessions
import Tebako.Data.Overlap
import Tebako.OverlappingCalls
import Tebako.ReadAlone
