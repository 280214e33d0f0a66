import PortableLib.FastHt.Counters
import PortableLib.HashTab.Locks
import PortableLib.BloomFilter.Untrusted
import PortableLib.Pack.VarLength
import PortableLib.Pack.Language
import PortableLib.Pack.Safety
import PortableLib.XorFilter.Membership
import PortableLib.MpmcQueue.Delivery
import PortableLib.RingBuf.Safety
import PortableLib.SpscQueue.Fifo
import PortableLib.SyncQ.Invariant
import PortableLib.JobManager.Completion
import PortableLib.Mempool.Pool
import PortableLib.Lib.Links
import PortableLib.Lib.Slots
import PortableLib.Mempool.Invariant
import PortableLib.Mempool.Safety
import PortableLib.Ulid
import PortableLib.Uuid
import PortableLib.Lib.Horner
import PortableLib.Ctype
import PortableLib.ConfigFile.Values
import PortableLib.ParseIp.Prefix
import PortableLib.StrUnquote
import PortableLib.Lib.Block
import PortableLib.Lib.HeapOrder
import PortableLib.MinHeap
import PortableLib.DoublyLinked
import PortableLib.KernelLists
import PortableLib.Vectors
import PortableLib.ArenaAlloc
import PortableLib.Gstring.Gstr
import PortableLib.Gstring.Refinement
import PortableLib.Gstring.Escape
import PortableLib.Gstring.Readline
import PortableLib.Gstring.Unescape
import PortableLib.Gstring.VarExp
import PortableLib.ZBuf
import PortableLib.XorFilter.Marshal
import PortableLib.StrMatch.Tables
import PortableLib.StrMatch.BoyerMoore
import PortableLib.StrMatch.Turbo
import PortableLib.StrMatch.Kmp
import PortableLib.StrMatch.RabinKarp
import PortableLib.StrMatch.Agreement
import PortableLib.ZBufUnc
import PortableLib.Cdb
import PortableLib.StrSplit.Arrays
import PortableLib.Lib.Cuts
import PortableLib.Lib.InPlace
import PortableLib.StrSplitCsv
import PortableLib.SplitArgs
import PortableLib.ConfigFile.Parse
import PortableLib.ConfigFile.Layout
import PortableLib.ConfigFile.RoundTrip
import PortableLib.ConfigFile.Lookup
import PortableLib.HashTab.Failure
import PortableLib.Lib.Cursor
import PortableLib.HashTab.Iteration
import PortableLib.Lib.Qsort
import PortableLib.HashTab.Growth
import PortableLib.HashTab.Unsorted
import PortableLib.FastHt.Packing
import PortableLib.BloomFilter.Removal
import PortableLib.BloomFilter.Levels
import PortableLib.XorFilter.Untrusted
import PortableLib.Pack.Pads
import PortableLib.Pack.Loads
import PortableLib.Pack.Space
import PortableLib.Lib.Tickets
import PortableLib.MpmcQueue.Rest
import PortableLib.MpmcQueue.Failures
import PortableLib.MpmcQueue.Sizes
import PortableLib.FastQueue
import PortableLib.MpmcList
import PortableLib.MinHeap.Removal
import PortableLib.Vectors.Sample
import PortableLib.FastBuf
import PortableLib.Vectors.Growth
import PortableLib.Mempool.Region
import PortableLib.Mempool.Initialise
import PortableLib.Mempool.Reuse
import PortableLib.StrMatch.Narrow
import PortableLib.StrMatch.Stretch
import PortableLib.Lib.Lexicographic
import PortableLib.Ulid.Canonical
import PortableLib.Ulid.Generate
import PortableLib.Base64
import PortableLib.Dirname
import PortableLib.FastHt.Matching
import PortableLib.Fletcher
import PortableLib.Freadline
import PortableLib.Hexdump
import PortableLib.Humanize
import PortableLib.RotateFile
import PortableLib.FastHt.Stores
import PortableLib.ConfigFile.Lines
import PortableLib.ConfigFile.Indent
import PortableLib.ConfigFile.Neutral
import PortableLib.FastHt.Agreement
import PortableLib.RingBuf.Unrolled
import PortableLib.Capacities
import PortableLib.DarwinSem.Progress
import PortableLib.Getopt.CommandLine
import PortableLib.Arc4random.Uniform
import PortableLib.Xxhash
import PortableLib.RingBuf.Single
import PortableLib.Base64.Stream
import PortableLib.Prng
import PortableLib.Bitset
