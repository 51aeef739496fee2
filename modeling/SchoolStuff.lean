import SchoolStuff.Lib.Recency
import SchoolStuff.CacheSim.Basic
import SchoolStuff.CacheSim.FullAssoc
import SchoolStuff.Lib.Loop
import SchoolStuff.Tournament.Basic
import SchoolStuff.Tournament.Accounting
import SchoolStuff.Tournament.Champion
import SchoolStuff.Tournament.Stakes
import SchoolStuff.Tournament.Losses
import SchoolStuff.ExtendedHeap.Basic
import SchoolStuff.ExtendedHeap.Handles
import SchoolStuff.ExtendedHeap.Calls
import SchoolStuff.ExtendedHeap.Priority
import SchoolStuff.ExtendedHeap.Elimination
import SchoolStuff.ExtendedHeap.Crown
import SchoolStuff.ExtendedHeap.Membership
import SchoolStuff.CardTrading.Basic
import SchoolStuff.CardTrading.SlowPath
import SchoolStuff.Lib.Knapsack
import SchoolStuff.Lib.Rounding
import SchoolStuff.Packing.Basic
import SchoolStuff.Packing.Feasible
import SchoolStuff.Packing.Dynamic
import SchoolStuff.Packing.Cases
import SchoolStuff.Lib.WriteBack
import SchoolStuff.CamCache.Lines
import SchoolStuff.CamCache.Cache
import SchoolStuff.CamCache.FullMode
import SchoolStuff.CamCache.Geometry
import SchoolStuff.CamCache.SetMode
import SchoolStuff.CamCache.Access
import SchoolStuff.CamCache.Simulation
import SchoolStuff.CamCache.Lru
import SchoolStuff.CamCache.DirectMode
import SchoolStuff.CamCache.NoLostStore
import SchoolStuff.CamCache.Inclusion
import SchoolStuff.CamCache.CacheSize
import SchoolStuff.CacheSim.Direct
import SchoolStuff.CacheSim.HotCold
import SchoolStuff.CacheSim.Flags
import SchoolStuff.CacheSim.Prefetch
import SchoolStuff.CacheSim.OneWay
import SchoolStuff.Warehouse.Cost
import SchoolStuff.FindMat.Nearest
import SchoolStuff.Format.LineCounts
import SchoolStuff.Bits.BitRange
import SchoolStuff.Mix.RoundTrip
import SchoolStuff.Mix.FinalNewline
import SchoolStuff.Mix.Cursor
import SchoolStuff.Xv6.Bio
import SchoolStuff.Xv6.Overrun
import SchoolStuff.Xv6.ShRoundTrip
import SchoolStuff.Xv6.CrashAtomic
import SchoolStuff.Xv6.Admission
import SchoolStuff.Xv6.Files
import SchoolStuff.Xv6.Grep
import SchoolStuff.Flip.Repeat
import SchoolStuff.Marbles.Dry
import SchoolStuff.Xv6.Copyuvm
import SchoolStuff.ExtendedHeap.Located
import SchoolStuff.Tournament.PoolRuns
import SchoolStuff.Xv6.Growproc
import SchoolStuff.Xv6.Kill
import SchoolStuff.Xv6.OpenFiles
import SchoolStuff.Xv6.Reachable
import SchoolStuff.Lib.Cyclic
import SchoolStuff.Lib.Linked
import SchoolStuff.Lib.Monitor
import SchoolStuff.Lib.Records
import SchoolStuff.Xv6.Console
import SchoolStuff.Xv6.ConsoleRuns
import SchoolStuff.Xv6.DirentRuns
import SchoolStuff.Xv6.Families
import SchoolStuff.Xv6.FamilyRuns
import SchoolStuff.Xv6.FileIO
import SchoolStuff.Xv6.FileRuns
import SchoolStuff.Xv6.FirstStore
import SchoolStuff.Xv6.Ide
import SchoolStuff.Xv6.LogLocks
import SchoolStuff.Xv6.Malloc
import SchoolStuff.Xv6.MallocRuns
import SchoolStuff.Xv6.PipeLocks
import SchoolStuff.Xv6.Sleeplock
import SchoolStuff.Lib.Regions
import SchoolStuff.Xv6.Runcmd
import SchoolStuff.Xv6.RuncmdStages
import SchoolStuff.Xv6.RuncmdSpots
import SchoolStuff.Xv6.RuncmdRuns
import SchoolStuff.Xv6.RuncmdPrograms
