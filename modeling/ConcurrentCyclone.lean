import ConcurrentCyclone.Runtime.LockWords
import ConcurrentCyclone.Runtime.LockWakeup
import ConcurrentCyclone.XInfer.Threads
import ConcurrentCyclone.XInfer.CfgFlow
import ConcurrentCyclone.XInfer.Counts
import ConcurrentCyclone.XInfer.Recursion
import ConcurrentCyclone.Runtime.TrueCounts
import ConcurrentCyclone.Runtime.SpawnOrder
import ConcurrentCyclone.Runtime.FatPtr
import ConcurrentCyclone.Runtime.Rcalloc
import ConcurrentCyclone.Runtime.KeyLookup
import ConcurrentCyclone.Unify.Again
import ConcurrentCyclone.CfFlowInfo.JoinSound
import ConcurrentCyclone.XInfer.CallGraph
import ConcurrentCyclone.XInfer.LoopCheck
import ConcurrentCyclone.XInfer.CatchStack
import ConcurrentCyclone.Relations.KillVar
import ConcurrentCyclone.Relations.Implication
import ConcurrentCyclone.RgnOrder.Outlives
import ConcurrentCyclone.Toseqc.Sequenced
import ConcurrentCyclone.Cyclex.Compact
import ConcurrentCyclone.Lib.Lexing
import ConcurrentCyclone.CfFlowInfo.Ends
import ConcurrentCyclone.Toc.WhereTests
import ConcurrentCyclone.Lib.GraphSort
import ConcurrentCyclone.Lib.Hashtable
import ConcurrentCyclone.Lib.Msort
import ConcurrentCyclone.Lib.Pp
import ConcurrentCyclone.Lib.Strstr
import ConcurrentCyclone.Lib.Zstrncmp
import ConcurrentCyclone.CfFlowInfo.Leaves
import ConcurrentCyclone.Tcpat.ConNames
