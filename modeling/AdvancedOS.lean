import AdvancedOS.Lib.Lts
import AdvancedOS.Lib.Fifo
import AdvancedOS.Lib.Barrier
import AdvancedOS.Lib.Ranks
import AdvancedOS.Mpi.Dissemination
import AdvancedOS.Lib.Heap
import AdvancedOS.Mpi.Gtmpi1
import AdvancedOS.Mpi.Gtmpi2
import AdvancedOS.Combined.Program
import AdvancedOS.Combined.Episode
import AdvancedOS.Combined.Barrier
import AdvancedOS.MapReduce.Strings
import AdvancedOS.MapReduce.Master
import AdvancedOS.Lib.WorkPool
import AdvancedOS.MapReduce.Moves
import AdvancedOS.MapReduce.Grounded
import AdvancedOS.MapReduce.Pools
import AdvancedOS.MapReduce.PoolMoves
import AdvancedOS.MapReduce.Failures
import AdvancedOS.MapReduce.Roster
import AdvancedOS.MapReduce.Accounts
import AdvancedOS.MapReduce.ReadyQueue
import AdvancedOS.MapReduce.Cleanup
import AdvancedOS.MapReduce.Rounds
import AdvancedOS.MapReduce.Dispatch
import AdvancedOS.MapReduce.Control
import AdvancedOS.MapReduce.Orderly
import AdvancedOS.MapReduce.Filed
import AdvancedOS.MapReduce.FailureFree
import AdvancedOS.Lib.Lines
import AdvancedOS.Lib.Grouping
import AdvancedOS.MapReduce.FileShard
import AdvancedOS.MapReduce.Sharding
import AdvancedOS.MapReduce.ShardLoop
import AdvancedOS.Lib.Intervals
import AdvancedOS.MapReduce.Tiling
import AdvancedOS.MapReduce.ShardSizes
import AdvancedOS.MapReduce.Spec
import AdvancedOS.MapReduce.Malformed
import AdvancedOS.MapReduce.WorkerPool
import AdvancedOS.Lib.Cutting
import AdvancedOS.MapReduce.ShardStarts
import AdvancedOS.MapReduce.ShardArithmetic
import AdvancedOS.MapReduce.MrTasks
import AdvancedOS.Lib.WriteBuffer
import AdvancedOS.MapReduce.Emission
import AdvancedOS.MapReduce.WorkerCompletion
import AdvancedOS.MapReduce.WorkerRequest
import AdvancedOS.MapReduce.WorkerServer
import AdvancedOS.MapReduce.WorkerServing
import AdvancedOS.MapReduce.WorkerStages
import AdvancedOS.MapReduce.RecordFormat
import AdvancedOS.MapReduce.ReduceJob
import AdvancedOS.MapReduce.EndToEnd
import AdvancedOS.MapReduce.Kept
import AdvancedOS.MapReduce.Delivery
import AdvancedOS.MapReduce.Cluster
import AdvancedOS.MapReduce.Attended
import AdvancedOS.MapReduce.ClusterJob
import AdvancedOS.MapReduce.Tidy
import AdvancedOS.MapReduce.ClusterRun
import AdvancedOS.MapReduce.Going
import AdvancedOS.MapReduce.Progress
import AdvancedOS.MapReduce.Completion
import AdvancedOS.MapReduce.Sequential
import AdvancedOS.MapReduce.WordCount
import AdvancedOS.Lib.Lists
import AdvancedOS.Omp.Gtmp1
import AdvancedOS.Omp.Gtmp2
import AdvancedOS.Omp.Wiring
import AdvancedOS.Mpi.Wiring
import AdvancedOS.Mpi.Gtmpi1Runs
import AdvancedOS.Mpi.Gtmpi2Runs
import AdvancedOS.Combined.Runs
import AdvancedOS.Memory.Coordinator
import AdvancedOS.Memory.HostReserve
import AdvancedOS.Lib.Potential
import AdvancedOS.Memory.Settling
import AdvancedOS.Memory.Redistribution
import AdvancedOS.Cpu.Scheduler
import AdvancedOS.Lib.Places
import AdvancedOS.Lib.Loads
import AdvancedOS.Cpu.Rebalance
import AdvancedOS.Cpu.Spreading
import AdvancedOS.Cpu.OneEach
import AdvancedOS.Cpu.Passes
import AdvancedOS.Cpu.Usages
import AdvancedOS.Store.Threadpool
import AdvancedOS.Store.AnySchedule
import AdvancedOS.Store.VendorClient
import AdvancedOS.Store.Vendors
import AdvancedOS.Store.CallData
import AdvancedOS.Store.Stages
import AdvancedOS.Store.Serving
import AdvancedOS.Lib.LinkedList
import AdvancedOS.Lib.Mutex
import AdvancedOS.Prelab.ProducerConsumer
import AdvancedOS.Prelab.Moves
import AdvancedOS.Prelab.Nodes
import AdvancedOS.Prelab.HandOver
import AdvancedOS.Prelab.Completion
import AdvancedOS.Prelab.MainThread
