import Cgir.Library.Digraph
import Cgir.Library.Loop
import Cgir.Library.MarkSearch
import Cgir.Library.TwinCollapse
import Cgir.Library.TwinFold
import Cgir.Library.UnionFind
import Cgir.Model.ProgSource
import Cgir.Model.Command
import Cgir.Model.Heap
import Cgir.Model.Walk
import Cgir.Model.Adjacency
import Cgir.Model.Numbered
import Cgir.Model.Expansion
import Cgir.Model.Bitset2d
import Cgir.Model.BitMatrix
import Cgir.Walk.History
import Cgir.Walk.Scope
import Cgir.Walk.Orders
import Cgir.Pass.ReduceEdge
import Cgir.Pass.Batch
import Cgir.Pass.BatchIslands
import Cgir.Pass.BatchBuild
import Cgir.Pass.BatchLossless
import Cgir.Pass.BatchCycle
import Cgir.Pass.BatchAgain
import Cgir.Pass.BatchOrder
import Cgir.Library.StraightPath
import Cgir.Library.Follow
import Cgir.Pass.Sequence
import Cgir.Pass.SequenceBuild
import Cgir.Pass.SequenceLossless
import Cgir.Library.Strand
import Cgir.Pass.SequenceChains
import Cgir.Pass.SequenceComplete
import Cgir.Pass.SubWalks
import Cgir.Llvm.Entry
import Cgir.Llvm.Convention
import Cgir.Library.Intern
import Cgir.Library.Buffer
import Cgir.Library.Transition
import Cgir.Library.Custody
import Cgir.Llvm.FuseInput
import Cgir.Llvm.Dedup
import Cgir.Llvm.DedupSound
import Cgir.Llvm.Packed
import Cgir.Llvm.PackedAgree
import Cgir.Llvm.Fuse
import Cgir.Llvm.SlotTypes
import Cgir.Llvm.Homogeneous
import Cgir.Llvm.ArgsRuns
import Cgir.Llvm.Held
import Cgir.Llvm.HeldSound
import Cgir.Llvm.Destination
import Cgir.Mlir.Cg
import Cgir.Mlir.Import
import Cgir.Mlir.Export
import Cgir.Mlir.Relink
import Cgir.Mlir.RoundTrip
import Cgir.Pass.CopyFuse
import Cgir.Pass.ProgChains
import Cgir.Pass.ProgFused
import Cgir.Pass.ProgFuse
import Cgir.Pass.ProgRuns
import Cgir.Pass.ProgRepeat
import Cgir.Library.Eliminate
import Cgir.Pass.ReduceNode
import Cgir.Pass.CopyNormalize
import Cgir.Library.SetVector
import Cgir.Mlir.Batch
import Cgir.Library.Coarsen
import Cgir.Mlir.BatchGroups
import Cgir.Mlir.BatchOps
import Cgir.Mlir.SubGraph
import Cgir.Mlir.Agreement
import Cgir.Mlir.BatchExport
import Cgir.Mlir.BatchPass
import Cgir.Mlir.CopyFuse
import Cgir.Mlir.CopyFused
import Cgir.Mlir.BatchWork
import Cgir.Mlir.BatchLossless
import Cgir.Mlir.BatchSimple
import Cgir.Mlir.Block
import Cgir.Mlir.ProgFuse
import Cgir.Mlir.ProgDevices
import Cgir.Mlir.Reachability
import Cgir.Library.PairMerge
import Cgir.Model.Reverse
import Cgir.Pass.Contract
import Cgir.Pass.ProgEnds
import Cgir.Library.Worklist
import Cgir.Mlir.BatchFixpoint
import Cgir.Mlir.ReduceNode
import Cgir.Library.Kahn
import Cgir.Mlir.ReduceEdge
import Cgir.Mlir.CopyNormalize
import Cgir.Library.Schedule
import Cgir.Optimizer.Execution
import Cgir.Model.Confined
import Cgir.Optimizer.Dispatch
import Cgir.Optimizer.LegacyIsolation
import Cgir.Optimizer.MlirIsolation
import Cgir.Optimizer.Isolation
import Cgir.Optimizer.Parity
import Cgir.Optimizer.Refinement
import Cgir.Optimizer.PassRefines
import Cgir.Optimizer.Soundness
import Cgir.Optimizer.HostPrograms
import Cgir.Optimizer.RaceFree
import Cgir.Optimizer.Regrouping
import Cgir.Optimizer.PassRegroups
import Cgir.Optimizer.Nesting
import Cgir.Optimizer.Pipeline
import Cgir.Optimizer.Progress
import Cgir.Optimizer.Sequencing
import Cgir.Mlir.CopyClasses
import Cgir.Mlir.CopyMerge
import Cgir.Optimizer.CopyFusion
import Cgir.Optimizer.AllPasses
import Cgir.Library.Emission
import Cgir.Llvm.Region
import Cgir.Llvm.WrapperCode
import Cgir.Llvm.WrapperRun
import Cgir.Llvm.Linked
import Cgir.Llvm.Launch
import Cgir.Llvm.LaunchAlone
import Cgir.Llvm.FusedEntry
import Cgir.Llvm.FusedSlots
import Cgir.Llvm.FusedLaunch
import Cgir.Llvm.PackedEntry
import Cgir.Llvm.PackedSlots
import Cgir.Llvm.PackedLaunch
