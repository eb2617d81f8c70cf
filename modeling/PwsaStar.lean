import PwsaStar.Lib.Transition
import PwsaStar.Lib.WeightedGraph
import PwsaStar.Lib.PredForest
import PwsaStar.Lib.BoundedSearch
import PwsaStar.Heap.Basic
import PwsaStar.Heap.Order
import PwsaStar.Heap.Split
import PwsaStar.Heap.Refine
import PwsaStar.AStar
import PwsaStar.Lib.Handshake
import PwsaStar.ParallelWhile.Basic
import PwsaStar.ParallelWhile.Protocol
import PwsaStar.ParallelWhile.Sharing
import PwsaStar.Pwsa.Basic
import PwsaStar.Pwsa.Memory
import PwsaStar.Pwsa.Pool
import PwsaStar.Pwsa.Refine
import PwsaStar.Pwsa.Guarantees
import PwsaStar.Pwsa.Simple
import PwsaStar.Pwsa.Done
import PwsaStar.Pwsa.Potential
import PwsaStar.Pwsa.Progress
import PwsaStar.Pase.Basic
import PwsaStar.Pase.Bounded
import PwsaStar.Failure
import PwsaStar.Grid.Basic
import PwsaStar.Grid.Life
import PwsaStar.Wpanre.Track
import PwsaStar.Grid.Arrays
import PwsaStar.ParallelWhile.Assert
import PwsaStar.Grid.Adjacency
import PwsaStar.Grid.Euclid
import PwsaStar.Sbpl.WAStar
import PwsaStar.Sbpl.Bound
import PwsaStar.Pars.ArrayUtil
import PwsaStar.Pars.Basic
import PwsaStar.Pars.Rounds
import PwsaStar.Pars.Relaxing
import PwsaStar.Pars.Measure
import PwsaStar.Pars.Optimal
import PwsaStar.Sequential
import PwsaStar.Wpanre.Single
import PwsaStar.Pwsa.Single
import PwsaStar.Single
import PwsaStar.Heap.Share
import PwsaStar.Grid.Manhattan
import PwsaStar.Sbpl.Ubvec
import PwsaStar.Grid.Pathlen
import PwsaStar.Treap.Basic
import PwsaStar.Treap.Insert
import PwsaStar.Lib.CheapestPath
import PwsaStar.Sbpl.SearchPath
import PwsaStar.Treap.Split
import PwsaStar.Pwsa.Body
import PwsaStar.Sbpl.PwsaPc
import PwsaStar.Sbpl.Replan
import PwsaStar.Baseline.Threads
import PwsaStar.Baseline.Wake
import PwsaStar.Baseline.Basic
import PwsaStar.Baseline.Shutdown
import PwsaStar.Lib.ChordlessPath
import PwsaStar.Range.Pwsa
import PwsaStar.Range.AStar
import PwsaStar.Range.Steer
import PwsaStar.Range.IntRange
import PwsaStar.Lib.ForkJoin
import PwsaStar.Pars.Forked
import PwsaStar.Lib.OrderStatistic
import PwsaStar.Pars.Quickselect
import PwsaStar.Lib.LinkedTree
import PwsaStar.PairingHeap.Basic
import PwsaStar.PairingHeap.Merge
import PwsaStar.PairingHeap.Forest
import PwsaStar.PairingHeap.Queue
import PwsaStar.Pbnf.PriorityQueue
import PwsaStar.Pbnf.NBlock
import PwsaStar.Pbnf.NBlockGraph
import PwsaStar.Pbnf.Sigma
import PwsaStar.Pbnf.Monitor
import PwsaStar.Pbnf.Search
import PwsaStar.Pbnf.Turn
import PwsaStar.Pbnf.Wakeups
import PwsaStar.Pbnf.Lists
import PwsaStar.Pbnf.Owners
import PwsaStar.Pbnf.Labels
import PwsaStar.Pbnf.Optimal
import PwsaStar.Pbnf.GridWorld
import PwsaStar.Pbnf.ManhattanDist
import PwsaStar.CasRi.Counter
import PwsaStar.Pbnf.PRAStar
import PwsaStar.Pbnf.PRACompletion
import PwsaStar.Pbnf.PRALabels
import PwsaStar.Pbnf.PRAOptimal
