import Inconcretes.Lib.UnorderedMap
import Inconcretes.Lib.Voting
import Inconcretes.Lib.Eig
import Inconcretes.Lib.Pod
import Inconcretes.Lib.TopMap
import Inconcretes.Lib.Portions
import Inconcretes.Lib.Quota
import Inconcretes.Lib.OrderStatistics
import Inconcretes.Lib.Versions
import Inconcretes.Lib.Decimal
import Inconcretes.Lib.Draws
import Inconcretes.Lib.OrderedMap
import Inconcretes.Lib.Settings
import Inconcretes.Lib.Footprint
import Inconcretes.Lib.Periodic
import Inconcretes.Lib.Join
import Inconcretes.Lib.Packing
import Inconcretes.Lib.Blocks
import Inconcretes.Lib.Binary64
import Inconcretes.Lib.SortedSet
import Inconcretes.EigTree.Shape
import Inconcretes.EigTree.Buffers
import Inconcretes.EigTree.Reduce
import Inconcretes.EigTree.Crc32
import Inconcretes.EigTree.Unanimity
import Inconcretes.EigTree.Protocol
import Inconcretes.EigTree.Layouts
import Inconcretes.BftKvs.Node
import Inconcretes.EigTree.Counting
import Inconcretes.BftKvs.Store
import Inconcretes.BftKvs.Fuse
import Inconcretes.BftKvs.Majority
import Inconcretes.BftKvs.Median
import Inconcretes.BftKvs.Traces
import Inconcretes.BftKvs.Process
import Inconcretes.BftKvs.Printed
import Inconcretes.BftKvs.Replication
import Inconcretes.BftKvs.Fusing
import Inconcretes.BftKvs.SingleStore
import Inconcretes.BftKvs.Link
import Inconcretes.BftKvs.Connect
import Inconcretes.BftKvs.Completion
import Inconcretes.BftKvs.Chunking
import Inconcretes.BftKvs.Timeouts
import Inconcretes.Kvs.Interface
import Inconcretes.Kvs.Redis
import Inconcretes.Kvs.Collection
import Inconcretes.Kvs.RedisReplicas
import Inconcretes.Kvs.Etcd
import Inconcretes.Kzh15.Config
import Inconcretes.Kzh15.Generator
import Inconcretes.Kzh15.Grouping
import Inconcretes.Kzh15.Placement
import Inconcretes.Kzh15.Export
import Inconcretes.Kzh15.Trim
import Inconcretes.Kzh15.Task
import Inconcretes.Kzh15.Capacity
import Inconcretes.Kzh15.Freshness
import Inconcretes.Kzh15.Merging
import Inconcretes.Kzh15.Shares
import Inconcretes.Kzh15.Labels
import Inconcretes.Kzh15.Crossing
import Inconcretes.Kzh15.Redraws
import Inconcretes.Utils.PeriodicTimer
import Inconcretes.Utils.ReleaseLoop
import Inconcretes.Utils.BinPack
import Inconcretes.Utils.Heuristics
import Inconcretes.Utils.Dominance
import Inconcretes.EigTree.Digits
import Inconcretes.Applications.InvertedPendulum
import Inconcretes.Applications.PendulumHost
import Inconcretes.Applications.ReplicatedPendulum
import Inconcretes.Kzh15.Statistics
import Inconcretes.Kzh15.ReplicatedBenchmark
import Inconcretes.Exp.Ivp1
import Inconcretes.Exp.Bosch1
import Inconcretes.Exp.ReplicatedBosch1
