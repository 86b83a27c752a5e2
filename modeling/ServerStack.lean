import ServerStack.Fastdfs.HashSpec
import ServerStack.Fastdfs.TrunkBinlog
import ServerStack.Fastdfs.TrunkRecovery
import ServerStack.Leveldb.Bloom
import ServerStack.Leveldb.Log.Recovery
import ServerStack.Leveldb.Reads
import ServerStack.Leveldb.Recover
import ServerStack.Memcached.AsciiFraming
import ServerStack.Memcached.AssocSpec
import ServerStack.Memcached.TailLocks
import ServerStack.Nginx.ChunkedSpec
import ServerStack.Nginx.RadixTreeMap
import ServerStack.Nginx.UnsafeUri
import ServerStack.Redis.Bitops
import ServerStack.Redis.Cluster.ElectionSafety
import ServerStack.Redis.Cluster.LinkInvariant
import ServerStack.Redis.Cluster.NodesConfRoundTrip
import ServerStack.Redis.Cluster.SlotTable
import ServerStack.Redis.Dict.SafeIteration
import ServerStack.Redis.Glob
import ServerStack.Redis.Intset.Refinement
import ServerStack.Redis.Networking.Inline
import ServerStack.Redis.Rdb.RoundTrip
import ServerStack.Redis.Replication.Slave
import ServerStack.Redis.Zset.Encodings
