import Slash2.Residency.Coherence
import Slash2.Client.Dio
import Slash2.Client.ReadWrite
import Slash2.Lease.Assign
import Slash2.Lease.Directio
import Slash2.Lease.OneIos
import Slash2.Lease.Window
import Slash2.Journal.Seqno
import Slash2.Journal.CrcUpdate
import Slash2.Journal.Crcwrt
import Slash2.Journal.InoRepls
import Slash2.Journal.Namespace
import Slash2.Reclaim.Delivery
import Slash2.Journal.Distill
import Slash2.Residency.Active
import Slash2.Residency.PreclaimBatch
import Slash2.Rpc.Batchrq
import Slash2.Sliod.ReplwkRun
import Slash2.Sliod.SlvrAioRun
import Slash2.Sliod.Bcr
import Slash2.Client.ReadReply
import Slash2.Client.OneReply
import Slash2.Client.PendingWrites
import Slash2.Attr.Truncate
import Slash2.Attr.Converge
import Slash2.Metafile.Interrupted
import Slash2.Metafile.Odtable
import Slash2.Client.BmapLease
import Slash2.Dircache.Enumerate
import Slash2.Dircache.Consistent
import Slash2.Dircache.Deleted
import Slash2.Fidc.Lifetime
import Slash2.Bmapc.Lifetime
import Slash2.Rpc.CsvcRefs
import Slash2.Rpc.Authbuf
import Slash2.Client.CoalesceMap
import Slash2.Client.FlushPass
import Slash2.Client.FetchValid
import Slash2.Client.Split
import Slash2.Lease.Select
import Slash2.Residency.Delrq
import Slash2.Residency.Ptrunc
import Slash2.Residency.PtruncWake
import Slash2.Sliod.Minseq
import Slash2.Sliod.Ric
import Slash2.Client.Readahead
import Slash2.Client.Acl
import Slash2.Client.Permission
import Slash2.Client.Usermap
import Slash2.Residency.Backup
import Slash2.Residency.Logged
import Slash2.Residency.Pagein
import Slash2.Residency.Iosv
