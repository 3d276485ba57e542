import Petele.NineP.Stat
import Petele.Avl.Map
import Petele.Git.DeltaTrip
import Petele.Git.Entry
import Petele.Git.Range
import Petele.Git.Lookup
import Petele.Mp.Karatsuba
import Petele.Libc.U32
import Petele.Mp.Strtomp
import Petele.Mp.Crt
import Petele.Qio.Stream
import Petele.Libc.Token
import Petele.Ip.TextTrip
import Petele.Ip.RouteCache
import Petele.Qlock.Safe
import Petele.Vm.CowRun
import Petele.Venti.Decode
import Petele.Thread.ChanRun
import Petele.Thread.ChanNames
import Petele.Walk.Refine
import Petele.Fscache.Transparent
import Petele.NineP.Bounds
import Petele.NineP.Dirread
import Petele.Qmalloc.Run
import Petele.Avl.WalkRun
import Petele.Git.DeltaSafe
import Petele.Git.IndexSafe
import Petele.Git.Inflate
import Petele.Git.Loaders
import Petele.Git.Loose
import Petele.Git.Objtab
import Petele.Qio.Ledger
import Petele.Qio.Qwrite
import Petele.Qio.Surgery
import Petele.Mp.Vlong
import Petele.Mp.HeapExp
import Petele.Libc.CleannameForm
import Petele.Git.Lru
import Petele.Ip.Gateway
import Petele.Ip.Reassemble
import Petele.Ip.Checksum
import Petele.Ip.Xtns
import Petele.Libc.Strtoull
import Petele.Libc.QuoteFmt
import Petele.Libc.Qsort
import Petele.Tcp.Backoff
import Petele.Tcp.Limbo
import Petele.Tcp.Header
import Petele.Tcp.Window
import Petele.Dns.Hostile
import Petele.Dns.ReadBack
import Petele.Devmnt.Framing
import Petele.Vm.Reclaim
import Petele.Vm.Freeseg
import Petele.Regexp.Overrun
import Petele.Regexp.Shortcut
