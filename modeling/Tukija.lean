import Tukija.Pd.Exact
import Tukija.Pd.Ports
import Tukija.Pd.Teardown
import Tukija.Pd.Translate
import Tukija.Space.Deeds
import Tukija.Kmem.Ledger
import Tukija.Mapdb.Search
import Tukija.Mapdb.Lookup
import Tukija.Buddy.Places
import Tukija.Pte.Teardown
import Tukija.Rcu.Once
import Tukija.Ref.Refcount
import Tukija.Sm.Signal
import Tukija.Sm.Balance
import Tukija.Sm.Fifo
import Tukija.Core.Destroy
import Tukija.Core.Reclaim
import Tukija.Core.Possession
import Tukija.Core.Account
import Tukija.Core.Tally
import Tukija.Core.Sleep
import Tukija.Timeouts.Check
import Tukija.Topo.Lookup
import Tukija.Slabs.Retain
import Tukija.Slabs.Links
import Tukija.Create.Sc
import Tukija.Xcpu.Reuse
import Tukija.Oom.Handler
import Tukija.Sched.Ready
import Tukija.Memtype.Root
import Tukija.Boot.Cmdline
import Tukija.Boot.Bounds
import Tukija.Boot.Checksum
import Tukija.Boot.Selection
import Tukija.Iommu.Ranges
import Tukija.Vcpu.Vpid
import Tukija.Vcpu.Intercept
import Tukija.Spin.Ticket
import Tukija.Clock.Report
import Tukija.Clock.Timer
import Tukija.Cpus.Views
import Tukija.Utcb.Operations
import Tukija.Ids.Exclusive
import Tukija.Objects.Pairing
import Tukija.Dma.Tracking
import Tukija.Ipc.Runs
import Tukija.Vtlb.Sound
import Tukija.Fpu.Runs
import Tukija.Tlb.Runs
import Tukija.Vmcs.Runs
import Tukija.Gtlb.Runs
import Tukija.Gsi.Runs
import Tukija.Space.Pio
import Tukija.Hazard.Runs
