import Puppies.Ntrack.MsgOrder
import Puppies.Nos.Portal
import Puppies.Ntrack.AdminRace
import Puppies.Ntrack.SetRefs
import Puppies.Ntrack.MsgQueue
import Puppies.Nos.FirstPacket
import Puppies.Nos.PortalRun
import Puppies.Klog.Item
import Puppies.Klog.Override
import Puppies.Klog.Lifetime
import Puppies.Ntrack.ConfTransport
import Puppies.Lib.Gsub
import Puppies.Lib.Json
import Puppies.Tbq.Flowctrl
import Puppies.Tbq.RuleStore
import Puppies.Tbq.LostUpdate
import Puppies.Nos.UserTable
import Puppies.Klog.Show
import Puppies.Ntrack.ConfLoad
import Puppies.Ntrack.FirstMatch
import Puppies.Ntrack.Attach
import Puppies.Ntrack.RedirectFrame
import Puppies.Nos.Payload
import Puppies.Nos.Checksum
import Puppies.Nos.PortalReply
import Puppies.Ntrack.OnlineRate
import Puppies.Tbq.Rate
import Puppies.Tbq.Iface
import Puppies.Tbq.Convert
import Puppies.Klog.Read
import Puppies.Klog.Write
import Puppies.Klog.Session
import Puppies.Utils.Hexdump
import Puppies.Klog.HexPrintout
import Puppies.Ntrack.NxHeap
import Puppies.Ntrack.Session
import Puppies.Ntrack.ConfDeploy
import Puppies.Tbq.FlowPage
import Puppies.Lib.Rcu
import Puppies.Ntrack.ConfSwap
import Puppies.Ntrack.ConfStill
