import Xvc.Configured
import Xvc.Dpc.Batch
import Xvc.Dpc.Cursor
import Xvc.Dpc.Ingress
import Xvc.Dpc.Receive
import Xvc.Dpc.Transmit
import Xvc.Versal.Assert
import Xvc.Versal.Deferred
import Xvc.Versal.Delivery
import Xvc.Versal.Residue
import Xvc.ZynqMP.Balance
import Xvc.ZynqMP.IoctlMapped
import Xvc.ZynqMP.Lengths
import Xvc.ZynqMP.Probe
import Xvc.ZynqMP.Session
import Xvc.ZynqMP.Verify
import Xvc.Zynq7000.Indices
import Xvc.Lib.Machine
import Xvc.Versal.LockRelease
import Xvc.Versal.ReplyBound
import Xvc.Versal.Window
import Xvc.Server.Uleb
import Xvc.StickyError
import Xvc.Lifecycle
import Xvc.Jtag.Clients
import Xvc.Dpc.Fragmentation
import Xvc.Versal.Hub
import Xvc.Startup
import Xvc.CommandLine
import Xvc.ZynqMP.CharDevice
