import Wos.Ipc.Delivery
import Wos.Ipc.PollOut
import Wos.Ipc.Wakeups
import Wos.Mkwfs.Agreement
import Wos.Mm.OneOwner
import Wos.Net.Claim
import Wos.Net.Handshake
import Wos.Net.Scan
import Wos.Net.TcpSend
import Wos.Proc.Descriptors
import Wos.Proc.Stacks
import Wos.Proc.Layout
import Wos.Proc.Seat
import Wos.Proc.Timeouts
import Wos.Ramfs
import Wos.Users
import Wos.Vim
import Wos.Wayland.Lifetimes
import Wos.Wayland.Pool
import Wos.Wcc.Executable
import Wos.Wcc.Fold
import Wos.Wcc.Names
import Wos.Wcc.Uses
import Wos.Wfs.Cache
import Wos.Wfs.Resolve
import Wos.Wfs.Spill
