import DoubleServer.Wire
import DoubleServer.Lines
import DoubleServer.Peer
import DoubleServer.Server
import DoubleServer.Move
import DoubleServer.Outbound
import DoubleServer.Inbound
import DoubleServer.Registry
import DoubleServer.History
import DoubleServer.Order
import DoubleServer.Tick
import DoubleServer.Delivery
import DoubleServer.Symmetry
import DoubleServer.Call
import DoubleServer.Progress
import DoubleServer.EndToEnd
import DoubleServer.Room
