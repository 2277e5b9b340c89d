import HostBridge.Catalog.Functions
import HostBridge.Catalog.Probe
import HostBridge.Proofs.Table.FiniteMap
import HostBridge.Proofs.Table.Traversal
import HostBridge.Proofs.Call.Protected
import HostBridge.Proofs.Call.Closure
import HostBridge.Proofs.Heap.History
import HostBridge.Proofs.Call.Reachable
import HostBridge.Proofs.Call.Handlers
import HostBridge.Proofs.Call.Operands
import HostBridge.Proofs.Call.Receivers
import HostBridge.Proofs.Copy.Decode
import HostBridge.Proofs.Table.Filled
import HostBridge.Proofs.Copy.RoundTrip
import HostBridge.Proofs.Table.Listing
import HostBridge.Proofs.Call.Methods
import HostBridge.Proofs.Copy.Typed
import HostBridge.Proofs.Call.Restoring
import HostBridge.Proofs.Call.Overreports
import HostBridge.Proofs.Access.Assignment
import HostBridge.Proofs.Access.Overflow
import HostBridge.Proofs.Table.Border
import HostBridge.Proofs.Table.InsertionOrder
import HostBridge.Proofs.Call.Arguments
import HostBridge.Proofs.Access.Policy
import HostBridge.Proofs.Container.Enumeration
import HostBridge.Proofs.Copy.Optional
import HostBridge.Proofs.Call.Shortage
import HostBridge.Proofs.Call.Slots
import HostBridge.Proofs.Access.Concatenation
import HostBridge.Proofs.Number.Shift
import HostBridge.Proofs.Table.Exact
import HostBridge.Proofs.Table.Occupancy
import HostBridge.Proofs.Call.Metatables
