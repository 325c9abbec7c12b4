import Binderd.Lib.Bytes
import Binderd.Lib.Tables
import Binderd.Lib.Runs
import Binderd.Wire.Streams
import Binderd.Wire.Messages
import Binderd.Broker.Agreement
import Binderd.Broker.Orphans
import Binderd.Broker.Capabilities
import Binderd.Broker.Deaths
import Binderd.Broker.Identity
import Binderd.Clients.Calls
import Binderd.Clients.Correlation
import Binderd.Clients.Matching
import Binderd.Clients.Payloads
import Binderd.Broker.Homecoming
import Binderd.Broker.Reading
import Binderd.Clients.Completion
import Binderd.Clients.Disconnect
import Binderd.Lib.Codes
import Binderd.Wire.Framing
import Binderd.Broker.Answers
import Binderd.Broker.Failures
import Binderd.Broker.Forwarding
import Binderd.Broker.Monitoring
import Binderd.Broker.Roles
import Binderd.Clients.Addresses
import Binderd.Clients.ContextObject
import Binderd.Clients.Interning
import Binderd.Clients.Packing
import Binderd.Clients.Recipients
import Binderd.Clients.Restoring
import Binderd.Clients.Statuses
import Binderd.Lib.Utf16
import Binderd.Parcels.Handles
import Binderd.Services.Listing
import Binderd.Clients.Counting
import Binderd.Wire.Growing
import Binderd.Wire.NarrowStrings
import Binderd.Wire.Pointers
import Binderd.Wire.WriteQueue
import Binderd.Broker.Refines
import Binderd.Broker.Terminations
import Binderd.Broker.Network
import Binderd.Clients.Obituaries
import Binderd.Clients.Proxies
import Binderd.Clients.RemoteCall
import Binderd.Services.Directory
import Binderd.Clients.Wrapping
import Binderd.Broker.Watching
import Binderd.Broker.Settling
