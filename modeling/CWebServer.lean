import CWebServer.Json.Rendering
import CWebServer.Json.Parser
import CWebServer.Json.ScanTheorems
import CWebServer.Json.ParserTheorems
import CWebServer.Json.Windows
import CWebServer.Json.Matching
import CWebServer.Json.TokenArray
import CWebServer.Json.Partition
import CWebServer.Json.Scalars
import CWebServer.Json.Items
import CWebServer.Json.Members
import CWebServer.Json.Elements
import CWebServer.Json.RoundTrip
import CWebServer.Json.Calls
import CWebServer.Json.Acceptance
import CWebServer.Json.Alignment
import CWebServer.Json.Failure
import CWebServer.Json.Definedness
import CWebServer.Json.Allocation
import CWebServer.Json.Balance
import CWebServer.Libc.Ledger
import CWebServer.Libc.Scan
import CWebServer.Http.Request
import CWebServer.Http.Lines
import CWebServer.Http.Body
import CWebServer.Http.Bounds
import CWebServer.Http.Uninitialised
import CWebServer.Http.Message
import CWebServer.Http.RequestTheorems
import CWebServer.Http.LineEndings
import CWebServer.Http.Values
import CWebServer.Http.BodyKept
import CWebServer.Runs.System
import CWebServer.Server.Connection
import CWebServer.Server.Lifecycle
import CWebServer.Server.Accumulation
import CWebServer.Server.RequestLine
import CWebServer.Server.Fragmentation
import CWebServer.Server.Stranding
import CWebServer.Server.ReadErrors
import CWebServer.Runs.Path
import CWebServer.Runs.Pool
import CWebServer.Runs.Exchange
import CWebServer.Runs.Routine
import CWebServer.Server.Interleaving
import CWebServer.Server.Refinement
import CWebServer.Server.Lives
import CWebServer.Server.Draining
import CWebServer.Server.Allocation
import CWebServer.Server.Memory
import CWebServer.Server.Leaks
import CWebServer.Json.Meaning
import CWebServer.Json.Soundness
import CWebServer.Http.Report
import CWebServer.Server.Report
import CWebServer.Http.Response
import CWebServer.Json.Canonical
import CWebServer.Server.Isolation
import CWebServer.Server.Workers
