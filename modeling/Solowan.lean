import Solowan.Codec.Integrity
import Solowan.Codec.Bounds
import Solowan.Codec.Modes
import Solowan.Codec.Tables
import Solowan.Net.Segment
import Solowan.Net.ChecksumVerify
import Solowan.Net.OptionEdit
import Solowan.Net.OptionBounds
import Solowan.Worker.HeaderFlags
import Solowan.Worker.Sending
import Solowan.Worker.EndToEnd
import Solowan.Worker.Ownership
import Solowan.Worker.Closing
import Solowan.Worker.Retransmission
import Solowan.Dictionary.Selection
import Solowan.Dictionary.Lookups
import Solowan.Dictionary.Configure
import Solowan.Fetcher.Keepalive
import Solowan.Sessions.FiniteMap
import Solowan.Sessions.Sequence
import Solowan.Queues.Pool
import Solowan.System.Binding
import Solowan.System.Teardown
import Solowan.Cli.Traces
import Solowan.Worker.DeoptimizerAccounting
import Solowan.Codec.EntryCounter
import Solowan.System.Cleanup
import Solowan.Cli.Dispatch
import Solowan.Fetcher.Handshake
import Solowan.Fetcher.Lengths
import Solowan.Worker.Stream
import Solowan.Codec.MurmurHash
import Solowan.System.Discovery
import Solowan.System.Agreement
import Solowan.System.Line
