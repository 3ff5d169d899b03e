import Wiry.Lib.SortedMap
import Wiry.Lib.Ranges
import Wiry.Lib.Bits
import Wiry.Lib.Endian
import Wiry.Lib.OnesComplement
import Wiry.Lib.Runs
import Wiry.Lib.Holes
import Wiry.Lib.Recency
import Wiry.Lib.Framing
import Wiry.Packet.Spans
import Wiry.Packet.Octets
import Wiry.Packet.Dissect
import Wiry.Packet.Field
import Wiry.Packet.Proto
import Wiry.Packet.Packet
import Wiry.Packet.Compute
import Wiry.Packet.Edit
import Wiry.Packet.Sums
import Wiry.Packet.Checksum
import Wiry.Capture.Words
import Wiry.Capture.Pcap
import Wiry.Capture.Pcapng
import Wiry.Capture.Sections
import Wiry.Capture.RoundTrip
import Wiry.Capture.Attribution
import Wiry.Capture.Append
import Wiry.Capture.Grown
import Wiry.Capture.CutOff
import Wiry.Capture.Appended
import Wiry.Layers.Text
import Wiry.Options.Table
import Wiry.Options.Octets
import Wiry.Options.RoundTrip
import Wiry.Options.Coerce
import Wiry.Repeat.Group
import Wiry.Repeat.Sync
import Wiry.Frag.Group
import Wiry.Frag.Absorb
import Wiry.Frag.Absorbed
import Wiry.Frag.Split
import Wiry.Frag.Reassembler
import Wiry.Frag.Ledger
import Wiry.Frag.Accounting
import Wiry.Frag.Defragment
import Wiry.Frag.Interference
import Wiry.Frag.Rejoin
import Wiry.Frag.Cuts
import Wiry.Frag.SplitV4
import Wiry.Frag.SplitV6
import Wiry.Frag.Located
import Wiry.Frag.RoundTrip
import Wiry.Frag.FragmentV4
import Wiry.Stream.Half
import Wiry.Stream.Build
import Wiry.Stream.Spec
import Wiry.Stream.Hold
import Wiry.Stream.Feed
import Wiry.Stream.Line
import Wiry.Stream.Account
import Wiry.Stream.Loss
import Wiry.Stream.Relabel
import Wiry.Stream.Wrap
import Wiry.Stream.FirstWriter
import Wiry.Stream.Bounds
import Wiry.Stream.Inspect
import Wiry.Stream.Reassembler
import Wiry.Stream.Eviction
import Wiry.Stream.Bookkeeping
import Wiry.Stream.Sources
import Wiry.Stream.Connections
import Wiry.Stream.Messages
import Wiry.Stream.Pipelining
import Wiry.Stream.Segments
import Wiry.Stream.Reframe
import Wiry.Stream.Provenance
import Wiry.Dns.Names
import Wiry.Dns.Rebuild
import Wiry.Dns.Read
import Wiry.Dns.Agree
import Wiry.Dns.Records
import Wiry.Dns.Framing
import Wiry.Ber.Reader
import Wiry.Ber.Agree
import Wiry.Ber.Codec
import Wiry.Ber.Contents
import Wiry.Ber.RoundTrip
import Wiry.Ber.Walk
import Wiry.Ber.Steps
import Wiry.Ber.Behind
import Wiry.Ber.WalkAgree
import Wiry.Answers.Reply
import Wiry.Answers.Attribution
import Wiry.Lib.Memo
import Wiry.Routing.Table
import Wiry.Routing.Coherence
import Wiry.Routing.Table6
import Wiry.Routing.Coherence6
import Wiry.Lib.MixedRadix
import Wiry.Generate.Plan
import Wiry.Generate.Enumerate
import Wiry.Asn1.Fields
import Wiry.Asn1.Yields
import Wiry.Ldap.Filter
import Wiry.Ldap.Grammar
import Wiry.Ldap.Reading
import Wiry.Ldap.Wire
import Wiry.Columnar.Columns
import Wiry.Columnar.Agree
import Wiry.Ldap.Rfc2254
import Wiry.Ldap.Tokens
import Wiry.Ldap.Values
import Wiry.Ldap.Grammar2254
import Wiry.Ldap.Strings
import Wiry.Ldap.FromString
import Wiry.Pcapio.Walk
import Wiry.Pcapio.Interfaces
import Wiry.Pcapio.Turns
import Wiry.Pcapio.Agree
import Wiry.Lib.Extents
import Wiry.Stream.Owners
import Wiry.Stream.Reassembled
import Wiry.Stream.Partition
import Wiry.Stream.Conserved
import Wiry.Stream.Lossless
import Wiry.Lib.Rounding
import Wiry.Pcapio.Writer
import Wiry.Pcapio.Erf
import Wiry.Pyfields.BitField
import Wiry.Pylayer.Layers
import Wiry.Pylayer.Expand
import Wiry.Pylayer.Fresh
import Wiry.Pylayer.Product
import Wiry.Packet.Respan
import Wiry.Packet.Payload
import Wiry.Packet.Reach
import Wiry.Packet.Region
import Wiry.Packet.Recount
import Wiry.Pcapio.NgWriter
import Wiry.Pcapio.NgBlocks
import Wiry.Pcapio.NgRoundTrip
import Wiry.Lib.ByteOrder
import Wiry.Lib.Fletcher
import Wiry.Lib.EditScript
import Wiry.Lib.LongestRun
import Wiry.Packet.OwnBits
import Wiry.Packet.Writes
import Wiry.Packet.Clipped
import Wiry.Packet.Custom
import Wiry.Packet.Bindings
import Wiry.Utils.Checksum
import Wiry.Utils.Rfc1071
import Wiry.Utils.Fletcher
import Wiry.Utils.Hexdiff
import Wiry.Parse.Ipv6
import Wiry.Options.Joined
import Wiry.Capture.SimplePackets
import Wiry.Layers.Tlv
import Wiry.Ber.Shortest
import Wiry.Dns.RData
import Wiry.Show.Flags
import Wiry.Parse.Grammar
import Wiry.Lib.Comparator
import Wiry.Parse.Ipaddress
import Wiry.Utils.SourceAddress
import Wiry.Volatile.Net
import Wiry.Answering.Bootp
import Wiry.Lib.Nesting
import Wiry.Report.Sprintf
import Wiry.Report.Spelling
import Wiry.Report.Descent
import Wiry.Lib.Mixers
import Wiry.Generate.Ranges
import Wiry.Dns.Bounded
import Wiry.Packet.BitAccess
import Wiry.Lib.Checked
import Wiry.Capture.InBounds
import Wiry.Repeat.Turns
import Wiry.Repeat.Bounded
import Wiry.Utils.InterfaceId
import Wiry.Show.FlagValue
import Wiry.Report.Bulk
import Wiry.Report.BulkAgree
import Wiry.Report.BulkSprintf
import Wiry.Report.BulkExact
import Wiry.Lib.Pairing
import Wiry.Answers.Exchange
import Wiry.Answers.SndRcv
import Wiry.Answers.Lock
import Wiry.Sniff.State
import Wiry.Sniff.Live
import Wiry.Sniff.LiveSniffer
import Wiry.Generate.Template
