import Amplet.AclCounters
import Amplet.AddressOrder
import Amplet.AsnBuffer
import Amplet.AsnNumbers
import Amplet.ControlServer
import Amplet.DnsCalls
import Amplet.DnsRecords
import Amplet.DnsTest
import Amplet.DscpValues
import Amplet.ExternalCommand
import Amplet.FastpingStream
import Amplet.HttpCuts
import Amplet.HttpFetch
import Amplet.HttpHeaders
import Amplet.HttpUrlGrammar
import Amplet.IcmpTest
import Amplet.ItemComparison
import Amplet.ParamBuffers
import Amplet.ParamsOwnership
import Amplet.ProbeChecksums
import Amplet.ResolverAddresses
import Amplet.ScheduleConservation
import Amplet.ScheduleNext
import Amplet.ScheduleSharing
import Amplet.TargetContribution
import Amplet.TcppingTest
import Amplet.ThroughputReceiving
import Amplet.ThroughputSession
import Amplet.TracerouteBounds
import Amplet.TracerouteDestination
import Amplet.TracerouteIdentity
import Amplet.TraceroutePartition
import Amplet.TracerouteTermination
import Amplet.TracerouteTimers
import Amplet.TxTimestamps
import Amplet.UdpstreamArrivals
import Amplet.UdpstreamServer
import Amplet.YamlTargets
