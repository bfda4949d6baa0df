import SlotRing.Ring.Distance
import SlotRing.Ring.Pinned
import SlotRing.Scenario.Run
import SlotRing.Wire.Forms
import SlotRing.Proofs.Ring.Members
import SlotRing.Proofs.Time.Immediate
import SlotRing.Proofs.Ring.Walk
import SlotRing.Proofs.Ring.Newcomer
import SlotRing.Proofs.Ring.Displacement
import SlotRing.Proofs.Store.Values
import SlotRing.Proofs.Cluster.Hosting
import SlotRing.Proofs.Cluster.Writes
import SlotRing.Proofs.Cluster.Clients
import SlotRing.Proofs.Cluster.Reads
import SlotRing.Proofs.Cluster.Calls
import SlotRing.Proofs.Rehash.Steps
import SlotRing.Proofs.Rehash.Arrival
import SlotRing.Proofs.Mapping.Serving
import SlotRing.Proofs.Rehash.Following
import SlotRing.Proofs.Rehash.LosslessJoin
import SlotRing.Proofs.Cluster.Registration
import SlotRing.Proofs.Rehash.Departure
import SlotRing.Proofs.Rehash.Survivor
import SlotRing.Proofs.Rehash.Farewell
import SlotRing.Proofs.Store.Versions
import SlotRing.Proofs.Rehash.LosslessLeave
import SlotRing.Proofs.Rehash.LossyLeave
import SlotRing.Proofs.Rehash.Errands
import SlotRing.Proofs.Rehash.Turns
import SlotRing.Proofs.Rehash.Histories
import SlotRing.Proofs.Time.Waiting
import SlotRing.Proofs.Time.Reliance
import SlotRing.Proofs.Store.Omissions
import SlotRing.Proofs.Cluster.Staffing
import SlotRing.Proofs.Cluster.Traffic
import SlotRing.Proofs.Cluster.Accounts
import SlotRing.Proofs.Rehash.Hindered
import SlotRing.Proofs.Rehash.Relapse
import SlotRing.Proofs.Rehash.AbandonedJoin
import SlotRing.Proofs.Rehash.AbandonedLeave
import SlotRing.Proofs.Rehash.CompletedJoin
import SlotRing.Proofs.Time.Interleaving
import SlotRing.Proofs.Rehash.Legacy
import SlotRing.Proofs.Rehash.CompletedLeave
import SlotRing.Proofs.Rehash.Routing
import SlotRing.Proofs.Rehash.OverlappingJoins
import SlotRing.Proofs.Rehash.ReadsDuringJoin
import SlotRing.Proofs.Rehash.ReadsDuringLeave
import SlotRing.Proofs.Rehash.Influx
import SlotRing.Proofs.Rehash.WritesAcrossJoins
import SlotRing.Proofs.Ring.Seating
import SlotRing.Proofs.WriteLog.ReplayOnce
import SlotRing.Proofs.Wire.Routing
import SlotRing.Proofs.Wire.RoundTrip
import SlotRing.Proofs.Store.NoReturn
import SlotRing.Proofs.Time.Alone
import SlotRing.Proofs.Cluster.Bustle
import SlotRing.Proofs.Rehash.CleanEnd
import SlotRing.Proofs.Rehash.Coordinator
import SlotRing.Proofs.Cluster.Timetable
import SlotRing.Proofs.Rehash.ReplayedPuts
import SlotRing.Proofs.Ring.Neighbourhood
import SlotRing.Proofs.Ring.Nearest
import SlotRing.Proofs.Ring.Insertion
import SlotRing.Proofs.Mapping.MemberSets
import SlotRing.Proofs.WriteLog.Moments
import SlotRing.Proofs.WriteLog.Visibility
import SlotRing.Proofs.Cluster.Lasting
import SlotRing.Proofs.Time.Beside
import SlotRing.Proofs.Rehash.Asking
import SlotRing.Proofs.Rehash.Bequest
import SlotRing.Proofs.Rehash.QuietJoin
import SlotRing.Proofs.Rehash.Invalidation
import SlotRing.Proofs.Store.Merging
import SlotRing.Proofs.Cluster.Pending
import SlotRing.Proofs.Mapping.Built
import SlotRing.Proofs.Cluster.Hints
import SlotRing.Proofs.Time.Endings
import SlotRing.Proofs.Cluster.FanOut
import SlotRing.Proofs.Ring.Metric
import SlotRing.Proofs.Cluster.Inquiries
import SlotRing.Proofs.Rehash.Deadlines
import SlotRing.Proofs.Time.Tallies
import SlotRing.Proofs.Cluster.Deliveries
import SlotRing.Proofs.Cluster.Races
import SlotRing.Proofs.Rehash.Handovers
import SlotRing.Proofs.Ring.Window
