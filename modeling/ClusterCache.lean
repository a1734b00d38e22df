import ClusterCache.Cluster.Client
import ClusterCache.Proofs.Agreement
import ClusterCache.Proofs.Alignment
import ClusterCache.Proofs.Bookkeeping
import ClusterCache.Proofs.Cluster.Hops
import ClusterCache.Proofs.Cluster.Transparency
import ClusterCache.Proofs.Conservation
import ClusterCache.Proofs.Course
import ClusterCache.Proofs.Death
import ClusterCache.Proofs.Deletions
import ClusterCache.Proofs.EventLog
import ClusterCache.Proofs.EventQueue
import ClusterCache.Proofs.Eviction.Agreement
import ClusterCache.Proofs.Eviction.Frequency
import ClusterCache.Proofs.Eviction.Lookups
import ClusterCache.Proofs.Eviction.Policy
import ClusterCache.Proofs.Eviction.Recency
import ClusterCache.Proofs.EvictionLimit
import ClusterCache.Proofs.ExpiredDeletions
import ClusterCache.Proofs.ExpiryIndex
import ClusterCache.Proofs.ExpiryMap
import ClusterCache.Proofs.Findings
import ClusterCache.Proofs.ForeignKeys
import ClusterCache.Proofs.Forwarding
import ClusterCache.Proofs.Hearing
import ClusterCache.Proofs.Http.Query
import ClusterCache.Proofs.Independence
import ClusterCache.Proofs.Journal
import ClusterCache.Proofs.Keeper
import ClusterCache.Proofs.Ledger
import ClusterCache.Proofs.ListingOrder
import ClusterCache.Proofs.LocalMember
import ClusterCache.Proofs.Message
import ClusterCache.Proofs.Node
import ClusterCache.Proofs.OwnKeys
import ClusterCache.Proofs.Pass
import ClusterCache.Proofs.PassResult
import ClusterCache.Proofs.RefusedDeletions
import ClusterCache.Proofs.Replies
import ClusterCache.Proofs.Ring.Labels
import ClusterCache.Proofs.Ring.Members
import ClusterCache.Proofs.Ring.Moves
import ClusterCache.Proofs.Ring.Ownership
import ClusterCache.Proofs.Roster
import ClusterCache.Proofs.RoundTrip
import ClusterCache.Proofs.Sequential
import ClusterCache.Proofs.Serving
import ClusterCache.Proofs.Settings
import ClusterCache.Proofs.Shard
import ClusterCache.Proofs.SlotSequence
import ClusterCache.Proofs.Sources
import ClusterCache.Proofs.Surfaces
import ClusterCache.Proofs.Sweeps
import ClusterCache.Proofs.SweptEntries
import ClusterCache.Proofs.Tracking
import ClusterCache.Proofs.Undisturbed
import ClusterCache.Proofs.WithoutWorker
