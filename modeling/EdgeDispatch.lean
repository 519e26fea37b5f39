import EdgeDispatch.Metrics
import EdgeDispatch.Tunnel.BodyReader
import EdgeDispatch.Tunnel.StalledLoop
import EdgeDispatch.Tunnel.RemoteErrors
import EdgeDispatch.Tunnel.ClientBodies
import EdgeDispatch.Tunnel.Registry
import EdgeDispatch.Tunnel.StreamLifecycle
import EdgeDispatch.Store.Heartbeats
import EdgeDispatch.Store.HeartbeatCodec
import EdgeDispatch.ControlPlane.Leader
import EdgeDispatch.ControlPlane.Background
import EdgeDispatch.ControlPlane.NodeVisibility
import EdgeDispatch.ControlPlane.TenantRateLimit
import EdgeDispatch.ControlPlane.IdleLimiter
import EdgeDispatch.Gateway.NodeDecoding
import EdgeDispatch.Dns.Question
import EdgeDispatch.Dns.AnswerRecords
import EdgeDispatch.Auth.Session
import EdgeDispatch.ControlPlane.AdminInternal
import EdgeDispatch.ControlPlane.RefreshTokens
import EdgeDispatch.ControlPlane.TaskCounters
import EdgeDispatch.ControlPlane.NodePushes
import EdgeDispatch.ControlPlane.Pagination
import EdgeDispatch.ControlPlane.BlockTables
import EdgeDispatch.ControlPlane.HeartbeatBatch
import EdgeDispatch.ControlPlane.PolicyHistory
import EdgeDispatch.Edge.Eviction
import EdgeDispatch.Edge.KeyListings
import EdgeDispatch.Edge.ReadDuringPut
import EdgeDispatch.ContentIndex.StoreMirror
import EdgeDispatch.Edge.HeartbeatSize
import EdgeDispatch.Edge.CircuitBreaker
import EdgeDispatch.Edge.MetricsExport
import EdgeDispatch.Edge.MetricsDelta
import EdgeDispatch.Edge.CachedRanges
import EdgeDispatch.Edge.PeerDiscovery
import EdgeDispatch.Edge.Compression
import EdgeDispatch.ControlPlane.BatchScoring
import EdgeDispatch.Streaming.StreamFrames
import EdgeDispatch.Streaming.PlaylistNumbers
import EdgeDispatch.Streaming.DashManifest
import EdgeDispatch.Streaming.Interception
import EdgeDispatch.Edge.Purge
import EdgeDispatch.FollowedRedirects
import EdgeDispatch.ResourceKeys
import EdgeDispatch.Gateway.Forwarding
