import IoLake.Storage.WalReplay
import IoLake.Storage.Recovery
import IoLake.Osd.PgIndexRuns
import IoLake.Gateway.Reclaim
import IoLake.Gateway.AckedDeletes
import IoLake.Gateway.VersionsKept
import IoLake.Meta.ActingRuns
import IoLake.Meta.DomainLoss
import IoLake.Meta.PutsVisible
import IoLake.Meta.Listings
import IoLake.Meta.StripeRuns
import IoLake.Meta.BlockFrees
import IoLake.MetaStore.SnapshotRuns
import IoLake.Meta.CacheRuns
import IoLake.Iceberg.Isolation
import IoLake.Iceberg.Parents
import IoLake.Iceberg.Commits
import IoLake.Gateway.KeyCopies
import IoLake.Gateway.Locks
import IoLake.Gateway.Sessions
import IoLake.Gateway.ConditionalDeletes
import IoLake.Gateway.ListingAgrees
import IoLake.Meta.ResumedPass
import IoLake.Placement.Exact
import IoLake.Meta.RebuildLrc
import IoLake.Osd.DeleteWrites
import IoLake.Common.Stamp
import IoLake.Gateway.Multipart
import IoLake.Gateway.CopyByReference
import IoLake.Gateway.Like
import IoLake.Gateway.MinMax
import IoLake.Gateway.Lifecycle
import IoLake.Gateway.Quota
import IoLake.Kms.Context
import IoLake.Iceberg.Names
import IoLake.Iceberg.TableQuota
import IoLake.Iceberg.Reencode
import IoLake.Iceberg.Filters
import IoLake.Common.LogTail
