import BeyondKv.FooterDamage
import BeyondKv.ReclaimKeeps
import BeyondKv.CleanRestart
import BeyondKv.Revisions
import BeyondKv.WriteErrors
import BeyondKv.Unsynced
import BeyondKv.Locks
import BeyondKv.BlobRefs
import BeyondKv.BlobCollector
import BeyondKv.CacheQueues
import BeyondKv.Sdk.RetryAfter
import BeyondKv.Sdk.RespBatch
import BeyondKv.Watch
import BeyondKv.Sdk.TokenBucket
import BeyondKv.Sdk.Retry
import BeyondKv.Sdk.Prefs
import BeyondKv.Sdk.Coalesce
import BeyondKv.Server.Inbox
import BeyondKv.Server.Routing
import BeyondKv.Scanner
import BeyondKv.IndexMaps
import BeyondKv.Sdk.SnapshotSync
import BeyondKv.Server.Peek
import BeyondKv.Server.Commands
import BeyondKv.BlobRecovery
