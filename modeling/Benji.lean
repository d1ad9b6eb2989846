import Benji.Backup.Differential
import Benji.Balance.Many
import Benji.Balance.Runs
import Benji.Balance.Sessions
import Benji.Ceph.Content
import Benji.Ceph.Success
import Benji.Database.Accepted
import Benji.Database.Dense
import Benji.Database.FilterText
import Benji.Database.Locking
import Benji.Database.Usage
import Benji.Gc.Leaks
import Benji.Io.Collected
import Benji.Io.Pairing
import Benji.Labels
import Benji.Nbd.Exports
import Benji.Nbd.Negotiation
import Benji.Nbd.ReadBack
import Benji.Restore.Damaged
import Benji.Retention.Enforced
import Benji.Retention.Rules
import Benji.Schedule.Expiry
import Benji.Schedule.Gfs
import Benji.Schedule.Run
import Benji.Scrub.Decides
import Benji.Servicer.BlockSize
import Benji.Servicer.Immutable
import Benji.Servicer.Scrub
import Benji.Servicer.Valid
import Benji.Services.Isolated
import Benji.Services.Listing
import Benji.Services.Tenancy
import Benji.Storage.Codec
import Benji.Storage.FileObjects
import Benji.Storage.Listing
import Benji.Storage.ReadCache
import Benji.TokenBucket
import Benji.Transform.Chain
