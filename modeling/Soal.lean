import Soal.Codec.Announced
import Soal.Codec.Canonical
import Soal.Codec.Faithful
import Soal.Codec.Preimages
import Soal.Codec.Hostile
import Soal.Codec.WellFormed
import Soal.Lib.LooksAt
import Soal.Lib.Tips
import Soal.Lib.Trace
import Soal.Logical
import Soal.Network.Members
import Soal.Placement
import Soal.Replication
import Soal.Restore
import Soal.Runs.AddDirectory
import Soal.Runs.AddHistory
import Soal.Runs.BlobSizes
import Soal.Runs.HeadComplete
import Soal.Runs.HeadTips
import Soal.Runs.RelatedMerge
import Soal.Runs.Replicas
import Soal.Runs.SavedTree
import Soal.Runs.StoreIntegrity
import Soal.StandIn
import Soal.Sync.Adoption
import Soal.Sync.Bound
import Soal.Sync.Signed
import Soal.Vault.Adopt
import Soal.Vault.Collect
import Soal.Vault.Footprint
import Soal.Vault.History
import Soal.Vault.MergeHeads
import Soal.Vault.Passphrase
import Soal.Vault.Pinned
import Soal.Vault.ProvideAll
import Soal.Vault.SignedConfig
import Soal.Joining
import Soal.Runs.Invited
import Soal.Runs.KeyCustody
import Soal.Runs.Lineage
import Soal.Runs.Retention
import Soal.Runs.Restored
import Soal.Runs.Ticks
