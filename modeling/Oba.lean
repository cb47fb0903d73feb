import Oba.Acl.Spelling
import Oba.Admin.Replay
import Oba.Admin.Requests
import Oba.Admin.Standalone
import Oba.Backend.Modifications
import Oba.Backend.ModifyDNCorrect
import Oba.Backend.Orphans
import Oba.Backend.UidRepairSafe
import Oba.Backup.Restore
import Oba.Filters.Match
import Oba.Filters.RoundTrip
import Oba.Ldap.Nesting
import Oba.Ldap.RoundTrip
import Oba.Password.Lockout
import Oba.Raft.Durability
import Oba.Raft.IndexOrder
import Oba.Raft.LogRepair
import Oba.Raft.MatchIndex
import Oba.Raft.Proposal
import Oba.Raft.ReplicaAgreement
import Oba.Raft.RestartSafety
import Oba.Raft.SnapshotRoundTrip
import Oba.Server.Dispatch
import Oba.Server.FilterConversion
import Oba.Server.Modify
import Oba.Server.Selection
import Oba.Server.Sorting
import Oba.Storage.BufferPool
import Oba.Storage.CommitFailure
import Oba.Storage.Pruning
import Oba.Storage.NormalForm
import Oba.Storage.PageImage
import Oba.Storage.RecoveryTwice
import Oba.Storage.UidUniqueness
import Oba.Storage.WALTorn
import Oba.Storage.Wildcard
