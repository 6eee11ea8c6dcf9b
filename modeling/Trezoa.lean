import Trezoa.AccountsDb.AccountLocks
import Trezoa.AccountsDb.GenerateIndex
import Trezoa.AccountsDb.CleanIndex
import Trezoa.AccountsDb.PurgeSet
import Trezoa.AccountsDb.SlotListUpdates
import Trezoa.BankingStage.Buffer
import Trezoa.Consensus.LockoutSafety
import Trezoa.Gossip.Consumers
import Trezoa.Ledger.CompletedData
import Trezoa.Ledger.SimdVerification
import Trezoa.Ledger.ShredRoundTrip
import Trezoa.UnifiedScheduler.Order
import Trezoa.ProgramRuntime.CallChain
import Trezoa.Runtime.InflationRewards
import Trezoa.Runtime.ReplayProtection
import Trezoa.Runtime.RewardsDistribution
import Trezoa.SchedulingUtils.LockGrants
import Trezoa.Transaction.Authority
import Trezoa.Transaction.Conservation
import Trezoa.Turbine.StakedTopology
import Trezoa.VoteProgram.EpochCredits
import Trezoa.VoteProgram.HonestTower
import Trezoa.Votor.CertificateCompleteness
import Trezoa.Votor.CertificateSafety
import Trezoa.Votor.Standstill
import Trezoa.Votor.VoteSafety
