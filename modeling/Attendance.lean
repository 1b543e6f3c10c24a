import Attendance.Properties.AccountTable
import Attendance.Properties.BufferOverruns
import Attendance.Properties.ChainFiles
import Attendance.Properties.Chronology
import Attendance.Properties.CloudAccounting
import Attendance.Properties.CloudCredit
import Attendance.Properties.Consistency
import Attendance.Properties.CreditTotals
import Attendance.Properties.DoubleEntry
import Attendance.Properties.ExactTransfers
import Attendance.Properties.ExplainedBalances
import Attendance.Properties.ExplicitNonce
import Attendance.Properties.FailedAppend
import Attendance.Properties.FalseAlarms
import Attendance.Properties.FreshSignatures
import Attendance.Properties.HeapSafety
import Attendance.Properties.Histories
import Attendance.Properties.IdleLines
import Attendance.Properties.IntLimits
import Attendance.Properties.KeptBlocks
import Attendance.Properties.KeyFiles
import Attendance.Properties.LeastNonce
import Attendance.Properties.LedgerDisplays
import Attendance.Properties.LedgerRuns
import Attendance.Properties.LostKeys
import Attendance.Properties.MinableDifficulty
import Attendance.Properties.ModesAgree
import Attendance.Properties.NoRecordLost
import Attendance.Properties.PayloadInjectivity
import Attendance.Properties.PendingQueue
import Attendance.Properties.PoolPayouts
import Attendance.Properties.PoolShares
import Attendance.Properties.RecordDisplays
import Attendance.Properties.RefusedTransfers
import Attendance.Properties.RegistryFiles
import Attendance.Properties.RegistryLines
import Attendance.Properties.ReplayProtection
import Attendance.Properties.Restarts
import Attendance.Properties.RewardAgreement
import Attendance.Properties.SoloReports
import Attendance.Properties.Solvency
import Attendance.Properties.Supply
import Attendance.Properties.TamperEvidence
import Attendance.Properties.TamperReports
import Attendance.Properties.TipCommitment
import Attendance.Properties.TransactionTexts
import Attendance.Properties.TransferIds
import Attendance.Properties.TypedCommands
import Attendance.Properties.UtxoReferences
import Attendance.Properties.UtxoTransfers
