import MinerGate.Lib.Assignments
import MinerGate.Lib.Boards
import MinerGate.Lib.CircularBuffer
import MinerGate.Lib.CountedLoop
import MinerGate.Lib.Exclusive
import MinerGate.Lib.Lines
import MinerGate.Lib.Loops
import MinerGate.Lib.Numbering
import MinerGate.Lib.PrefixWrites
import MinerGate.Lib.Mailbox
import MinerGate.Lib.RacingMinimum
import MinerGate.Lib.Reservation
import MinerGate.Lib.Settling
import MinerGate.Lib.Stutter
import MinerGate.Lib.Tally
import MinerGate.Lib.Tickets
import MinerGate.Lib.Transition
import MinerGate.Qt.Bytes
import MinerGate.Qt.Json
import MinerGate.Qt.QString
import MinerGate.Qt.Numbers
import MinerGate.Utils.MemorySettings
import MinerGate.Utils.Settings
import MinerGate.Utils.SettingsRemoval
import MinerGate.Utils.SettingsTree
import MinerGate.JsonRpc.Framing
import MinerGate.JsonRpc.Client
import MinerGate.JsonRpc.Correlation
import MinerGate.JsonRpc.WriteAccounting
import MinerGate.JsonRpc.RequestTimer
import MinerGate.Miner.Job
import MinerGate.Miner.NonceCtl
import MinerGate.Miner.NonceRace
import MinerGate.Miner.NonceRanges
import MinerGate.Miner.Worker
import MinerGate.Miner.CpuLoop
import MinerGate.Miner.HRCounter
import MinerGate.Miner.HRRing
import MinerGate.Miner.HashCount
import MinerGate.Miner.CudaLoops
import MinerGate.Miner.OclLoops
import MinerGate.Miner.GpuWorker
import MinerGate.Miner.Delivery
import MinerGate.Miner.Batches
import MinerGate.Miner.FeeDraws
import MinerGate.Miner.SearchLoop
import MinerGate.Miner.LaunchRanges
import MinerGate.Miner.Impl
import MinerGate.Miner.StartDelivery
import MinerGate.Miner.StartStop
import MinerGate.Miner.Teardown
import MinerGate.Miner.JobSwitch
import MinerGate.Pool.Client
import MinerGate.Pool.StratumClient
import MinerGate.Pool.JobMessages
import MinerGate.Miner.DeviceHash
import MinerGate.Miner.CudaBatch
import MinerGate.Miner.CudaAllocation
import MinerGate.Miner.CudaDevice
import MinerGate.Miner.OclWorkSizes
import MinerGate.Miner.DeviceNumbers
import MinerGate.Ethereum.FixedHash
import MinerGate.Ethereum.CudaStreams
import MinerGate.Ethereum.OclBuffers
import MinerGate.Miner.Shares
import MinerGate.Pool.PoolClient
import MinerGate.Pool.EthereumJobs
import MinerGate.Pool.WorkerId
import MinerGate.Pool.Stop
import MinerGate.Pool.Freshness
import MinerGate.Pool.LoginRetry
import MinerGate.Pool.OneLogin
import MinerGate.Pool.AcceptedShares
import MinerGate.Pool.PoolSwitch
import MinerGate.Ethereum.DagFile
import MinerGate.Ethereum.DagController
import MinerGate.Ethereum.DagAgreement
import MinerGate.Ethereum.DagKept
import MinerGate.Ethereum.JobPreparation
import MinerGate.Ethereum.DagMining
import MinerGate.Ethereum.Acceptance
import MinerGate.Ethereum.HitBuffers
import MinerGate.Ethereum.CudaParams
import MinerGate.Ethereum.CudaPass
import MinerGate.Coins.CoinManager
import MinerGate.Coins.MergedMining
import MinerGate.Coins.CoreAccounting
import MinerGate.Coins.MergedTargets
import MinerGate.Coins.GpuPoolStates
import MinerGate.Coins.CoinSet
import MinerGate.Coins.GpuFlags
import MinerGate.Coins.GpuExclusive
import MinerGate.Coins.EthereumExclusive
import MinerGate.Coins.PoolConfig
import MinerGate.Coins.PoolRefresh
import MinerGate.Console.PreScan
import MinerGate.Console.ArgumentParser
import MinerGate.Console.CpuThreads
import MinerGate.Console.GpuTuning
import MinerGate.Lib.KeyedUpdates
import MinerGate.Utils.Logger
import MinerGate.Utils.AbstractSettings
import MinerGate.Utils.ParameterDefaults
