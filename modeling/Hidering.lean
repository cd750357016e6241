import Hidering.Basic.PrunedWeight
import Hidering.Chain.AltCoins
import Hidering.Chain.DifficultyRun
import Hidering.Chain.Emission
import Hidering.Chain.LongTermRun
import Hidering.Chain.Pow
import Hidering.Chain.ShortHistory
import Hidering.Chain.VoteWindow
import Hidering.Chain.WeightGrowth
import Hidering.Verify.Authorisation
import Hidering.Verify.Cache
import Hidering.Verify.Rings
import Hidering.Pool.Conflict
import Hidering.Pool.RelayRun
import Hidering.Net.BlockQueue
import Hidering.Net.Dandelionpp
import Hidering.Net.NoiseChannel
import Hidering.Pqc.Rng
import Hidering.Construct.Miner
import Hidering.Account.AddressText
import Hidering.Wallet.AdjustedDsts
import Hidering.Wallet.ColdSign
import Hidering.Wallet.KeysFile
import Hidering.Wallet.PqSpend
import Hidering.Wallet.PqTable
import Hidering.Wallet.Rescan
import Hidering.Common.Pruning
import Hidering.Crypto.TreeHash
import Hidering.Mnemonics.ElectrumWords
