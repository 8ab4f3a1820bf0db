import Nestchain.Proposals.ApprovalIndex
import Nestchain.History.OperationIds
import Nestchain.History.RelativeQueries
import Nestchain.Chain.History
import Nestchain.Chain.Replay
import Nestchain.Chain.MerkleRoot
import Nestchain.Chain.Reopening
import Nestchain.Market.FeedRevival
import Nestchain.Market.Tradable
import Nestchain.Market.MarginCalls
import Nestchain.Market.Bids
import Nestchain.Market.Payable
import Nestchain.Market.CoverTotal
import Nestchain.Assets.Freshness
import Nestchain.Assets.Amounts
import Nestchain.Assets.AmountTexts
import Nestchain.Schedule.Participation
import Nestchain.Schedule.Turns
import Nestchain.Protocol.Authority
import Nestchain.Protocol.Extension
import Nestchain.Protocol.FeeSchedule
import Nestchain.Proposals.Once
import Nestchain.Proposals.Monotone
import Nestchain.Proposals.Review
import Nestchain.Maintenance.StakeMedian
import Nestchain.Maintenance.VoteCounter
import Nestchain.Market.Issuance
import Nestchain.Db.BdbRefinement
import Nestchain.Chain.LastBlock
import Nestchain.Plugins.OrderGroups
import Nestchain.Plugins.TickerRun
import Nestchain.Plugins.Retention
import Nestchain.Plugins.Candles
import Nestchain.Contracts.Registry
import Nestchain.Accounts.SpecialAuthorities
import Nestchain.Net.MessageConnection
import Nestchain.Confidential.Soundness
import Nestchain.App.Sync
import Nestchain.App.PriceTexts
import Nestchain.Market.Scale
import Nestchain.Vesting.CoinDays
import Nestchain.Vesting.Linear
import Nestchain.Accounts.WithdrawPermissions
import Nestchain.Accounts.FeeScaling
import Nestchain.Accounts.MemberIndex
import Nestchain.Accounts.Names
import Nestchain.Protocol.MinimalSignatures
import Nestchain.Protocol.AddressSignatures
import Nestchain.Market.DeferredFees
import Nestchain.Market.PositionsClosed
import Nestchain.Market.SettlementVolume
import Nestchain.Market.Adjunction
import Nestchain.Market.PriceIndexes
import Nestchain.Chain.Production
import Nestchain.Chain.BlockSummaries
import Nestchain.Net.Inventory
import Nestchain.Net.MessageCache
import Nestchain.Plugins.DelayedNode
