import LogosChain.Blend.CoverTraffic
import LogosChain.Engine.Invariant
import LogosChain.Engine.Stability
import LogosChain.Engine.Report
import LogosChain.Ledger.Proofs
import LogosChain.Block.Encoding
import LogosChain.Ledger.Values
import LogosChain.Ledger.Activity
import LogosChain.Ledger.Difficulty
import LogosChain.Chain.Eviction
import LogosChain.Chain.Download
import LogosChain.Chain.Restart
import LogosChain.Merkle.Recovered
import LogosChain.Mempool.Retention
import LogosChain.Wallet.Follow
import LogosChain.Wallet.Untrusted
import LogosChain.Wallet.Vouchers
import LogosChain.Ledger.Claims
import LogosChain.Ledger.Distribution
import LogosChain.Ledger.Supply
import LogosChain.Mantle.Turns
import LogosChain.Ledger.Retarget
import LogosChain.Ledger.BlendRetarget
import LogosChain.Ledger.Markets
import LogosChain.Mantle.Collections
import LogosChain.Zone.ChannelWallet
import LogosChain.Zone.Submit
