import Ethcore.Interleaving
import Ethcore.Miner.Types
import Ethcore.Miner.Listener
import Ethcore.Miner.System
import Ethcore.Miner.Invariant
import Ethcore.Miner.ListenerRun
import Ethcore.Miner.Deadlock
import Ethcore.Miner.Txs
import Ethcore.Miner.Turbo
import Ethcore.ChainDb.Store
import Ethcore.ChainDb.Upgrade
import Ethcore.ChainDb.Blocks
import Ethcore.ChainDb.Mipmap
import Ethcore.Downloader.Subscriptions
import Ethcore.Eth.New
import Ethcore.Eth.Solc
