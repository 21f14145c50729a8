import Ethereyum.Lib.Mealy
import Ethereyum.Lib.Slots
import Ethereyum.Lib.WaitFor
import Ethereyum.Lib.Hex
import Ethereyum.Lib.Simulation
import Ethereyum.Value
import Ethereyum.Rpc
import Ethereyum.Future
import Ethereyum.Resolution
import Ethereyum.Client
import Ethereyum.Dispatch
import Ethereyum.Tables
import Ethereyum.History
import Ethereyum.Batch
import Ethereyum.Pubsub
import Ethereyum.Timeout
import Ethereyum.Interleaving
import Ethereyum.Correlation
import Ethereyum.Teardown
import Ethereyum.Exchange
import Ethereyum.FirstCall
import Ethereyum.LazyStream
import Ethereyum.BlockStream
import Ethereyum.BlockComplete
import Ethereyum.BlockUnique
import Ethereyum.BlockProgress
import Ethereyum.BlockBound
import Ethereyum.BlockRange
import Ethereyum.BlockWindows
import Ethereyum.TransactionStream
import Ethereyum.TransactionProgress
import Ethereyum.Wakeup
import Ethereyum.LiveStream
import Ethereyum.LiveBlocks
import Ethereyum.BlockAgreement
import Ethereyum.LiveTransactions
import Ethereyum.Reader
import Ethereyum.ContractString
import Ethereyum.TokenData
import Ethereyum.FailedSend
import Ethereyum.Subscribers
import Ethereyum.Routing
import Ethereyum.Delivery
import Ethereyum.PubsubContract
import Ethereyum.Pool
import Ethereyum.Checkout
import Ethereyum.RoundRobin
import Ethereyum.Startup
import Ethereyum.Shutdown
import Ethereyum.Probe
import Ethereyum.EventLoop
import Ethereyum.SocketThreads
import Ethereyum.EndToEnd
import Ethereyum.Locks
import Ethereyum.CircularWait
import Ethereyum.Deadline
