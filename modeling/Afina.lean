import Afina.StoreHistory
import Afina.StoreAccounting
import Afina.StoreRoom
import Afina.StoreCapacity
import Afina.StoreReference
import Afina.StoreOrder
import Afina.StoreRetention
import Afina.CommandReplies
import Afina.AppendRace
import Afina.ParserNumbers
import Afina.ConnectionPipeline
import Afina.ConnectionSplit
import Afina.ConnectionBounds
import Afina.WorkerClose
import Afina.WorkerClosed
import Afina.WorkerCounts
import Afina.WorkerAlive
import Afina.ExecutorStop
import Afina.ExecutorBusy
import Afina.ServerLimit
import Afina.HandlerPipeline
import Afina.HandlerStale
import Afina.EpollSockets
import Afina.EngineDone
import Afina.ParserExpire
import Afina.ParserBuild
import Afina.ParserReset
import Afina.ParserStrict
import Afina.ParserStops
import Afina.ConnectionEmpty
import Afina.GetReply
import Afina.StoreArithmetic
import Afina.StoreThreads
import Afina.CommandThreads
import Afina.UvClients
import Afina.ServersAgree
import Afina.UvDrain
import Afina.ExecutorProgress
import Afina.StoreUniform
import Afina.HandlerService
import Afina.EngineProgress
