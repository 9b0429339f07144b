import Cur8or.CxxLibrary
import Cur8or.PosixPath
import Cur8or.TransitionSystem
import Cur8or.SimpleSession
import Cur8or.UtilitiesAdaptors
import Cur8or.AdaptorReference
import Cur8or.AdaptorTrace
import Cur8or.PathResolver
import Cur8or.HttpResponses
import Cur8or.MessageProcessing
import Cur8or.PathRegistrations
import Cur8or.SqliteRanges
import Cur8or.SqliteRowIterators
import Cur8or.SqliteTableCopies
import Cur8or.SqliteJson
import Cur8or.SharedOwnership
import Cur8or.SqliteOwnership
import Cur8or.ClientMain
import Cur8or.ClientSql
import Cur8or.ClientTargets
import Cur8or.QueryIsolation
import Cur8or.HttpConnections
import Cur8or.Interleaving
import Cur8or.SocketListener
import Cur8or.ClientSurvival
import Cur8or.ClientServer
import Cur8or.LengthFraming
import Cur8or.ResponseFraming
import Cur8or.ClientVisibility
import Cur8or.AtomicService
import Cur8or.SharedResolver
import Cur8or.SqlExchange
import Cur8or.AdaptorRoundTrips
import Cur8or.SqliteReevaluation
import Cur8or.FileExchange
import Cur8or.SessionLifetime
import Cur8or.QueryPage
