import Mdclog.ChainRuns
import Mdclog.ConfigMapText
import Mdclog.Deescape
import Mdclog.DefaultIdentity
import Mdclog.FailedAdd
import Mdclog.FormatFields
import Mdclog.FormatLaws
import Mdclog.FormatSafety
import Mdclog.IdentityHeap
import Mdclog.InitRace
import Mdclog.KeyOnce
import Mdclog.LevelWatch
import Mdclog.LogReader
import Mdclog.LoggerRuns
import Mdclog.LostEntry
import Mdclog.MessageText
import Mdclog.MonitorEnd
import Mdclog.MonitorRace
import Mdclog.ReadBack
import Mdclog.SpecialCharacters
import Mdclog.StaleMemory
import Mdclog.Stdout
