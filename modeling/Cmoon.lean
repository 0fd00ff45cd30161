import Cmoon.CacheLifetimes
import Cmoon.CacheEvictions
import Cmoon.ExpiredEntries
import Cmoon.RequestReads
import Cmoon.RequestRouting
import Cmoon.RequestGrammar
import Cmoon.TcpFraming
import Cmoon.SessionTokens
import Cmoon.MemberPrivileges
import Cmoon.MemberNames
import Cmoon.PlanOwnership
import Cmoon.PlanReads
import Cmoon.ConversationKeys
import Cmoon.CityAnswers
import Cmoon.TriggerRuns
import Cmoon.QueueBacklog
import Cmoon.PluginStops
import Cmoon.PluginTimers
import Cmoon.ServerChoice
import Cmoon.RequestPackets
import Cmoon.ReplyIds
import Cmoon.OversizedData
import Cmoon.ReplyStreams
import Cmoon.ReplyEndings
import Cmoon.CityLists
import Cmoon.BankTransactions
import Cmoon.MysqlBinding
import Cmoon.DatabaseDrivers
import Cmoon.MemberReads
import Cmoon.SpideredPlans
import Cmoon.CommentPages
import Cmoon.MatchingKeys
import Cmoon.BankBalances
import Cmoon.MemberRegistrations
import Cmoon.LoginChecks
import Cmoon.PlanLeaving
import Cmoon.MemcachedCounters
import Cmoon.ClientLimits
import Cmoon.ChatPresence
import Cmoon.ChatLoads
import Cmoon.ChatDestinations
import Cmoon.ChatConnects
import Cmoon.UnknownAddresses
import Cmoon.GroupPrivileges
import Cmoon.ChatReplies
import Cmoon.WordPositions
import Cmoon.WordChoices
import Cmoon.RunSkipping
import Cmoon.PackedMembers
import Cmoon.PlaceRecords
import Cmoon.MatchingCounts
import Cmoon.WeeklyPlans
import Cmoon.ExactCounters
import Cmoon.RowPlacement
import Cmoon.FormatArguments
import Cmoon.StatementFragments
import Cmoon.CommentRuns
import Cmoon.PageWindows
import Cmoon.HtmlEntities
import Cmoon.TemplateRendering
import Cmoon.JsonTrees
import Cmoon.PackedFiles
import Cmoon.PackedSizes
import Cmoon.KeyChecksums
import Cmoon.ClientConfigs
import Cmoon.ExplodedTexts
import Cmoon.MissedNames
import Cmoon.QueueEntries
import Cmoon.RequestLifecycles
import Cmoon.Md5Texts
import Cmoon.Base64Files
import Cmoon.CommentAges
import Cmoon.MinifiedScripts
import Cmoon.RemoteCalls
import Cmoon.ChatRoutes
import Cmoon.SiteVisitors
