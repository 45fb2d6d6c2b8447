import IntroNP.Bytes
import IntroNP.Runs
import IntroNP.Bitmap
import IntroNP.Blocks
import IntroNP.Chunks
import IntroNP.Pieces
import IntroNP.Rfc1035
import IntroNP.Conversions
import IntroNP.Tokens
import IntroNP.Tables
import IntroNP.Programs
import IntroNP.DnsName
import IntroNP.DnsRecord
import IntroNP.DnsZone
import IntroNP.DnsNip
import IntroNP.DnsServer
import IntroNP.DnsConsistency
import IntroNP.DnsReply
import IntroNP.DnsZoneFile
import IntroNP.MircdMessages
import IntroNP.Mircd
import IntroNP.MircdEffects
import IntroNP.MircdMembership
import IntroNP.MircdDelivery
import IntroNP.MircdNicknames
import IntroNP.MircdDispatch
import IntroNP.MircdRegistration
import IntroNP.MircdInput
import IntroNP.MircdBuffers
import IntroNP.RobustUdp
import IntroNP.RobustUdpServer
import IntroNP.RobustUdpSafety
import IntroNP.RobustUdpRuns
import IntroNP.RobustUdpTransfer
import IntroNP.RobustUdpTermination
import IntroNP.RobustUdpKeep
import IntroNP.DnsSelection
import IntroNP.DnsParsing
import IntroNP.DnsNameError
import IntroNP.DnsCase
import IntroNP.DnsForward
import IntroNP.BroadcastXdp
import IntroNP.BroadcastXdpRoles
import IntroNP.FileContainer
import IntroNP.FileSystem
import IntroNP.FileTransfers
import IntroNP.MircdGrammar
import IntroNP.MircdQueries
import IntroNP.FastDelivery
import IntroNP.Words
import IntroNP.Pako
import IntroNP.PakoFiles
import IntroNP.PakoUnpack
import IntroNP.MircdServer
import IntroNP.MircdReplies
import IntroNP.MircdLines
import IntroNP.MircdNumerics
import IntroNP.MircdMembers
import IntroNP.MircdIdentifiers
import IntroNP.Backtracking
import IntroNP.Sudoku
import IntroNP.DnsRdata
import IntroNP.DnsAnswers
import IntroNP.DnsTargets
import IntroNP.OnesComplement
import IntroNP.BroadcastXdpChecksum
import IntroNP.ChatServer
import IntroNP.ChatWho
import IntroNP.ChatBuffers
import IntroNP.Sextets
import IntroNP.Base64
import IntroNP.ProofOfWork
import IntroNP.WorkQueue
import IntroNP.WebCrawler
import IntroNP.MircdChat
import IntroNP.RobustUdpProgress
import IntroNP.FastDeliveryMeter
import IntroNP.Descriptors
import IntroNP.Nkat
import IntroNP.BroadcastXdpTransfer
import IntroNP.DnsResolver
import IntroNP.Guessing
import IntroNP.Oracles
import IntroNP.OraclesDesk
import IntroNP.OraclesExploit
