import Scety.Lib.Split
import Scety.Lib.Glob
import Scety.Lib.Priority
import Scety.Lib.LruCache
import Scety.Lib.Transition
import Scety.Lib.Trim
import Scety.Lib.Lines
import Scety.Lib.Effects
import Scety.Lib.History
import Scety.Lib.Monitor
import Scety.Lib.Moments
import Scety.Lib.Streams
import Scety.Lib.Timed
import Scety.Lib.Grouping
import Scety.Lib.Pool
import Scety.Lib.Stepwise
import Scety.Lib.Disk
import Scety.Lib.Queries
import Scety.Lib.Template
import Scety.Basic
import Scety.Bytes
import Scety.Config.Services
import Scety.Config.Toml
import Scety.Config.PerPort
import Scety.Config.Sections
import Scety.Config.ServiceFiles
import Scety.Config.Global
import Scety.Config.Limitation
import Scety.Config.SettingsFile
import Scety.Core.LetterCase
import Scety.Core.HostRouter
import Scety.Core.Language
import Scety.Core.DpMatch
import Scety.Core.DpTable
import Scety.Core.Trie
import Scety.Core.TrieInserts
import Scety.Core.Classify
import Scety.Core.Stores
import Scety.Core.SearchKeys
import Scety.Core.FastMatchers
import Scety.Core.Routing
import Scety.Core.EdgeDoubleStar
import Scety.Core.HostCase
import Scety.Core.Registration
import Scety.Core.Specificity
import Scety.Core.SearchRouter
import Scety.Network.GlobalRouter
import Scety.Network.CertCheck
import Scety.Network.TlsName
import Scety.Network.CheckCertificate
import Scety.Network.IpLimit
import Scety.Network.IpTable
import Scety.Network.Serving
import Scety.Network.Headers
import Scety.Network.Framing
import Scety.Network.HeaderRewrite
import Scety.Network.Message
import Scety.Network.HeadGrammar
import Scety.Network.Request
import Scety.Network.RequestRuns
import Scety.Network.Protocol
import Scety.Network.Responses
import Scety.Network.Reading
import Scety.Network.Relay
import Scety.Network.FinalResponse
import Scety.Network.Forwarding
import Scety.Network.ConnectionOrder
import Scety.Network.ConfiguredHeaders
import Scety.Network.Exchange
import Scety.Http.Response
import Scety.Http.Decode
import Scety.Cli.CheckCerts
import Scety.Cli.CommandRules
import Scety.Cli.CommandRuns
import Scety.Cli.Commands
import Scety.Cli.Files
import Scety.Cli.FileRuns
import Scety.Cli.Install
import Scety.Cli.InstallRuns
import Scety.Cli.Run
import Scety.Network.Output
import Scety.Network.Shutdown
import Scety.Network.Fallback
import Scety.Network.Tls
import Scety.Network.Server
import Scety.Network.ServerRuns
import Scety.Network.ServerLimits
import Scety.Network.ServerExit
import Scety.Network.ServerRouting
import Scety.Network.SharedRouter
import Scety.Network.Timers
import Scety.Network.Phases
import Scety.Network.FullTimeout
import Scety.Network.Duration
