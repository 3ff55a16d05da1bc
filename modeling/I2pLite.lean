import I2pLite.Core.CRun
import I2pLite.Core.CInt
import I2pLite.Core.LinkedChain
import I2pLite.Core.ChainedTable
import I2pLite.Core.CBytes
import I2pLite.Core.Decimal
import I2pLite.Core.Bencoding
import I2pLite.Core.Stdio
import I2pLite.Core.Numeral
import I2pLite.Bencode.Object
import I2pLite.Bencode.Denotation
import I2pLite.Bencode.Decoded
import I2pLite.Bencode.DictSet
import I2pLite.Bencode.Clone
import I2pLite.Bencode.DictRun
import I2pLite.Bencode.CloneEqual
import I2pLite.Bencode.ListItems
import I2pLite.Bencode.Write
import I2pLite.Bencode.WriteFails
import I2pLite.Bencode.Read
import I2pLite.Bencode.ReadCount
import I2pLite.Bencode.ReadSound
import I2pLite.Bencode.WriteRead
import I2pLite.Bencode.MoreFuel
import I2pLite.Bencode.ChainState
import I2pLite.Bencode.Framing
import I2pLite.Bencode.ReadFrame
import I2pLite.Bencode.ShortStrings
import I2pLite.Bencode.Deliveries
import I2pLite.Core.Memory
import I2pLite.Encoding.Base64
import I2pLite.Encoding.DecodeBounds
import I2pLite.Encoding.Accepted
import I2pLite.Identity.Cert
import I2pLite.Identity.Identity
import I2pLite.Identity.Commitment
import I2pLite.Identity.Base64Form
import I2pLite.Identity.IdentTexts
import I2pLite.Identity.Keys
import I2pLite.Identity.KeysReload
import I2pLite.Identity.KeyFiles
import I2pLite.Identity.Streams
import I2pLite.Identity.KeyFileFails
import I2pLite.Identity.KeyStreams
import I2pLite.Identity.WrittenKeys
import I2pLite.Core.Directories
import I2pLite.Core.FileSystem
import I2pLite.Netdb.Hashmap
import I2pLite.Netdb.FirstWins
import I2pLite.Netdb.ForEach
import I2pLite.Netdb.Netdb
import I2pLite.Netdb.EntryPaths
import I2pLite.Netdb.PathBuffer
import I2pLite.Netdb.Files
import I2pLite.Netdb.VisitedFiles
import I2pLite.Netdb.FlushLoad
import I2pLite.Netdb.Skiplist
import I2pLite.Netdb.SkiplistTree
import I2pLite.Netdb.Remove
import I2pLite.Core.Releasing
import I2pLite.Netdb.Free
import I2pLite.Netdb.FreeRemoved
import I2pLite.Tunnels.TunnelContext
import I2pLite.Tunnels.FiniteMap
import I2pLite.Tunnels.Free
import I2pLite.RouterInfo.Ri
import I2pLite.RouterInfo.Reload
import I2pLite.RouterInfo.Verify
import I2pLite.RouterInfo.Load
import I2pLite.RouterInfo.Identified
import I2pLite.RouterInfo.LoadedInfo
import I2pLite.RouterInfo.InfoStreams
import I2pLite.Netdb.LoadAll
import I2pLite.Netdb.LoadCounts
import I2pLite.Netdb.NodeStreams
import I2pLite.Netdb.FlushStreams
import I2pLite.Router.Context
import I2pLite.Router.ContextStreams
import I2pLite.Router.AllOrNothing
import I2pLite.Core.BitString
import I2pLite.Encoding.Base32
import I2pLite.Core.SlotTable
import I2pLite.Transport.GarlicTransport
import I2pLite.Core.Aead
import I2pLite.Tunnels.ChaCha
import I2pLite.Core.Pieces
import I2pLite.Config.Config
import I2pLite.Config.Lines
import I2pLite.Config.Reload
import I2pLite.Config.Comments
import I2pLite.Config.CommentReads
import I2pLite.Config.CommentPieces
import I2pLite.Config.CommentsMatter
import I2pLite.Router.Main
import I2pLite.Router.Settings
import I2pLite.Router.Generate
import I2pLite.Router.FirstStart
import I2pLite.Router.Ticks
import I2pLite.Router.Program
import I2pLite.Netdb.NetdbTest
import I2pLite.Core.Blocks
import I2pLite.Core.Counting
import I2pLite.Bencode.Allocations
import I2pLite.Config.Ledger
import I2pLite.Transport.Address
import I2pLite.Tunnels.ChaChaRuns
