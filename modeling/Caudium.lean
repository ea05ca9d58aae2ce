import Caudium.Lib.Mapping
import Caudium.Lib.Runs
import Caudium.Lib.File
import Caudium.Lib.Overlay
import Caudium.Lib.Loop
import Caudium.Lib.Search
import Caudium.Pdb.Bucket
import Caudium.Pdb.BucketRestore
import Caudium.Pdb.Table
import Caudium.Pdb.RedoLog
import Caudium.Pdb.Sharing
import Caudium.Storage.Manager
import Caudium.Storage.Shutdown
import Caudium.Storage.Disk
import Caudium.Storage.Isolation
import Caudium.CachePmod.Meta
import Caudium.CachePmod.SlowStorage
import Caudium.CachePmod.FastStorage
import Caudium.CachePmod.Cache
import Caudium.CachePmod.Superseded
import Caudium.CachePmod.Refresh
import Caudium.CachePmod.Compatible
import Caudium.Entity.EntParse
import Caudium.Entity.Expand
import Caudium.Http.ParseHTTP
import Caudium.Http.ParseSplit
import Caudium.Http.ParseHeaders
import Caudium.Http.RemoteAddress
import Caudium.Http.ParseGot
import Caudium.Http.UrlPass
import Caudium.Http.HeaderPass
import Caudium.Http.Pass
import Caudium.Http.Packets
import Caudium.Http.KeepAlive
import Caudium.BaseServer.CheckSecurity
import Caudium.BaseServer.Memory
import Caudium.BaseServer.AccessRules
import Caudium.BaseServer.DataCache
import Caudium.BaseServer.LowGetFile
import Caudium.BaseServer.LocationModules
import Caudium.BaseServer.Trust
import Caudium.BaseServer.TryGetFile
import Caudium.BaseServer.Included
import Caudium.BaseServer.Transparent
import Caudium.BaseServer.Registry
import Caudium.BaseServer.Registered
import Caudium.BaseServer.ModuleCaches
import Caudium.BaseServer.Disabled
import Caudium.Lib.Codec
import Caudium.Ajp.Protocol
import Caudium.Ajp.Forward
import Caudium.Ajp.Response
import Caudium.Ajp.GotData
import Caudium.Ajp.SendBody
import Caudium.FastCGI.Packet
import Caudium.FastCGI.Encoding
import Caudium.FastCGI.Channel
import Caudium.FastCGI.Answers
import Caudium.Lib.ParallelSort
import Caudium.Lib.Path
import Caudium.Filesystem.FindFile
import Caudium.Filesystem.Changes
import Caudium.Lib.Value
import Caudium.Lib.Markup
import Caudium.Config.Regions
import Caudium.BaseServer.Newdecode
import Caudium.BaseServer.Decoded
import Caudium.Config.Files
import Caudium.Config.Saved
import Caudium.Config.SaveFile
import Caudium.Lib.Time
import Caudium.Http.SendResult
import Caudium.Lib.Strftime
import Caudium.Http.HttpDate
import Caudium.NbSend.Nbio
import Caudium.NbSend.Sent
import Caudium.NbSend.Waits
import Caudium.UltraLog.Format
import Caudium.UltraLog.Util
import Caudium.UltraLog.Totals
import Caudium.UltraLog.Parse
import Caudium.UltraLog.Blocks
import Caudium.UltraLog.Complete
import Caudium.UltraLog.Broken
import Caudium.UltraLog.Pieces
import Caudium.UltraLog.PageHits
import Caudium.UltraLog.Required
import Caudium.UltraLog.HourBounds
import Caudium.UltraLog.Lines
import Caudium.UltraLog.Days
import Caudium.Http.UrlCodec
import Caudium.Http.QueryString
import Caudium.Http.EncodeQuery
import Caudium.Lib.Memory
import Caudium.Pad.Scratchpad
import Caudium.Pad.Users
import Caudium.Entity.Bounds
import Caudium.Entity.Turns
import Caudium.Entity.Kept
import Caudium.Entity.Lossy
import Caudium.Entity.Lossless
import Caudium.Lib.Source
import Caudium.Http.MultiRange
import Caudium.Psp.Blocks
import Caudium.Psp.MissingEnd
import Caudium.Psp.Compiler
import Caudium.Psp.Constants
import Caudium.Psp.Literals
import Caudium.Psp.Lossless
import Caudium.Lib.Unfold
import Caudium.Psp.Unfolding
import Caudium.Dav.NameSpaces
import Caudium.Dav.Requests
import Caudium.Dav.Independent
import Caudium.Entity.Append
import Caudium.Entity.Cursor
import Caudium.Entity.Capacity
import Caudium.Lib.Replace
import Caudium.Http.EncodeMapping
import Caudium.Http.HeaderLines
import Caudium.Http.HeaderLoop
import Caudium.Http.HeaderCall
import Caudium.Http.FoundLines
import Caudium.Http.Folding
import Caudium.Http.HeadersAgree
import Caudium.Http.Prestates
import Caudium.Http.RangeHeader
import Caudium.Http.StoreError
import Caudium.Lib.Total
import Caudium.Lib.Tally
import Caudium.UltraLog.Hosts
import Caudium.Lib.Gaps
import Caudium.UltraLog.Sessions
import Caudium.UltraLog.Compress
import Caudium.UltraLog.Merge
import Caudium.CachePmod.Accounting
import Caudium.CachePmod.Manager
import Caudium.CachePmod.DiskTier
import Caudium.CachePmod.Expiry
import Caudium.CachePmod.Shaped
import Caudium.CachePmod.Eviction
import Caudium.CachePmod.RoundTrip
import Caudium.Lib.Combine
import Caudium.Storage.Cleanup
import Caudium.Storage.SizeIndex
import Caudium.Storage.Sizes
import Caudium.Lib.Split
import Caudium.Lib.Glob
import Caudium.BaseServer.Seclevels
import Caudium.BaseServer.Addresses
import Caudium.BaseServer.UserLists
import Caudium.Htaccess.Record
import Caudium.Htaccess.Access
import Caudium.Htaccess.Hosts
import Caudium.Htaccess.Merging
import Caudium.Htaccess.Limits
import Caudium.Htaccess.Files
import Caudium.Htaccess.Lookup
import Caudium.Gsession.Memory
import Caudium.Gsession.Counters
import Caudium.Gsession.Expiry
import Caudium.Gsession.Batch
import Caudium.Gsession.Access
import Caudium.Auth.Master
import Caudium.BaseServer.UniqueId
import Caudium.BaseServer.Hosts
import Caudium.BaseServer.Delivered
import Caudium.Storage.Stopping
import Caudium.CachePmod.Managed
import Caudium.CachePmod.Namespace
import Caudium.CachePmod.Coverage
import Caudium.Lib.Reassembly
import Caudium.Lib.Pool
import Caudium.BaseServer.HandlerThreads
import Caudium.FastCGI.Reassembly
import Caudium.Http.RequestLine
import Caudium.Dav.Reports
import Caudium.Dav.AllProp
import Caudium.Redirect.Patterns
import Caudium.Redirect.Lines
import Caudium.Redirect.Templates
import Caudium.Filesystem.Effects
import Caudium.Filesystem.Symlinks
import Caudium.Filesystem.Uploads
import Caudium.SecureFs.Rules
import Caudium.SecureFs.FindFile
import Caudium.SecureFs.Meaning
import Caudium.RestrictedFs.Calls
import Caudium.RestrictedFs.Confinement
import Caudium.ExtScript.Pipe
import Caudium.ExtScript.DoHelper
import Caudium.Http.HeaderBlock
import Caudium.Cgi.Wrapper
import Caudium.Cgi.Headers
import Caudium.Cgi.Translated
import Caudium.BaseServer.VirtualFiles
import Caudium.Lib.Bisect
import Caudium.BaseServer.PathInfo
import Caudium.BaseServer.Privs
