import P9p.Lib.LittleEndian
import P9p.Lib.Packing
import P9p.Lib.Reader
import P9p.Lib.Stepwise
import P9p.Lib.Exec
import P9p.Lib.Prog
import P9p.Lib.Refine
import P9p.Lib.Custody
import P9p.Lib.Delivery
import P9p.Lib.SlashPath
import P9p.Lib.Tally
import P9p.Lib.Backtrack
import P9p.Lib.Trail
import P9p.Types
import P9p.Messages
import P9p.Encoding
import P9p.Encoding.RoundTrip
import P9p.Encoding.Stable
import P9p.Encoding.Pieces
import P9p.Encoding.Records
import P9p.Encoding.Canonical
import P9p.Encoding.Values
import P9p.Encoding.Targets
import P9p.Encoding.Lengths
import P9p.Channel
import P9p.Channel.Frames
import P9p.Channel.Link
import P9p.Channel.Fit
import P9p.Channel.Stream
import P9p.ReadLoop
import P9p.Version
import P9p.Handler
import P9p.Readdir
import P9p.Readdir.Runs
import P9p.ServeConn
import P9p.ServeConn.Matching
import P9p.ServeConn.Closing
import P9p.ServeConn.Calm
import P9p.ServeConn.Contexts
import P9p.ServeConn.Draining
import P9p.Transport
import P9p.Transport.Tags
import P9p.Transport.Draining
import P9p.EndToEnd
import P9p.EndToEnd.Agreement
import P9p.EndToEnd.Progress
import P9p.Client
import P9p.Client.Transfer
import P9p.Path
import P9p.Path.Resolve
import P9p.Shell
import P9p.CFileSys
import P9p.Session
import P9p.Session.Discipline
import P9p.Session.Operations
import P9p.Session.Locks
import P9p.Session.Exclusive
import P9p.Session.Bindings
import P9p.Session.Alone
import P9p.Session.Waiting
import P9p.Session.Handshake
import P9p.Session.Gate
import P9p.Session.Ledger
import P9p.Session.Books
import P9p.Session.Effects
import P9p.Session.Transaction
import P9p.Session.Routine
import P9p.Session.Serial
import P9p.Session.Modes
import P9p.Session.Hand
import P9p.Session.Accounts
import P9p.Session.Shutdown
import P9p.Session.World
import P9p.Session.Direct
import P9p.CFileSys.Listing
import P9p.CFileSys.Cut
import P9p.CFileSys.Calls
import P9p.CFileSys.Mount
import P9p.Server
import P9p.Server.Goroutines
import P9p.Server.Version
import P9p.Stack
import P9p.Ramfs
import P9p.Ramfs.References
import P9p.Ramfs.Hands
import P9p.Ramfs.Steps
import P9p.Ramfs.Operations
import P9p.Ramfs.Revival
import P9p.Ramfs.Sequential
import P9p.Ramfs.Counts
import P9p.Ramfs.Remove
import P9p.Ramfs.Walks
import P9p.Ramfs.Lengths
import P9p.Ramfs.Kinds
import P9p.Ramfs.Served
import P9p.Ramfs.Calls
import P9p.Ramfs.Sessions
import P9p.Ramfs.Io
import P9p.Ufs
