import FilePeeker.Lib.Steps
import FilePeeker.Lib.Results
import FilePeeker.Lib.Table
import FilePeeker.Lib.CancelToken
import FilePeeker.Lib.Count
import FilePeeker.Lib.Gate
import FilePeeker.Lib.Forest
import FilePeeker.Lib.Broadcast
import FilePeeker.Lib.Feed
import FilePeeker.Lib.Utf8
import FilePeeker.Lib.Trim
import FilePeeker.Lib.Shell
import FilePeeker.Lib.ShellWords
import FilePeeker.Lib.Pull
import FilePeeker.Lib.Code
import FilePeeker.Lib.Directory
import FilePeeker.Lib.StableSort
import FilePeeker.Lib.PreOrder
import FilePeeker.Lib.Ancestors
import FilePeeker.Lib.Hedge
import FilePeeker.Lib.Calendar
import FilePeeker.Lib.Checked
import FilePeeker.Lib.Folds
import FilePeeker.Lib.Ordered
import FilePeeker.Path.Escape
import FilePeeker.Path.PathString
import FilePeeker.Path.Reading
import FilePeeker.Path.Join
import FilePeeker.Home.MachineId
import FilePeeker.Home.Home
import FilePeeker.Home.Script
import FilePeeker.Copy.Streams
import FilePeeker.Copy.Pipeline
import FilePeeker.Copy.Exchange
import FilePeeker.Copy.Frames
import FilePeeker.Copy.Through
import FilePeeker.Copy.Delivered
import FilePeeker.Browser.Tree
import FilePeeker.Browser.Placed
import FilePeeker.Browser.Refines
import FilePeeker.Browser.Names
import FilePeeker.Browser.Window
import FilePeeker.Browser.Filter
import FilePeeker.Browser.Context
import FilePeeker.Browser.Moves
import FilePeeker.Browser.Runs
import FilePeeker.Browser.Ledger
import FilePeeker.Browser.Stale
import FilePeeker.Browser.OldRows
import FilePeeker.Gui.App
import FilePeeker.Gui.Roots
import FilePeeker.Tui.App
import FilePeeker.Tui.Connection
import FilePeeker.Tui.Starts
import FilePeeker.Tui.Linger
import FilePeeker.Task.Types
import FilePeeker.Task.Registry
import FilePeeker.Task.Runtime
import FilePeeker.Task.Turn
import FilePeeker.Task.LockSections
import FilePeeker.Task.Phases
import FilePeeker.Task.Wf
import FilePeeker.Task.Tree
import FilePeeker.Task.Events
import FilePeeker.Task.Pace
import FilePeeker.Task.Throttle
import FilePeeker.Task.Cancellation
import FilePeeker.Task.Family
import FilePeeker.Task.Submissions
import FilePeeker.Task.Retention
import FilePeeker.Task.Rest
import FilePeeker.Task.Admission
import FilePeeker.Task.CancelledInLine
import FilePeeker.Task.Wakeup
import FilePeeker.Task.Settles
import FilePeeker.Task.Lifecycle
import FilePeeker.Task.WindDown
import FilePeeker.Server.WatchStream
import FilePeeker.Server.Converges
import FilePeeker.Server.Times
import FilePeeker.Server.Api
import FilePeeker.Server.Lines
import FilePeeker.Server.Serve
import FilePeeker.Server.Sockets
import FilePeeker.Server.SharedSockets
import FilePeeker.Server.OneServer
import FilePeeker.Server.Acquire
import FilePeeker.Wire.Entries
import FilePeeker.Wire.Tasks
import FilePeeker.Tui.Dropped
import FilePeeker.Tui.Order
import FilePeeker.Fs.Error
import FilePeeker.Fs.Write
import FilePeeker.Fs.Moves
import FilePeeker.Fs.Partial
import FilePeeker.Fs.Published
import FilePeeker.Fs.FileName
import FilePeeker.Lib.Unfold
import FilePeeker.Fs.Walk
import FilePeeker.Lib.Variables
import FilePeeker.Fs.Resolve
import FilePeeker.Client.Machines
import FilePeeker.Client.LostUpdate
import FilePeeker.Client.Fingerprint
import FilePeeker.Client.Ssh
import FilePeeker.Browser.Value
import FilePeeker.Browser.Selection
import FilePeeker.Browser.Viewport
import FilePeeker.Browser.Prompt
import FilePeeker.Browser.Completion
import FilePeeker.Browser.Without
import FilePeeker.Browser.Sound
import FilePeeker.Browser.Abandon
import FilePeeker.Tabs.App
import FilePeeker.Tabs.Wf
import FilePeeker.Tabs.Records
import FilePeeker.Tabs.Consistent
import FilePeeker.Lib.Batches
import FilePeeker.Lib.Protobuf
import FilePeeker.Wire.Batches
import FilePeeker.Wire.Listings
import FilePeeker.Connections.Client
import FilePeeker.Connections.CloseAll
import FilePeeker.Connections.Ends
import FilePeeker.Connections.RemoteHost
import FilePeeker.Connections.Socks
import FilePeeker.Lib.Channel
import FilePeeker.Task.Items
