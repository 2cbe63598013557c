import Yazi.Actor.BulkEdit
import Yazi.Actor.BulkOrder
import Yazi.Actor.BulkRename
import Yazi.Adapter.Painting
import Yazi.Adapter.Sixel
import Yazi.Base.Around
import Yazi.Base.Assoc
import Yazi.Base.BigEndian
import Yazi.Base.Effects
import Yazi.Base.Ends
import Yazi.Base.Enumeration
import Yazi.Base.Escape
import Yazi.Base.Hierarchy
import Yazi.Base.History
import Yazi.Base.Index
import Yazi.Base.Inodes
import Yazi.Base.Keyed
import Yazi.Base.Lines
import Yazi.Base.Links
import Yazi.Base.Machine
import Yazi.Base.Peeling
import Yazi.Base.PlainFile
import Yazi.Base.Poll
import Yazi.Base.Reader
import Yazi.Base.Run
import Yazi.Base.Sixel
import Yazi.Base.Stutter
import Yazi.Base.Substitute
import Yazi.Base.Tree
import Yazi.Base.Worklist
import Yazi.Cli.Dependency
import Yazi.Cli.Deployed
import Yazi.Cli.Exact
import Yazi.Cli.Files
import Yazi.Cli.Package
import Yazi.Config.Key
import Yazi.Config.Mixing
import Yazi.Config.Notation
import Yazi.Core.Backstack
import Yazi.Core.Enumeration
import Yazi.Core.Finder
import Yazi.Core.Folder
import Yazi.Core.History
import Yazi.Core.Lineage
import Yazi.Core.Loading
import Yazi.Core.Reconciler
import Yazi.Core.Selected
import Yazi.Core.Tabs
import Yazi.Core.Viewport
import Yazi.Core.Visual
import Yazi.Core.Which
import Yazi.Dds.Agreement
import Yazi.Dds.Registry
import Yazi.Dds.Server
import Yazi.Dds.Store
import Yazi.Fs.Calculated
import Yazi.Fs.Calculator
import Yazi.Fs.Casefold
import Yazi.Fs.Clean
import Yazi.Fs.Containment
import Yazi.Fs.Copier
import Yazi.Fs.CopierEquals
import Yazi.Fs.CursorRefinement
import Yazi.Fs.Entries
import Yazi.Fs.Expand
import Yazi.Fs.File
import Yazi.Fs.FileCursor
import Yazi.Fs.FinalName
import Yazi.Fs.Freedesktop
import Yazi.Fs.Mounts
import Yazi.Fs.Partition
import Yazi.Fs.Relative
import Yazi.Fs.Removal
import Yazi.Fs.Remover
import Yazi.Fs.Restore
import Yazi.Fs.Revision
import Yazi.Fs.Root
import Yazi.Fs.Sorter
import Yazi.Fs.Splatter
import Yazi.Fs.Ties
import Yazi.Fs.Trash
import Yazi.Fs.Upsert
import Yazi.Plugin.Truncate
import Yazi.Scheduler.Accounting
import Yazi.Scheduler.FileQueue
import Yazi.Scheduler.FileWorkers
import Yazi.Scheduler.HookOnce
import Yazi.Scheduler.Invariant
import Yazi.Scheduler.Lifecycle
import Yazi.Scheduler.Out
import Yazi.Scheduler.Progress
import Yazi.Scheduler.Reduce
import Yazi.Scheduler.Size
import Yazi.Scheduler.Sized
import Yazi.Scheduler.Traverse
import Yazi.Scheduler.Worker
import Yazi.Sftp.Attrs
import Yazi.Sftp.Bookkeeping
import Yazi.Sftp.File
import Yazi.Sftp.Framing
import Yazi.Sftp.Packet
import Yazi.Sftp.Seekable
import Yazi.Sftp.Serde
import Yazi.Sftp.Session
import Yazi.Shared.Ascent
import Yazi.Shared.Assemble
import Yazi.Shared.Auth
import Yazi.Shared.Bounded
import Yazi.Shared.Cmd
import Yazi.Shared.Components
import Yazi.Shared.Condition
import Yazi.Shared.Covariance
import Yazi.Shared.Decode
import Yazi.Shared.Encode
import Yazi.Shared.Header
import Yazi.Shared.Infix
import Yazi.Shared.Interning
import Yazi.Shared.Join
import Yazi.Shared.Levels
import Yazi.Shared.Loc
import Yazi.Shared.LooseInfix
import Yazi.Shared.Natsort
import Yazi.Shared.Numeral
import Yazi.Shared.Pair
import Yazi.Shared.Path
import Yazi.Shared.Percent
import Yazi.Shared.Pool
import Yazi.Shared.Ports
import Yazi.Shared.Replace
import Yazi.Shared.Resolve
import Yazi.Shared.RoundTrip
import Yazi.Shared.SetName
import Yazi.Shared.Shell
import Yazi.Shared.Text
import Yazi.Shared.Throttle
import Yazi.Shared.Trail
import Yazi.Shared.Twiddle
import Yazi.Shared.Url
import Yazi.Shared.Utf8
import Yazi.Shared.WellFormed
import Yazi.Shared.WireData
import Yazi.Shim.Wtf8
import Yazi.Term.Csi
import Yazi.Term.Dropping
import Yazi.Term.Event
import Yazi.Term.Osc
import Yazi.Term.Packet
import Yazi.Term.Parser
import Yazi.Term.Paste
import Yazi.Term.Reading
import Yazi.Term.Reassembly
import Yazi.Term.Safe
import Yazi.Term.Totality
import Yazi.Vfs.Chunks
import Yazi.Vfs.Cursors
import Yazi.Vfs.Endpoints
import Yazi.Vfs.Piped
import Yazi.Vfs.ProgressiveCopier
import Yazi.Vfs.RwFile
import Yazi.Vfs.Sequential
import Yazi.Vfs.WholeCopy
import Yazi.Watcher.Flights
import Yazi.Watcher.Refresher
import Yazi.Watcher.Requests
import Yazi.Widgets.Editing
import Yazi.Widgets.Input
import Yazi.Widgets.Operations
import Yazi.Widgets.Safety
import Yazi.Widgets.Scrollable
import Yazi.Widgets.Snap
import Yazi.Widgets.Span
import Yazi.Widgets.Steady
import Yazi.Widgets.Undo
