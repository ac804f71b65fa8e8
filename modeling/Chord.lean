import Chord.Lib.Circle
import Chord.Lib.Nearest
import Chord.Lib.Neighbours
import Chord.Lib.Climb
import Chord.Lib.Clockwise
import Chord.Lib.Regex
import Chord.Lib.Recency
import Chord.Lib.Runs
import Chord.Lib.OrderedMap
import Chord.Lib.Quiesce
import Chord.Lib.Simulation
import Chord.Uuid
import Chord.Arcs
import Chord.Path
import Chord.Canonical
import Chord.Uri
import Chord.DataPath
import Chord.UriText
import Chord.Percent
import Chord.Query
import Chord.Reparse
import Chord.Keys
import Chord.Common
import Chord.Router
import Chord.RouterTable
import Chord.Removal
import Chord.Fingers
import Chord.Service
import Chord.Client
import Chord.Deref
import Chord.OwnRecord
import Chord.Preceding
import Chord.Progress
import Chord.Candidates
import Chord.Network
import Chord.Traffic
import Chord.Address
import Chord.Lookup
import Chord.Neighbours
import Chord.Join
import Chord.Enlarged
import Chord.Leave
import Chord.Learning
import Chord.Halving
import Chord.Rounds
import Chord.Concurrent
import Chord.Settle
import Chord.Settled
import Chord.Converge
import Chord.Lifetime
import Chord.Fs.Metadata
import Chord.Fs.Wire
import Chord.Fs.Store
import Chord.Fs.Service
import Chord.Fs.Facade
import Chord.Fs.Ring
import Chord.Fs.Above
import Chord.Fs.Listing
import Chord.Fs.Place
import Chord.Fs.Remove
import Chord.Fs.Get
import Chord.Fs.Fetched
import Chord.Fs.Deletion
import Chord.Fs.Form
import Chord.Fs.Grow
import Chord.Fs.Requests
import Chord.Fs.Tree
import Chord.Fs.Sweep
import Chord.Fs.Recursive
import Chord.Fs.Additions
import Chord.Fs.Rebalanced
import Chord.Fs.FirstJoin
import Chord.Fs.Manager
import Chord.Fs.GetAll
import Chord.Fs.Maps
import Chord.Fs.Widest
import Chord.Fs.Updates
import Chord.Fs.Upload
import Chord.Fs.Restore
import Chord.Fs.Failover
import Chord.Fs.Refusal
import Chord.Fs.Ancestors
import Chord.Fs.Absorbed
import Chord.Fs.InPlace
import Chord.Fs.Idle
import Chord.Fs.Monitor
import Chord.Fs.Debounce
import Chord.Fuse.Adapter
import Chord.Fuse.Journal
import Chord.Fuse.Release
import Chord.Fuse.Leftover
import Chord.LruCache
import Chord.ChannelPool
import Chord.Scheduler
import Chord.Tasks
import Chord.Insertion
import Chord.Liveness
import Chord.FixFingers
import Chord.PredecessorEvent
import Chord.Fs.Move
import Chord.Fs.Moved
import Chord.Fs.FetchTree
import Chord.Fs.PutDirectory
import Chord.Fs.FileEvents
import Chord.Fs.Overwrite
import Chord.Fs.Recover
import Chord.Fs.Contents
import Chord.Fs.Repair
import Chord.Fs.Directories
import Chord.Fs.Tidy
import Chord.Fs.Placed
import Chord.Fs.Single
import Chord.Fs.Handover
import Chord.Fs.Volume
import Chord.Fs.Streams
