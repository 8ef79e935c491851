import Corgi.Words
import Corgi.Bytes
import Corgi.Bracketing
import Corgi.Edits
import Corgi.Matching
import Corgi.Merger
import Corgi.JSONText
import Corgi.Versions
import Corgi.IndexedBatch
import Corgi.GroupCommit
import Corgi.ObjectKeys
import Corgi.Shutdown
import Corgi.Allocator
import Corgi.Scan
import Corgi.Marking
import Corgi.Search
import Corgi.Invariant
import Corgi.Release
import Corgi.NextFit
import Corgi.Reference
import Corgi.Restore
import Corgi.Runs
import Corgi.Totals
import Corgi.Ownership
import Corgi.Space
import Corgi.MountInfo
import Corgi.Device
import Corgi.Operands
import Corgi.Persist
import Corgi.SharedBatch
import Corgi.Metadata
import Corgi.Decoders
import Corgi.Codec
import Corgi.Node
import Corgi.Durability
import Corgi.Accounting
import Corgi.Records
import Corgi.Padding
import Corgi.Channel
import Corgi.Placement
import Corgi.Upload
import Corgi.Recovery
import Corgi.Ledger
import Corgi.Balance
import Corgi.ReadBack
import Corgi.Aio
import Corgi.Goaio
import Corgi.Volume
import Corgi.Server
import Corgi.Payload
import Corgi.Framing
import Corgi.RequestChannel
import Corgi.Responses
import Corgi.Service
import Corgi.Archive
import Corgi.Simulation
import Corgi.Retention
import Corgi.Chan
import Corgi.Connection
import Corgi.Emission
import Corgi.Hangup
import Corgi.Host
import Corgi.Client
import Corgi.Workers
import Corgi.Deployment
import Corgi.Dump
import Corgi.Requests
import Corgi.Registry
