import Multicast.Tlv.Pass
import Multicast.Tlv.Termination
import Multicast.Tlv.Framing
import Multicast.Tlv.SplitHeader
import Multicast.Tlv.Connection
import Multicast.Lib.StepRun
import Multicast.Server.Clients
import Multicast.Server.Groups
import Multicast.Server.Jobs
import Multicast.Server.State
import Multicast.Server.Exclusivity
import Multicast.Server.Membership
import Multicast.Lib.Threads
import Multicast.Server.Completion
import Multicast.Server.Dispatch
import Multicast.Transfer.Piece
import Multicast.Transfer.Split
import Multicast.Transfer.Delivery
import Multicast.Server.Lookups
import Multicast.Server.Registration
import Multicast.Server.NewClients
import Multicast.Server.Start
import Multicast.Shell.Command
import Multicast.Server.Indices
import Multicast.Lib.Tally
import Multicast.Server.Results
import Multicast.Server.Arguments
import Multicast.Server.Events
import Multicast.Tlv.Bounds
import Multicast.Tlv.Buffer
import Multicast.Server.Tasks
import Multicast.Server.Duplicates
import Multicast.Transfer.Chunks
import Multicast.Transfer.Handlers
import Multicast.Transfer.Fields
import Multicast.Server.Sweep
import Multicast.Server.Tracking
import Multicast.Transfer.Readers
import Multicast.Server.Claiming
import Multicast.Server.JobMap
import Multicast.Lib.CString
import Multicast.Server.Leaving
import Multicast.Shell.Operations
import Multicast.Shell.Params
import Multicast.Shell.FileName
import Multicast.Lib.DirectMapped
import Multicast.Server.Registry
import Multicast.Lib.LinkedList
import Multicast.Lib.HeapLedger
import Multicast.Server.MemberNodes
import Multicast.Lib.Potential
import Multicast.Lib.Crew
import Multicast.Pool.ThreadPool
import Multicast.Pool.Progress
import Multicast.Pool.Wait
import Multicast.Pool.JobQueue
import Multicast.Pool.Outcomes
import Multicast.Pool.Pieces
import Multicast.Lib.Watchdog
import Multicast.Server.KeepAlive
import Multicast.Transfer.Session
import Multicast.Lib.Extrema
import Multicast.Server.Answer
import Multicast.Transfer.Containment
import Multicast.Tlv.Lifetimes
import Multicast.Tlv.Checked
import Multicast.Server.WholeJob
import Multicast.Lib.Glob
import Multicast.Server.ResultFiles
import Multicast.Server.FirstResults
