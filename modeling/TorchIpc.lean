import TorchIpc.Base.Circular
import TorchIpc.Base.Simulation
import TorchIpc.Base.Words
import TorchIpc.Ringbuffer.Buffer
import TorchIpc.Ringbuffer.Fifo
import TorchIpc.Serialize.Value
import TorchIpc.Tree.Pairs
import TorchIpc.Tree.Slurm
import TorchIpc.Serialize.Save
import TorchIpc.Serialize.Script
import TorchIpc.Serialize.Load
import TorchIpc.Serialize.Loading
import TorchIpc.Serialize.RoundTrip
import TorchIpc.Base.Runs
import TorchIpc.Queue.Write
import TorchIpc.Queue.Items
import TorchIpc.Base.Monitor
import TorchIpc.Queue.Workqueue
import TorchIpc.Queue.Channel
import TorchIpc.Queue.Delivery
import TorchIpc.Queue.Refusal
import TorchIpc.Base.Network
import TorchIpc.Base.Scripts
import TorchIpc.Base.Rooted
import TorchIpc.Tree.Walk
import TorchIpc.Tree.Connections
import TorchIpc.Tree.AllReduce
import TorchIpc.Tree.Uneven
import TorchIpc.Tree.Establish
import TorchIpc.Base.Strided
import TorchIpc.Cliser.Socket
import TorchIpc.Cliser.Send
import TorchIpc.Cliser.Recv
import TorchIpc.Cliser.Tensor
import TorchIpc.Cliser.Transfer
import TorchIpc.Cliser.Shapes
import TorchIpc.Cliser.Stream
import TorchIpc.Serialize.Growth
import TorchIpc.Queue.Drain
import TorchIpc.Handles.Objects
import TorchIpc.Serialize.Closures
import TorchIpc.Handles.Marshal
import TorchIpc.Base.Linked
import TorchIpc.Handles.Registry
import TorchIpc.Handles.Workqueues
import TorchIpc.Sync.Barrier
import TorchIpc.Queue.Wakeups
import TorchIpc.Queue.Readers
import TorchIpc.Cliser.Clients
import TorchIpc.Serialize.Saving
import TorchIpc.Map.Threads
import TorchIpc.Map.Handle
import TorchIpc.Serialize.Room
import TorchIpc.Serialize.Truncated
import TorchIpc.Serialize.Heights
import TorchIpc.Map.Marshalling
import TorchIpc.Map.Fates
import TorchIpc.Map.Failures
import TorchIpc.Base.Assoc
import TorchIpc.Base.Mutex
import TorchIpc.Sharedtable.Table
import TorchIpc.Serialize.Received
import TorchIpc.Sharedtable.Atomic
import TorchIpc.Sharedtable.Failures
import TorchIpc.Pool.BackgroundTaskPool
import TorchIpc.Pool.Orphans
import TorchIpc.Pool.Results
import TorchIpc.Pool.Refusals
import TorchIpc.Serialize.Appending
import TorchIpc.Serialize.Sizes
import TorchIpc.Serialize.Neutral
import TorchIpc.Serialize.Upvalues
import TorchIpc.Tree.NullTree
import TorchIpc.Sharedtable.Iteration
import TorchIpc.Sharedtable.Moving
import TorchIpc.Serialize.Format
import TorchIpc.Cliser.Pointers
import TorchIpc.Base.Slots
import TorchIpc.Serialize.Stack
import TorchIpc.Serialize.Untrusted
import TorchIpc.Cliser.Async
import TorchIpc.Cliser.Endings
import TorchIpc.Base.Sorting
import TorchIpc.Cliser.Order
import TorchIpc.Tree.Shape
import TorchIpc.Tree.TableSize
import TorchIpc.Base.Streams
import TorchIpc.Cliser.Cuda
import TorchIpc.Cliser.RemotePtrs
import TorchIpc.Cliser.Fastpath
import TorchIpc.Base.Calls
import TorchIpc.Spawn.Object
import TorchIpc.Spawn.Descriptors
import TorchIpc.Spawn.Lifetime
import TorchIpc.Spawn.Actions
import TorchIpc.Spawn.Stdout
import TorchIpc.Cliser.Payload
import TorchIpc.Serialize.Framing
import TorchIpc.Tree.Order
import TorchIpc.Tree.Collectives
import TorchIpc.Base.Arrivals
import TorchIpc.Base.Phases
import TorchIpc.Tree.Startup
import TorchIpc.Tree.Session
import TorchIpc.Tree.Traffic
import TorchIpc.Base.Conversations
import TorchIpc.Tree.Unbuffered
import TorchIpc.Tree.InPlace
import TorchIpc.Base.Lifting
import TorchIpc.Tree.Plain
import TorchIpc.Base.Descriptions
import TorchIpc.Sync.Flock
import TorchIpc.Base.Wire
import TorchIpc.Tree.Sockets
import TorchIpc.Base.Crews
import TorchIpc.Queue.Ready
import TorchIpc.Queue.Workers
