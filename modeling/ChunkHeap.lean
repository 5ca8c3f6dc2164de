import ChunkHeap.Arena
import ChunkHeap.Classes
import ChunkHeap.Compare
import ChunkHeap.Container.Dict
import ChunkHeap.Container.List
import ChunkHeap.Container.Position
import ChunkHeap.Container.Slice
import ChunkHeap.Container.Tuple
import ChunkHeap.Device.Loopback
import ChunkHeap.Device.Sink
import ChunkHeap.Device.Stream
import ChunkHeap.Device.Ticks
import ChunkHeap.Error
import ChunkHeap.Event
import ChunkHeap.Heap.Basic
import ChunkHeap.Heap.Collect
import ChunkHeap.HeapConfig
import ChunkHeap.Log.Config
import ChunkHeap.Log.Filter
import ChunkHeap.Log.Logger
import ChunkHeap.Machine
import ChunkHeap.Native
import ChunkHeap.Payload
import ChunkHeap.Printing
import ChunkHeap.Scalar
import ChunkHeap.SegList.Basic
import ChunkHeap.SegList.Update
import ChunkHeap.Settings
import ChunkHeap.Startup
import ChunkHeap.Tag
import ChunkHeap.Toml.Moment
import ChunkHeap.Toml.Number
import ChunkHeap.Toml.Reader
import ChunkHeap.Toml.Scan
import ChunkHeap.Toml.Value
import ChunkHeap.Toml.Writer
import ChunkHeap.Proofs.Arena
import ChunkHeap.Proofs.Collector.Tracing
import ChunkHeap.Proofs.Collector.Exact
import ChunkHeap.Proofs.FreeSlots
import ChunkHeap.Proofs.Allocation
import ChunkHeap.Proofs.Exhaustion
import ChunkHeap.Proofs.Accounting
import ChunkHeap.Proofs.Chain.Blocks
import ChunkHeap.Proofs.View
import ChunkHeap.Proofs.Chain.Linked
import ChunkHeap.Proofs.Chain.Ripple
import ChunkHeap.Proofs.Chain.Updates
import ChunkHeap.Proofs.Chain.Layout
import ChunkHeap.Proofs.Chain.Refinement
import ChunkHeap.Proofs.Integrity
import ChunkHeap.Proofs.Chain.Charges
import ChunkHeap.Proofs.Lineage
import ChunkHeap.Proofs.Reading
import ChunkHeap.Proofs.Reach
import ChunkHeap.Proofs.Contents
import ChunkHeap.Proofs.Comparison
import ChunkHeap.Proofs.Keeping
import ChunkHeap.Proofs.Containers.Storage
import ChunkHeap.Proofs.Containers.Creation
import ChunkHeap.Proofs.Containers.Lists
import ChunkHeap.Proofs.Containers.Tables
import ChunkHeap.Proofs.Instances
import ChunkHeap.Proofs.NewHeap
import ChunkHeap.Proofs.Calls
import ChunkHeap.Proofs.Steps
import ChunkHeap.Proofs.WholeRun
import ChunkHeap.Proofs.Guards
import ChunkHeap.Proofs.Descent
import ChunkHeap.Proofs.Containers.Effects
import ChunkHeap.Proofs.Containers.Sequences
import ChunkHeap.Proofs.Bisimilarity
import ChunkHeap.Proofs.Containers.Splices
import ChunkHeap.Proofs.Containers.Sources
import ChunkHeap.Proofs.Containers.Entries
import ChunkHeap.Proofs.Attributes
import ChunkHeap.Proofs.Likeness.Mirrors
import ChunkHeap.Proofs.Likeness.Reading
import ChunkHeap.Proofs.Likeness.Newcomers
import ChunkHeap.Proofs.Likeness.Agreement
import ChunkHeap.Proofs.Likeness.Lists
import ChunkHeap.Proofs.Likeness.Tables
import ChunkHeap.Proofs.Likeness.Programs
import ChunkHeap.Proofs.Likeness.Segments
import ChunkHeap.Proofs.Likeness.Runs
import ChunkHeap.Proofs.Cursor.Erasure
import ChunkHeap.Proofs.Cursor.Blindness
import ChunkHeap.Proofs.Cursor.Containers
import ChunkHeap.Proofs.Cursor.Runs
import ChunkHeap.Proofs.Operands
import ChunkHeap.Proofs.Regions
import ChunkHeap.Proofs.Containers.Independence
import ChunkHeap.Proofs.Instantiation
import ChunkHeap.Proofs.Containers.Copies
import ChunkHeap.Proofs.Printing
import ChunkHeap.Proofs.Containers.TextKeys
import ChunkHeap.Proofs.Ticks
import ChunkHeap.Proofs.Natives
