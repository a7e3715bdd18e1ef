import SalRuntime.Runtime.SequenceTwin
import SalRuntime.Runtime.GcTwin
import SalRuntime.Runtime.SidedTwin
import SalRuntime.Datatypes.RichConvergence
import SalRuntime.Datatypes.CompactionMaps
import SalRuntime.Datatypes.LiveGapRuns
import SalRuntime.Replica.Adoption
import SalRuntime.Replica.Ingestion
import SalRuntime.Replica.Keyed
import SalRuntime.Replica.CompactGate
import SalRuntime.Replica.Network
import SalRuntime.Replica.Redelivery
import SalRuntime.Replica.Resync
import SalRuntime.Transport.Worker
import SalRuntime.Persistence.Fleet
import SalRuntime.Mint.MintedNetwork
import SalRuntime.Wire.Roundtrip
import SalRuntime.Datatypes.RgaFold
import SalRuntime.Datatypes.CoordinateOrder
import SalRuntime.Replica.BatchCommits
import SalRuntime.Datatypes.CompactionIdempotent
import SalRuntime.Datatypes.Continuations
import SalRuntime.Datatypes.EpochMaps
import SalRuntime.Datatypes.InflightInserts
import SalRuntime.Datatypes.ExactGaps
import SalRuntime.Editor.FormatOps
import SalRuntime.Serialize.Codec
import SalRuntime.Serialize.RgaSnapshot
import SalRuntime.Editor.TextEdits
import SalRuntime.Pmap.Shape
import SalRuntime.Replica.MergeBases
import SalRuntime.Datatypes.MarkEdges
import SalRuntime.Editor.Clock
import SalRuntime.Sync.Stability
import SalRuntime.Sync.Reads
import SalRuntime.Runtime.Stability
import SalRuntime.Runtime.SharedTwin
import SalRuntime.Replica.Stability
import SalRuntime.Replica.Reads
import SalRuntime.Editor.Documents
