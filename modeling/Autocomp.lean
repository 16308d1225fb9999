import Autocomp.Compression.Fpc.Layout
import Autocomp.Compression.Fpc.RoundTrip
import Autocomp.Network.RequestPool
import Autocomp.Network.ImageLoop
import Autocomp.Network.Transfer
import Autocomp.Network.Fidelity
import Autocomp.Network.Reception
import Autocomp.Network.Residue
import Autocomp.Utils.BufferRuns
import Autocomp.Network.Bandwidth
import Autocomp.Compression.AutoCompCompressor
import Autocomp.Utils.DecisionTree.Saving
import Autocomp.Network.Sharing
import Autocomp.Network.Destinations
import Autocomp.Network.Unwinding
import Autocomp.Tools.PerformanceData
import Autocomp.Compression.Evaluations
import Autocomp.Network.Configuration
import Autocomp.Files.Traversal
import Autocomp.Network.AnyChunks
import Autocomp.Compression.Fpc.Capacity
import Autocomp.Compression.RoundRobinCompressor
import Autocomp.Network.TrainingStop
import Autocomp.Network.Shutdown
import Autocomp.Io.SynchronizedFile
import Autocomp.Tools.BytecountingStats
import Autocomp.Network.Descriptors
import Autocomp.Network.Lifecycle
import Autocomp.Network.OutputCapacity
import Autocomp.Compression.LZMACompressor
import Autocomp.Network.MessageKinds
import Autocomp.Compression.Fpc.Scratch
import Autocomp.Tools.TrainingLog
import Autocomp.Network.TransferBound
import Autocomp.Network.ImageTransfer
import Autocomp.Tools.TrainingSet
import Autocomp.Network.Stopping
import Autocomp.Network.TreeTransfer
import Autocomp.Monitors.CPULoad
import Autocomp.Compression.AdaptiveRuns
