import Mellow.Xe.ForceWake
import Mellow.Xe.Ggtt.Loader
import Mellow.Xe.FirmwareHash
import Mellow.Xe.Ggtt.Complete
import Mellow.Xe.Ggtt.Handles
import Mellow.Xe.PageTable.Teardown
import Mellow.Xe.VirtualMemory.FirstFit
import Mellow.Xe.Bridge.Holds
import Mellow.Xe.GuC.Overlap
import Mellow.Xe.GuC.Reception
import Mellow.Xe.Context.Use
import Mellow.Xe.Interrupt.Race
import Mellow.Xe.Interrupt.Dispatch
import Mellow.Nvidia.Radix3
import Mellow.Nvidia.Gpfifo
import Mellow.Nvidia.Seal
import Mellow.Diagnostic.Custody
import Mellow.Runtime.Platform.Plan
import Mellow.Runtime.Platform.Completion
import Mellow.Runtime.AirContainer
import Mellow.Tools.ExportTrie
import Mellow.Runtime.ShaderJit.Isolation
