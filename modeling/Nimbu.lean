import Nimbu.Machine.Memory
import Nimbu.Machine.Run
import Nimbu.Machine.Since
import Nimbu.Machine.Bitmap
import Nimbu.Machine.Blocks
import Nimbu.Machine.BlockSizes
import Nimbu.Machine.WordArray
import Nimbu.Machine.Paging
import Nimbu.Machine.Walks
import Nimbu.Machine.Embedding
import Nimbu.Machine.Tlb
import Nimbu.Machine.Ring
import Nimbu.Machine.Terminal
import Nimbu.Machine.Tokens
import Nimbu.Mm.Pmm
import Nimbu.Mm.Frames
import Nimbu.Mm.PmmRefinement
import Nimbu.Mm.Heap
import Nimbu.Mm.HeapBlocks
import Nimbu.Mm.HeapClient
import Nimbu.Mm.HeapContract
import Nimbu.Mm.HeapSteps
import Nimbu.Mm.FirstFit
import Nimbu.Mm.Fragmentation
import Nimbu.Mm.HeapGrowth
import Nimbu.Mm.Alignment
import Nimbu.Mm.Statistics
import Nimbu.Mm.ForeignPointers
import Nimbu.Mm.Vmm
import Nimbu.Mm.VmmMap
import Nimbu.Mm.VmmFresh
import Nimbu.Mm.Embedding
import Nimbu.Kernel.Boot
import Nimbu.Kernel.HeapImage
import Nimbu.Kernel.PageTables
import Nimbu.Kernel.Reachable
import Nimbu.Kernel.Mappings
import Nimbu.Kernel.RoundTrip
import Nimbu.Kernel.Tlb
import Nimbu.Kernel.TlbCoherence
import Nimbu.Kernel.PageMap
import Nimbu.Proc.Process
import Nimbu.Proc.Scheduler
import Nimbu.Proc.Steps
import Nimbu.Proc.Running
import Nimbu.Proc.Lifecycle
import Nimbu.Proc.Created
import Nimbu.Proc.RoundRobin
import Nimbu.Proc.TimeSlices
import Nimbu.Proc.CpuTime
import Nimbu.Proc.Waiting
import Nimbu.Proc.Contexts
import Nimbu.Kernel.Create
import Nimbu.Kernel.Resources
import Nimbu.Kernel.HeapApart
import Nimbu.Kernel.Workload
import Nimbu.Kernel.Hosted
import Nimbu.Kernel.Paged
import Nimbu.Kernel.PagedWorkload
import Nimbu.Kernel.ReservedFrames
import Nimbu.Kernel.FreshContext
import Nimbu.Arch.Gdt
import Nimbu.Arch.Pic
import Nimbu.Arch.Idt
import Nimbu.Drivers.Kbd
import Nimbu.Drivers.ShiftKeys
import Nimbu.Kernel.Interrupts
import Nimbu.Drivers.Serial
import Nimbu.Drivers.SerialLine
import Nimbu.Drivers.Vga
import Nimbu.Shell.Shell
import Nimbu.Shell.ParseArgs
import Nimbu.Shell.Arguments
import Nimbu.Shell.Dispatch
import Nimbu.Shell.Lines
import Nimbu.Shell.Typing
import Nimbu.Shell.Output
import Nimbu.Shell.Transcript
import Nimbu.Shell.LineEditor
import Nimbu.Shell.Bounds
import Nimbu.Shell.Screen
