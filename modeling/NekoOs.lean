import NekoOs.Transitions
import NekoOs.Words
import NekoOs.ByteMemory
import NekoOs.Tiling
import NekoOs.Outcome
import NekoOs.Alloc
import NekoOs.HeapModel
import NekoOs.HeapRuns
import NekoOs.X86
import NekoOs.Tasks
import NekoOs.RunQueue
import NekoOs.Scheduler
import NekoOs.Multicore
import NekoOs.Preemption
import NekoOs.Contexts
import NekoOs.Spinlocks
import NekoOs.Madt
import NekoOs.Smp
import NekoOs.PathTree
import NekoOs.Paging
import NekoOs.PageTables
import NekoOs.Regions
import NekoOs.BootMap
import NekoOs.Mmio
import NekoOs.Access
import NekoOs.Multiboot
import NekoOs.MadtReads
import NekoOs.Mem
import NekoOs.Console
import NekoOs.Printf
import NekoOs.Klog
import NekoOs.Conversions
import NekoOs.Idle
import NekoOs.Interrupts
import NekoOs.Custody
import NekoOs.Handover
import NekoOs.Conservation
import NekoOs.Gaps
import NekoOs.Allocation
import NekoOs.DoubleFree
import NekoOs.TaskMemory
import NekoOs.RoundTrip
import NekoOs.ApStart
import NekoOs.PerCpu
import NekoOs.Trace
import NekoOs.Confined
import NekoOs.AcpiReads
import NekoOs.AcpiMap
import NekoOs.Canvas
import NekoOs.Framebuffer
import NekoOs.Screen
import NekoOs.Fifo
import NekoOs.SmpInit
import NekoOs.FormatEnd
import NekoOs.Fields
import NekoOs.Numerals
import NekoOs.NoBuffer
import NekoOs.Remap
import NekoOs.MadtEncoding
import NekoOs.CpuCount
import NekoOs.Rsdp
import NekoOs.RootTable
import NekoOs.Pixels
import NekoOs.FbInit
import NekoOs.Drawing
import NekoOs.Psf
import NekoOs.Polling
import NekoOs.Hpet
import NekoOs.Simulation
import NekoOs.Locking
import NekoOs.LockedQueue
import NekoOs.LogLines
import NekoOs.PushWords
import NekoOs.Isr
import NekoOs.ModeSwitch
import NekoOs.BootEntry
import NekoOs.Trampoline
import NekoOs.Uart
import NekoOs.Serial
import NekoOs.Idt
import NekoOs.Discovery
