import Biefircate.Lib.Bytes
import Biefircate.Lib.Copy
import Biefircate.Lib.Demand
import Biefircate.Lib.Flag
import Biefircate.Lib.Halves
import Biefircate.Lib.HashTable
import Biefircate.Lib.LinkedList
import Biefircate.Lib.Machine
import Biefircate.Lib.Ports
import Biefircate.Lib.Ring
import Biefircate.Lib.Run
import Biefircate.Lib.Shared
import Biefircate.Lib.Slice
import Biefircate.Lib.Span
import Biefircate.Lib.Word
import Biefircate.Lib.X86
import Biefircate.Model.BparmList
import Biefircate.Model.Common
import Biefircate.Model.Stage1.Acpi
import Biefircate.Model.Stage1.Bmem
import Biefircate.Model.Stage1.Bparm
import Biefircate.Model.Stage1.Fv
import Biefircate.Model.Stage1.FvInit
import Biefircate.Model.Stage1.HandOver
import Biefircate.Model.Stage1.LoadStage2
import Biefircate.Model.Stage1.Main
import Biefircate.Model.Stage1.Mp
import Biefircate.Model.Stage1.Pci
import Biefircate.Model.Stage1.PciBars
import Biefircate.Model.Stage1.PciRom
import Biefircate.Model.Stage1.Rimg
import Biefircate.Model.Stage1.RunStage2
import Biefircate.Model.Stage1.Util
import Biefircate.Model.Stage2.Clib
import Biefircate.Model.Stage2.Int1a
import Biefircate.Model.Stage2.Irq
import Biefircate.Model.Stage2.Kb
import Biefircate.Model.Stage2.KbIrq
import Biefircate.Model.Stage2.Main
import Biefircate.Model.Stage2.MemMap
import Biefircate.Model.Stage2.PageTable
import Biefircate.Model.Stage2.Rm16
import Biefircate.Model.Stage2.Rm16Call
import Biefircate.Model.Stage2.Start
import Biefircate.Model.Stage2.Time
import Biefircate.Model.Stage2.VaMap
import Biefircate.Model.Stage2.Vecs16
import Biefircate.Proofs.BparmList
import Biefircate.Proofs.Stage1.AddOur
import Biefircate.Proofs.Stage1.Bmem
import Biefircate.Proofs.Stage1.BmemGrab
import Biefircate.Proofs.Stage1.BmemInit
import Biefircate.Proofs.Stage1.BmemInvariant
import Biefircate.Proofs.Stage1.Bparm
import Biefircate.Proofs.Stage1.FvCache
import Biefircate.Proofs.Stage1.FvGather
import Biefircate.Proofs.Stage1.HandOver
import Biefircate.Proofs.Stage1.LoadStage2
import Biefircate.Proofs.Stage1.Pci
import Biefircate.Proofs.Stage1.Rimg
import Biefircate.Proofs.Stage1.RunStage2
import Biefircate.Proofs.Stage2.Clib
import Biefircate.Proofs.Stage2.FindUnused
import Biefircate.Proofs.Stage2.Int1a
import Biefircate.Proofs.Stage2.Irq
import Biefircate.Proofs.Stage2.Kb
import Biefircate.Proofs.Stage2.MemAlloc
import Biefircate.Proofs.Stage2.MemAllocTotal
import Biefircate.Proofs.Stage2.MemGrown
import Biefircate.Proofs.Stage2.MemMapInit
import Biefircate.Proofs.Stage2.PageDirs
import Biefircate.Proofs.Stage2.PageEntry
import Biefircate.Proofs.Stage2.PageMap
import Biefircate.Proofs.Stage2.PageTable
import Biefircate.Proofs.Stage2.Remap
import Biefircate.Proofs.Stage2.Rm16
import Biefircate.Proofs.Stage2.Rm16Call
import Biefircate.Proofs.Stage2.RtcRounds
import Biefircate.Proofs.Stage2.Shellsort
import Biefircate.Proofs.Stage2.TableSlots
import Biefircate.Proofs.Stage2.Time
import Biefircate.Proofs.Stage2.VaBlocks
import Biefircate.Proofs.Stage2.VaInit
import Biefircate.Proofs.Stage2.VaInitTables
import Biefircate.Proofs.Stage2.VaRuns
import Biefircate.Proofs.Stage2.Vecs16
import Biefircate.Soundness.AcpiWalk
import Biefircate.Soundness.AllocAnswers
import Biefircate.Soundness.BalancedRuns
import Biefircate.Soundness.BaseMemory
import Biefircate.Soundness.BmemBlocks
import Biefircate.Soundness.BootParams
import Biefircate.Soundness.BparmList
import Biefircate.Soundness.CacheAttrs
import Biefircate.Soundness.EfiMain
import Biefircate.Soundness.EnterStage2
import Biefircate.Soundness.FvInit
import Biefircate.Soundness.FvLookup
import Biefircate.Soundness.FvSections
import Biefircate.Soundness.IdentityMap
import Biefircate.Soundness.Int1aReturn
import Biefircate.Soundness.Interrupts
import Biefircate.Soundness.KeyboardBuffer
import Biefircate.Soundness.KeyboardIrq
import Biefircate.Soundness.KeyboardLocks
import Biefircate.Soundness.KeyboardTyping
import Biefircate.Soundness.MadtWalk
import Biefircate.Soundness.MapInit
import Biefircate.Soundness.MemCopy
import Biefircate.Soundness.MemoryMap
import Biefircate.Soundness.MpTables
import Biefircate.Soundness.OptionRoms
import Biefircate.Soundness.OwnRanges
import Biefircate.Soundness.PageGrabbing
import Biefircate.Soundness.PciBars
import Biefircate.Soundness.PcirFields
import Biefircate.Soundness.ProcessPci
import Biefircate.Soundness.RimgDiscovery
import Biefircate.Soundness.RimgParser
import Biefircate.Soundness.RimgPlacement
import Biefircate.Soundness.Rm16Call
import Biefircate.Soundness.Rm16Init
import Biefircate.Soundness.RsdpParam
import Biefircate.Soundness.RtcRetries
import Biefircate.Soundness.ScratchWindow
import Biefircate.Soundness.SegmentLoading
import Biefircate.Soundness.SegmentUndo
import Biefircate.Soundness.SharedDataArea
import Biefircate.Soundness.SortedTable
import Biefircate.Soundness.TableCapacity
import Biefircate.Soundness.TimeOfDay
import Biefircate.Soundness.UefiRanges
import Biefircate.Soundness.UnusedRanges
import Biefircate.Soundness.VaMapping
import Biefircate.Soundness.VaRuns
