import AndroidEmu.AddressSpace.HostDevice
import AndroidEmu.AddressSpace.MemoryMappings
import AndroidEmu.AddressSpace.SubAllocatorSnapshot
import AndroidEmu.Base.IOVector
import AndroidEmu.Base.MessageChannel
import AndroidEmu.Base.Pool
import AndroidEmu.Base.Stream
import AndroidEmu.Base.TarWriter
import AndroidEmu.Base.Uri
import AndroidEmu.Base.Utf8Utils
import AndroidEmu.Containers.BufferQueue
import AndroidEmu.EntityManager.Runs
import AndroidEmu.Events.EventQueue
import AndroidEmu.Glue.CharPipe
import AndroidEmu.Graphics.RingStream
import AndroidEmu.HostCommon.DmaMap
import AndroidEmu.HostCommon.H264NaluParser
import AndroidEmu.HostCommon.HostmemIdMapping
import AndroidEmu.Hw.GoldfishTty
import AndroidEmu.Pipe.Runs
import AndroidEmu.Pipe.TransferSafety
import AndroidEmu.RamSnapshot.LoadRam
import AndroidEmu.RamSnapshot.RamFiles
import AndroidEmu.RamSnapshot.WriteCombine
import AndroidEmu.RingBuffer.Peek
import AndroidEmu.RingBuffer.Transfer
import AndroidEmu.SharedSlots.Snapshot
import AndroidEmu.Sync.Delivery
import AndroidEmu.Telephony.Alphanumeric
import AndroidEmu.Telephony.Deliver
import AndroidEmu.Telephony.Gsm8
import AndroidEmu.Telephony.ModemState
import AndroidEmu.Telephony.Reassembly
import AndroidEmu.Utils.IntMap
import AndroidEmu.VirtioGpu.FenceOrder
import AndroidEmu.Vulkan.SavedCalls
