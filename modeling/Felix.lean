import Felix.Ext2.AllocContract
import Felix.Ext2.FormatRoot
import Felix.Ext2.FileContract
import Felix.Ext2.DirSafety
import Felix.Ext2.RenameContract
import Felix.Memory.ElfContract
import Felix.Memory.UserStack
import Felix.Memory.MmapContract
import Felix.Memory.HeapContract
import Felix.Kernel.PollContract
import Felix.Kernel.SessionContract
import Felix.Kernel.WaitContract
import Felix.Kernel.KillContract
import Felix.Kernel.FutexContract
import Felix.Io.Getdents
import Felix.Io.Readiness
import Felix.Io.LineContract
import Felix.Vfs.InodeContract
import Felix.Vfs.UsbContract
import Felix.Vfs.OpenDirs
import Felix.Io.DescriptorContract
import Felix.Net.Rtl8139
import Felix.Net.UdpContract
import Felix.Kernel.UserPointers
import Felix.Apps.Quoting
import Felix.Lib.Mutex
import Felix.Lib.Results
import Felix.Apps.Redirs
import Felix.Apps.Terminal
import Felix.Kernel.RoundRobin
import Felix.Wm.Resize
import Felix.Apps.Dd
import Felix.Vfs.MassStorage
import Felix.Apps.MpegTs
