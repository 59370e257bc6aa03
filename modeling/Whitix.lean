import Whitix.Arch.I386.Mm.Phys
import Whitix.Arch.I386.Virt.UserMaps
import Whitix.Devices.Storage.Ata.Liveness
import Whitix.Devices.Storage.Ata.Sectors
import Whitix.Fs.Bcache.Run
import Whitix.Fs.Ext3.ReadDir
import Whitix.Fs.Ext3.Truncate
import Whitix.Fs.Fat.BlockMap
import Whitix.Fs.Fat.FreeCount
import Whitix.Fs.Fat.Mount
import Whitix.Fs.Fat.Run
import Whitix.Fs.Fat.Truncate
import Whitix.Fs.Fat.VNodeNum
import Whitix.Fs.Isofs.Date
import Whitix.Fs.Journal.Durable
import Whitix.Fs.Journal.Nesting
import Whitix.Fs.Journal.ReadBack
import Whitix.Fs.Journal.Recovered
import Whitix.Fs.Pipe
import Whitix.Fs.Vfs.FailedWrite
import Whitix.Fs.Vfs.FileLifetime
import Whitix.Fs.Vfs.GetDirEntries
import Whitix.Fs.Vfs.GetName
import Whitix.Fs.Vfs.Load.Args
import Whitix.Fs.Vfs.Poll
import Whitix.Fs.Vfs.Super
import Whitix.Fs.Vfs.VNodeLists
import Whitix.Fs.Vfs.WorkingDir
import Whitix.Kernel.Sched
import Whitix.Kernel.Thread
import Whitix.Kernel.Timer.Run
import Whitix.Kernel.Wait
import Whitix.Lib.HeapSort
import Whitix.Memory.Mmap.FindAddress
import Whitix.Memory.Mmap.Run
import Whitix.Memory.Slab.Grow
import Whitix.Memory.Slab.Heap
import Whitix.Memory.Vmm.SharedPages
import Whitix.Net.Connection.Run
import Whitix.Net.Local
import Whitix.User.Libc.Stdio.Run
import Whitix.User.Libc.Str
import Whitix.User.Posix.PthreadSpecific
import Whitix.User.System.Registry.Run
import Whitix.Video.Background
import Whitix.Video.Keyboard
