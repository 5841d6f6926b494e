import Sinux.Arch.Syscall
import Sinux.Mm.FiniteMap
import Sinux.Mm.AddressSpace
import Sinux.Mm.Fork
import Sinux.Mm.KernelMap
import Sinux.Mm.Kmalloc
import Sinux.Proc.KernelStack
import Sinux.Proc.RoundRobin
import Sinux.Proc.TimerAck
import Sinux.Proc.States
import Sinux.Proc.QueueExact
import Sinux.Proc.WaitExit
import Sinux.Proc.ContextSwitch
import Sinux.Ipc.PipeWait
import Sinux.Fs.Truncate
import Sinux.Fs.Vfs
import Sinux.Fs.Modes
import Sinux.Proc.ForkCopy
import Sinux.Proc.UserStack
import Sinux.Proc.ExecClean
import Sinux.Crypto.Hmac
import Sinux.Core.Auth
import Sinux.Smp.RwLock
import Sinux.Smp.PickBest
import Sinux.Proc.Brk
import Sinux.Core.StringCopy
import Sinux.Mm.SlabAlign
import Sinux.Mm.BlockWalks
import Sinux.Core.Persist
import Sinux.Mm.Bump
import Sinux.Proc.PipeCreate
import Sinux.Proc.Stopped
import Sinux.Proc.ElfSegment
import Sinux.Proc.StackAbi
import Sinux.Proc.CreateFail
import Sinux.Mm.KernelHalf
import Sinux.Fs.Ext2Read
import Sinux.Fs.Positions
import Sinux.Fs.Ext2Safe
import Sinux.Fs.RamNodes
import Sinux.Core.AtaRequest
import Sinux.Core.PathBytes
import Sinux.Drivers.Framebuffer
import Sinux.Drivers.Keyboard
