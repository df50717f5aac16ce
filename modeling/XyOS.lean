import XyOS.Memory.DirectMappingOwned
import XyOS.Memory.DirectMappingAccounting
import XyOS.Memory.DirectMappingReturn
import XyOS.Memory.DirectMappingExhaustion
import XyOS.Memory.DirectMappingExactRelease
import XyOS.Memory.DirectMappingBuddies
import XyOS.Memory.PageAllocatorTermination
import XyOS.Boot.MemoryMap
import XyOS.Process.Close
import XyOS.Process.Death
import XyOS.Process.Fork
import XyOS.Process.FaultAccess
import XyOS.Process.FaultFrame
import XyOS.Process.ProcInit
import XyOS.Process.PageStructures
import XyOS.Process.ProcTree
import XyOS.Interrupt.IdtMemory
import XyOS.Interrupt.IntrInit
import XyOS.Interrupt.Preemption
import XyOS.Interrupt.Pic
import XyOS.Lib.Map
import XyOS.Lib.DoublyList
import XyOS.Driver.Keyboard
import XyOS.Driver.IdeProtocol
import XyOS.Driver.IdeQueue
import XyOS.Driver.PrintfOutput
import XyOS.Thread.RoundRobin
import XyOS.Thread.Sleep
import XyOS.Thread.Directories
import XyOS.Thread.Stacks
import XyOS.Thread.Destruct
import XyOS.Thread.NoMemory
import XyOS.Thread.Wake
import XyOS.Thread.NewQueue
import XyOS.Syscall.Syscall
import XyOS.Driver.DriverInit
