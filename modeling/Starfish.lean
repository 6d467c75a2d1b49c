import Starfish.Buddy.Recovery
import Starfish.Slab.Log
import Starfish.Radix.Traverse
import Starfish.Radix.DeepCopy
import Starfish.Object.Chain
import Starfish.Object.Revoke
import Starfish.VMSpace.Mprotect
import Starfish.VMSpace.Brk
import Starfish.VMSpace.Ckpt
import Starfish.ThreadQueue.Runs
import Starfish.ThreadQueue.FreeList
import Starfish.Plog.Replay
import Starfish.Tmpfs.Handles
import Starfish.Tmpfs.Mapped
import Starfish.FsWrapper.Owners
import Starfish.FsWrapper.Sizes
import Starfish.Polling
import Starfish.RemotePage.Stack
import Starfish.Reclaim.Mailbox
import Starfish.Reclaim.Pins
import Starfish.Reclaim.Returns
import Starfish.Notification.Runs
import Starfish.Futex.Runs
import Starfish.Ipc.SendCap
import Starfish.Tlb.Remote
import Starfish.PageTable.Refine
import Starfish.Sched.Runs
import Starfish.DsmRef.Lives
import Starfish.DsmRef.Counts
