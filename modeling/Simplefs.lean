import Simplefs.Lib.ByteMem
import Simplefs.Lib.Prog
import Simplefs.Lib.Machine
import Simplefs.Lib.NameGraph
import Simplefs.Lib.LockOrder
import Simplefs.Lib.Wlp
import Simplefs.Lib.Scan
import Simplefs.Layout
import Simplefs.Bitmap
import Simplefs.Cache
import Simplefs.State
import Simplefs.Ops
import Simplefs.Calls
import Simplefs.Vfs
import Simplefs.Store
import Simplefs.Tree
import Simplefs.Inv
import Simplefs.Phases
import Simplefs.Sections
import Simplefs.Outlines
import Simplefs.Mkfs
import Simplefs.Mount
import Simplefs.Runs
import Simplefs.Consistency
import Simplefs.Caching
import Simplefs.Allocation
import Simplefs.Remount
import Simplefs.Balance
import Simplefs.Unlink
import Simplefs.Create
import Simplefs.Format
import Simplefs.Deadlock
import Simplefs.Bounds
import Simplefs.Confined
import Simplefs.Frame
import Simplefs.Contents
import Simplefs.Rewrite
import Simplefs.Stale
import Simplefs.Room
import Simplefs.Listed
import Simplefs.Accounts
import Simplefs.FailedWrite
import Simplefs.Names
import Simplefs.Tidy
import Simplefs.Allocator
import Simplefs.NewDir
import Simplefs.Listing
import Simplefs.Untrusted
import Simplefs.Search
import Simplefs.Lib.Driver
import Simplefs.Globalfifo.Device
import Simplefs.Globalfifo.Rules
import Simplefs.Globalfifo.Order
import Simplefs.Globalfifo.Wakeup
import Simplefs.Lib.Text
import Simplefs.Hook.Redirect
import Simplefs.Hook.Unhook
import Simplefs.Mm.Debug
import Simplefs.Overlap
import Simplefs.Paths
import Simplefs.Survival
import Simplefs.Unmount
