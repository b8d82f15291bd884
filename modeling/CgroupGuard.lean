import CgroupGuard.Lib.BoundedMap
import CgroupGuard.ExecControl.Hook
import CgroupGuard.ExecControl.Run
import CgroupGuard.Lib.IdleWindow
import CgroupGuard.ExecControl.View
import CgroupGuard.ExecControl.Learned
import CgroupGuard.ExecControl.Absorbing
import CgroupGuard.ExecControl.Capacity
import CgroupGuard.ExecControl.Isolation
import CgroupGuard.ExecControl.Interleaved
import CgroupGuard.ExecControl.Underflow
import CgroupGuard.ControlPlane.Docker
import CgroupGuard.ControlPlane.Registry
import CgroupGuard.ControlPlane.System
import CgroupGuard.ControlPlane.Bootstrap
import CgroupGuard.ControlPlane.Startup
import CgroupGuard.ControlPlane.Sequential
import CgroupGuard.ControlPlane.EventOrder
import CgroupGuard.ControlPlane.Pool
import CgroupGuard.ControlPlane.Shutdown
import CgroupGuard.ControlPlane.Registration
import CgroupGuard.ControlPlane.Failures
import CgroupGuard.Lib.Cursor
import CgroupGuard.ControlPlane.Dump
import CgroupGuard.ControlPlane.Locking
import CgroupGuard.Lib.Text
import CgroupGuard.ControlPlane.CgroupPath
import CgroupGuard.ControlPlane.Resolve
import CgroupGuard.ControlPlane.EventLoop
import CgroupGuard.Lib.CString
import CgroupGuard.FileOpening.Hook
import CgroupGuard.FileOpening.Loader
import CgroupGuard.FileOpening.Blacklist
import CgroupGuard.FileOpening.Identity
import CgroupGuard.FileOpening.Reload
import CgroupGuard.Lib.Reads
import CgroupGuard.FileOpening.Scan
import CgroupGuard.Policies.Hooks
import CgroupGuard.Lib.PathName
import CgroupGuard.MountBlock.Hook
import CgroupGuard.MountBlock.Spelling
import CgroupGuard.MountBlock.Compare
import CgroupGuard.TaskBlock.Namespaces
import CgroupGuard.Policies.Membership
import CgroupGuard.Policies.Pinning
import CgroupGuard.Lib.Linearizable
import CgroupGuard.ControlPlane.Linearization
import CgroupGuard.FileOpening.Race
import CgroupGuard.ExecControl.Settled
import CgroupGuard.Policies.Host
import CgroupGuard.ControlPlane.Sessions
import CgroupGuard.Lib.Measure
import CgroupGuard.ControlPlane.Progress
import CgroupGuard.Policies.Influence
import CgroupGuard.VerifyContainer.StdWrite
import CgroupGuard.ControlPlane.DriverCache
import CgroupGuard.Lib.Layout
import CgroupGuard.Lib.UserMemory
import CgroupGuard.ControlPlane.BpfAttr
import CgroupGuard.ExecControl.Unaffected
import CgroupGuard.ExecControl.Fine
import CgroupGuard.Policies.Defence
import CgroupGuard.MountBlock.Table
import CgroupGuard.ControlPlane.Mounts
import CgroupGuard.FileOpening.Report
