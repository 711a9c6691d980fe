import LaiMiniOs.Kernel.SelfMap
import LaiMiniOs.Kernel.Print
import LaiMiniOs.Kernel.Stdio
import LaiMiniOs.Kernel.HeapPages
import LaiMiniOs.Fs.FormattedDisk
import LaiMiniOs.Fs.Shortage
import LaiMiniOs.Fs.Accounting
import LaiMiniOs.Fs.DirIndirect
import LaiMiniOs.Fs.DirRuns
import LaiMiniOs.Fs.FailedCalls
import LaiMiniOs.Fs.Positions
import LaiMiniOs.Fs.DirListing
import LaiMiniOs.Fs.PathStores
import LaiMiniOs.Shell.Readline
import LaiMiniOs.Shell.Command
import LaiMiniOs.Fs.Cwd
import LaiMiniOs.Userprog.Writers
import LaiMiniOs.Userprog.Pipes
import LaiMiniOs.Kernel.Pools
import LaiMiniOs.Userprog.Reaping
import LaiMiniOs.Userprog.ForkedHeap
import LaiMiniOs.Shell.PipeData
import LaiMiniOs.Device.Ide
import LaiMiniOs.Device.Partitions
import LaiMiniOs.Device.Keyboard
import LaiMiniOs.Userprog.Reclaim
import LaiMiniOs.Userprog.ExecImage
