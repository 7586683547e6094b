import VkKernel.RamSafety
import VkKernel.KheapAllocator
import VkKernel.BlockLayer
import VkKernel.Ext2
import VkKernel.Ext2Inode
import VkKernel.Ext2Cache
import VkKernel.Ata
import VkKernel.AtaRead
import VkKernel.AtaWrite
import VkKernel.Ext2Alloc
import VkKernel.Ext2BlockRun
import VkKernel.Ext2InodeRun
import VkKernel.Ext2Dir
import VkKernel.Ext2DirUpdate
import VkKernel.AtaDmaLock
import VkKernel.Ext2Read
import VkKernel.Mount
import VkKernel.ReadyQueue
import VkKernel.ThreadPlaces
import VkKernel.ProcessTree
import VkKernel.Sleep
import VkKernel.Fat32
import VkKernel.Fat32Cache
import VkKernel.Fat32Dir
import VkKernel.Fat32Dirent
import VkKernel.Fat32File
import VkKernel.MutexWait
import VkKernel.Queue
import VkKernel.SleepTimes
import VkKernel.Signals
import VkKernel.FileTables
import VkKernel.ProcessGroups
import VkKernel.UserPointers
import VkKernel.Elf
import VkKernel.Fat32LongNames
import VkKernel.KvmHeap
import VkKernel.DirectoryScans
import VkKernel.Ext2Queue
import VkKernel.Ext2ReadBounds
import VkKernel.Krealloc
import VkKernel.KmallocTermination
import VkKernel.PageMapping
import VkKernel.PageFault
import VkKernel.Ext2InodeFree
import VkKernel.Ext2Write
import VkKernel.Ext2WriteRejects
import VkKernel.GroupSearch
import VkKernel.Fat32Read
import VkKernel.Fat32Free
import VkKernel.Fat32Walk
import VkKernel.ProcessExit
import VkKernel.VfsRead
import VkKernel.OpenTruncate
import VkKernel.TrailingSlash
import VkKernel.Fat32Delete
import VkKernel.Fat32Rename
import VkKernel.KernelHalf
import VkKernel.Time
import VkKernel.StrSplit
import VkKernel.RelativePath
import VkKernel.ExecArgs
import VkKernel.IoStream
import VkKernel.TtyRead
import VkKernel.TtyWrite
import VkKernel.ControlSequences
import VkKernel.VgaText
import VkKernel.Ext2Bitmap
import VkKernel.Numerals
import VkKernel.Iso9660Names
import VkKernel.DevfsRuns
import VkKernel.DirectoryRuns
import VkKernel.ElfImage
import VkKernel.Sbrk
import VkKernel.JobControl
import VkKernel.Pci
import VkKernel.Kprintf
import VkKernel.LineDiscipline
