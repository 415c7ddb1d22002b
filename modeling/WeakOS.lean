import WeakOS.Foundation.Word
import WeakOS.Foundation.Run
import WeakOS.Foundation.Search
import WeakOS.Foundation.LinkedPool
import WeakOS.Foundation.Layout
import WeakOS.Foundation.Ownership
import WeakOS.Foundation.Bitmap
import WeakOS.Foundation.Loop
import WeakOS.Foundation.DoublyLinked
import WeakOS.Paging.Model
import WeakOS.Paging.Walk
import WeakOS.Memory.Model
import WeakOS.Memory.Frames
import WeakOS.Memory.RegionTable
import WeakOS.Memory.Calls
import WeakOS.Memory.Preinit
import WeakOS.Memory.Session
import WeakOS.Memory.Ranges
import WeakOS.Memory.Pool
import WeakOS.Memory.Conservation
import WeakOS.Memory.Rollback
import WeakOS.Memory.Effects
import WeakOS.Memory.Steps
import WeakOS.Memory.Contract
import WeakOS.Memory.Undo
import WeakOS.Memory.Cuts
import WeakOS.Memory.Reserve
import WeakOS.Memory.BiosTable
import WeakOS.Memory.Backlinks
import WeakOS.Boot.Sysinit
import WeakOS.Boot.Regions
import WeakOS.Boot.Window
import WeakOS.Boot.Tlb
import WeakOS.Boot.KernelFrames
import WeakOS.Boot.HardwareWalk
import WeakOS.Foundation.Cache
import WeakOS.Libc.Copy
import WeakOS.Fat.Model
import WeakOS.Fat.SectorCache
import WeakOS.Fat.Transparency
import WeakOS.Fat.ReadFile
import WeakOS.Fat.Ports
import WeakOS.Fat.Containment
import WeakOS.Stdio.Model
import WeakOS.Stdio.Terminal
import WeakOS.Libc.CString
import WeakOS.Foundation.Numeral
import WeakOS.Stdio.Printf
import WeakOS.Stdio.Format
import WeakOS.Stdio.Numerals
import WeakOS.Fat.Directory
import WeakOS.Foundation.Visit
import WeakOS.Fat.Listing
import WeakOS.Fat.Names
import WeakOS.Fat.Lookup
import WeakOS.Fat.History
import WeakOS.Fat.ReservedBits
import WeakOS.Fat.Pieces
import WeakOS.Fat.LongNames
import WeakOS.Fat.Enumeration
import WeakOS.Fat.NameBuffer
import WeakOS.Fat.ShortNames
import WeakOS.Foundation.Forest
import WeakOS.Syscall.Dirent
import WeakOS.X86.Memory
import WeakOS.X86.Machine
import WeakOS.X86.Records
import WeakOS.Syscall.Context
import WeakOS.Syscall.Handler
import WeakOS.Syscall.User
import WeakOS.Keyboard.Events
import WeakOS.Keyboard.Model
import WeakOS.Keyboard.Shift
import WeakOS.Keyboard.WaitChar
import WeakOS.Userspace.Fgets
import WeakOS.Userspace.Lines
import WeakOS.Userspace.Printf
import WeakOS.Userspace.Decimal
import WeakOS.Userspace.Shell
import WeakOS.X86.Strings
import WeakOS.Boot.Elf
import WeakOS.Boot.Segments
import WeakOS.Foundation.RoundRobin
import WeakOS.Tasks.Model
import WeakOS.Tasks.Switch
import WeakOS.Tasks.Schedule
import WeakOS.Abi.Integer
import WeakOS.Interrupt.Gates
import WeakOS.Libc.Memset
import WeakOS.Userspace.Strings
import WeakOS.Userspace.Tokens
import WeakOS.Liballoc.Model
import WeakOS.Liballoc.Blocks
import WeakOS.Liballoc.Place
import WeakOS.Liballoc.Arena
import WeakOS.Liballoc.Fetch
import WeakOS.Liballoc.Kmalloc
import WeakOS.Liballoc.Kfree
import WeakOS.Liballoc.Callers
import WeakOS.Liballoc.Krealloc
import WeakOS.Liballoc.Runs
import WeakOS.Liballoc.Support
import WeakOS.Liballoc.Contract
import WeakOS.Paging.Protection
import WeakOS.Boot.Programs
import WeakOS.Boot.Contents
import WeakOS.Foundation.Ports
import WeakOS.Interrupt.Pic
import WeakOS.Interrupt.Requests
import WeakOS.Boot.MemoryMap
import WeakOS.Boot.Handover
import WeakOS.Boot.Stage2
import WeakOS.Boot.Gdt
