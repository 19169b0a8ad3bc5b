import Nachos.Threads.Transparency
import Nachos.Userprog.LoaderSafety
import Nachos.Userprog.Parents
import Nachos.Userprog.FrameOwnership
import Nachos.Userprog.Exit
import Nachos.Userprog.Handshake
import Nachos.Filesys.Agreement
import Nachos.Filesys.Isolation
import Nachos.Filesys.Names
import Nachos.Userprog.SemNames
import Nachos.Threads.ConsoleOutput
import Nachos.Userprog.LoadLock
import Nachos.Network.Delivery
import Nachos.Machine.Mips
import Nachos.Threads.Carcass
import Nachos.Machine.InterruptTies
import Nachos.Threads.Discipline
import Nachos.Userprog.Waiting
import Nachos.Filesys.OpenFiles
import Nachos.Filesys.SynchDisk
import Nachos.Machine.Encoding
import Nachos.Userprog.ByteStore
import Nachos.Userprog.Strings
import Nachos.Filesys.FileSize
import Nachos.Bin.Image
import Nachos.Test.WaterTaps
import Nachos.Machine.DiskLatency
import Nachos.Machine.Ticks
import Nachos.Userprog.RegisterFile
import Nachos.Filesys.BitMapSet
import Nachos.Threads.LinkedList
import Nachos.Threads.ReadyQueue
