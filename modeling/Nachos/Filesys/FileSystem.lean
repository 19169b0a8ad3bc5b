/-
  Nachos.Filesys.FileSystem — `filesys/filesys.cc`: the real file system on its disk.

  The free map and the directory are files whose headers are in sectors 0 and 1; both stay
  open. `Create` and `Remove` change copies in memory and write them back when nothing can
  fail any more. The table of open files plays no part in them and is left out.
-/

import Nachos.Filesys.Directory
import Nachos.Filesys.Stub

namespace Nachos.OnDisk

abbrev freeMapSector : Word := 0
abbrev directorySector : Word := 1

/-- NumSectors / BitsInByte. -/
abbrev freeMapFileSize : Word := 128

abbrev numDirEntries : Nat := 10

/-- sizeof(DirectoryEntry) * NumDirEntries. -/
abbrev directoryFileSize : Word := 200

structure FileSystem where
  disk : Disk
  freeMapFile : OpenFile
  directoryFile : OpenFile

/-- What the allocations of a call find in memory: the words of a bitmap, and the bytes of
    each of the others. -/
structure Garbage where
  words : Nat → Word
  bytes : Nat → Nat → Byte

namespace FileSystem

variable (fs : FileSystem)

/-- `Create`. -/
def create (g : Garbage) (name : List Byte) (initialSize : Word) : Except Stop (Bool × FileSystem) := do
  let directory ← (Directory.new numDirEntries (g.bytes 0)).fetchFrom fs.directoryFile fs.disk
  if directory.find name ≠ -1 then return (false, fs)
  else
    let freeMap ← (BitMap.new numSectors g.words).fetchFrom fs.freeMapFile fs.disk
    let (sector, freeMap) := freeMap.find
    if sector = -1 then return (false, fs)
    else
      match directory.add name (BitVec.ofInt 32 sector) with
      | (false, _) => return (false, fs)
      | (true, directory) =>
        let (allocated, hdr, freeMap) ← (FileHeader.new (g.bytes 1)).allocate freeMap initialSize
        if allocated then
          let disk ← hdr.writeBack fs.disk (BitVec.ofInt 32 sector)
          let disk ← directory.writeBack fs.directoryFile disk (g.bytes 2)
          let disk ← freeMap.writeBack fs.freeMapFile disk (g.bytes 3)
          return (true, { fs with disk })
        else return (false, fs)

/-- `Open`; `none` is NULL. -/
def openFile (g : Garbage) (name : List Byte) : Except Stop (Option OpenFile) := do
  let directory ← (Directory.new numDirEntries (g.bytes 0)).fetchFrom fs.directoryFile fs.disk
  let sector := directory.find name
  if BitVec.sle 0 sector then
    let file ← OpenFile.new fs.disk sector
    return some file
  else return none

/-- `Clear`, with its ASSERT. -/
def clearSector (freeMap : BitMap) (sector : Word) : Except Stop BitMap :=
  match freeMap.clear sector.toInt with
  | some freeMap => .ok freeMap
  | none => .error .assertion

/-- `Remove`. -/
def remove (g : Garbage) (name : List Byte) : Except Stop (Bool × FileSystem) := do
  let directory ← (Directory.new numDirEntries (g.bytes 0)).fetchFrom fs.directoryFile fs.disk
  let sector := directory.find name
  if sector = -1 then return (false, fs)
  else
    let fileHdr ← FileHeader.fetchFrom fs.disk sector
    let freeMap ← (BitMap.new numSectors g.words).fetchFrom fs.freeMapFile fs.disk
    let freeMap ← fileHdr.deallocate freeMap
    let freeMap ← clearSector freeMap sector
    let directory := (directory.remove name).2
    let disk ← freeMap.writeBack fs.freeMapFile fs.disk (g.bytes 1)
    let disk ← directory.writeBack fs.directoryFile disk (g.bytes 2)
    return (true, { fs with disk })

/-- `ASSERT(hdr->Allocate(freeMap, fileSize))` of the constructor. -/
def allocateAll (hdr : FileHeader) (freeMap : BitMap) (fileSize : Word) : Except Stop (FileHeader × BitMap) := do
  let (allocated, hdr, freeMap) ← hdr.allocate freeMap fileSize
  if allocated then return (hdr, freeMap) else .error .assertion

/-- `Mark`, with its ASSERT. -/
def markSector (freeMap : BitMap) (sector : Word) : Except Stop BitMap :=
  match freeMap.mark sector.toInt with
  | some freeMap => .ok freeMap
  | none => .error .assertion

/-- What `FileSystem(format)` does to a disk that is to be formatted, up to the files for the
    console. -/
def format (disk : Disk) (g : Garbage) : Except Stop FileSystem := do
  let freeMap := BitMap.new numSectors g.words
  let directory := Directory.new numDirEntries (g.bytes 0)
  let freeMap ← markSector freeMap freeMapSector
  let freeMap ← markSector freeMap directorySector
  let (mapHdr, freeMap) ← allocateAll (.new (g.bytes 1)) freeMap freeMapFileSize
  let (dirHdr, freeMap) ← allocateAll (.new (g.bytes 2)) freeMap directoryFileSize
  let disk ← mapHdr.writeBack disk freeMapSector
  let disk ← dirHdr.writeBack disk directorySector
  let freeMapFile ← OpenFile.new disk freeMapSector
  let directoryFile ← OpenFile.new disk directorySector
  let disk ← freeMap.writeBack freeMapFile disk (g.bytes 3)
  let disk ← directory.writeBack directoryFile disk (g.bytes 4)
  return ⟨disk, freeMapFile, directoryFile⟩

/-- `FileSystem(TRUE)`. -/
def new (disk : Disk) (g g₁ g₂ : Garbage) : Except Stop FileSystem := do
  let fs ← format disk g
  let (_, fs) ← fs.create g₁ Stub.FileSystem.stdinName 0
  let (_, fs) ← fs.create g₂ Stub.FileSystem.stdoutName 0
  return fs

end FileSystem

end Nachos.OnDisk
