/-
  File:      Yuios/Fs/Sample.lean
  Subject:   A SMALL VOLUME, as `devmkfs` leaves it and after `mount_root`: 64 blocks, 31 inodes,
             one block for each bitmap, the root directory in zone 5. Runs on it can be computed.
-/
import Yuios.Fs.Run

namespace Yuios

open Lib Prog

namespace Sample

/-- The device of the root volume. -/
def dev : Int := 1

def superBlock : SuperBlock where
  dev := dev
  inodes := 31
  zones := 64
  imapBlocks := 1
  zmapBlocks := 1
  firstdatazone := 5
  inodeList := [0]
  iroot := some 0
  imount := some 0

/-- The fields of a descriptor, at byte `off` of its block. -/
def descriptor (off mode size nlinks zone0 : Nat) (b : Bytes) : Bytes :=
  store (store (store (store b (off + 0) 2 mode) (off + 4) 4 size) (off + 13) 1 nlinks)
    (off + 14) 2 zone0

/-- An entry of a directory, at byte `off` of its block. -/
def dentry (off nr : Nat) (name : List UInt8) (b : Bytes) : Bytes :=
  strncpy (off + 2) name NAME_LEN (store b off 2 nr)

/-- The bytes of the blocks; what has never been written holds `junk`. -/
def disk (junk : Key → Bytes) (k : Key) : Bytes :=
  if k = ⟨dev, 2⟩ then store (fun _ => 0) 0 1 3
  else if k = ⟨dev, 3⟩ then store (fun _ => 0) 0 1 3
  else if k = ⟨dev, 4⟩ then descriptor 0 (IFDIR + 0o755) 32 2 5 fun _ => 0
  else if k = ⟨dev, 5⟩ then dentry 16 1 DOTDOT (dentry 0 1 DOT fun _ => 0)
  else junk k

/-- Slot 0 holds the root directory, which is covered by itself; the others are free. -/
def inodeTable (x : Nat) : Inode :=
  if x = 0 then ⟨dev, 1, ⟨dev, 4⟩, 0, 4, dev, false⟩
  else ⟨devEOF, 0, ⟨devEOF, 0⟩, 0, 0, 0, false⟩

def superTable (i : Nat) : SuperBlock :=
  if i = 0 then superBlock else { superBlock with dev := devEOF, inodeList := [] }

/-- Task 0 runs, with the root directory as its own root and current directory. -/
def kernel (junk : Key → Bytes) (clock : Nat → Nat) : Kernel where
  cache :=
    { disk := disk junk
      buf := fun k => ⟨none, false, if k = ⟨dev, 4⟩ then 1 else 0⟩ }
  tab :=
    { inodeTable := inodeTable
      superTable := superTable
      task := fun _ => ⟨0, 0, 0o022, 0, 0, fun _ => none⟩
      running := 0
      fileTable := fun _ => ⟨none, 0, 0, 0, 0⟩ }
  clock := clock
  tick := 0

/-- The volume with empty blocks, and a clock that runs. -/
def fresh : Kernel := kernel (fun _ _ => 0) fun i => 1000 + i

/-- A regular file's name in the root directory. -/
def fileA : List UInt8 := [47, 97]

/-- The blocks with an empty regular file `a`, inode 2. -/
def diskFile (junk : Key → Bytes) (k : Key) : Bytes :=
  if k = ⟨dev, 2⟩ then store (fun _ => 0) 0 1 7
  else if k = ⟨dev, 4⟩ then
    descriptor 32 (IFREG + 0o644) 0 1 0 (descriptor 0 (IFDIR + 0o755) 48 2 5 fun _ => 0)
  else if k = ⟨dev, 5⟩ then dentry 32 2 [97] (disk junk k)
  else disk junk k

/-- The volume with the file, which slot 1 holds in memory. -/
def kernelFile (junk : Key → Bytes) : Kernel :=
  { kernel junk (fun i => 1000 + i) with
    cache :=
      { disk := diskFile junk
        buf := fun k => ⟨none, false, if k = ⟨dev, 4⟩ then 2 else 0⟩ }
    tab :=
      { (kernel junk fun _ => 0).tab with
        inodeTable := fun x => if x = 1 then ⟨dev, 2, ⟨dev, 4⟩, 32, 1, 0, false⟩ else inodeTable x
        superTable := fun i =>
          if i = 0 then { superBlock with inodeList := [1, 0] } else superTable i } }

end Sample

end Yuios
