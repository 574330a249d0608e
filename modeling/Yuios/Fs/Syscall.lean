/-
  File:      Yuios/Fs/Syscall.lean
  Subject:   THE CALLS ON NAMES: `sys_mkdir` ... `sys_mknod` and `inode_open` of `fs/namei.c`.

  The calls share one shape: `named`, a few tests, `find_entry`, the work, and `rollback`, which
  releases what is held. A call answers `true` for 0 and `false` for `EOF`.
-/
import Yuios.Fs.Namei

namespace Yuios

open Lib Code

/-! ## 1. Creating and removing names -/

/-- `rollback` of a call that holds the buffer `buf` and the directory `dir`. -/
def rollback {α : Type} (buf : Option Key) (dir : Nat) (ret : α) : Code α := do
  brelse? buf
  iput dir
  return ret

/-- `entry->nr = ialloc(dir->dev)`, and the number. -/
def nameNewInode (dir : Nat) (k : Key) (entry : Nat) : Code Nat := do
  let ino ← inodeAt dir
  let nr ← within (.create k entry) (ialloc ino.dev)
  setDentryNr k entry nr
  dentryNr k entry

/-- `strcpy(entry->name, name); entry->nr = nr;` for the two entries of a new directory. -/
def setDentry (k : Key) (entry : Nat) (name : List UInt8) (nr : Nat) : Code Unit := do
  poke k fun b => copyIn b (entry + 2) (ofString name) (name.length + 1)
  setDentryNr k entry nr

/-- What `sys_mkdir` does once the name is free. -/
def mkdirIn (dir : Nat) (name : List UInt8) (mode : Nat) : Code Unit := do
  let (ebuf, entry) ← addEntry dir name
  setDirty ebuf
  let nr ← nameNewInode dir ebuf entry
  let task ← runningTask
  let d ← inodeAt dir
  let inode ← newInode d.dev nr
  descSet inode .mode ((mode &&& 0o777 &&& (0o777 ^^^ (task.umask &&& 0o777))) ||| IFDIR)
  descSet inode .size 32
  descSet inode .nlinks 2
  inodeDirty dir
  let nlinks ← descGet dir .nlinks
  descSet dir .nlinks (nlinks + 1)
  let zone ← bmap inode 0 true
  let ino ← inodeAt inode
  let zbuf ← bread ino.dev zone
  setDirty zbuf
  setDentry zbuf 0 DOT ino.nr
  let d ← inodeAt dir
  setDentry zbuf 16 DOTDOT d.nr
  iput inode
  iput dir
  brelse ebuf
  brelse zbuf

/-- `sys_mkdir`. -/
def sysMkdir (pathname : List UInt8) (mode : Nat) : Code Bool := do
  match ← named pathname with
  | none => return false
  | some (dir, next) =>
    if next = [] then
      rollback none dir false
    else
      let ok ← permission dir P_WRITE
      if !ok then
        rollback none dir false
      else
        let (dir, r) ← findEntry dir next
        match r with
        | some (ebuf, _) => rollback (some ebuf) dir false
        | none =>
          mkdirIn dir next mode
          return true

/-- The loop of `is_empty`: the number of live entries. -/
def countLoop (x : Nat) : (n i : Nat) → (buf : Option Key) → (entry count : Nat) → Code Nat
  | 0, _, buf, _, count => do
    brelse? buf
    return count
  | n + 1, i, buf, entry, count => do
    let (k, entry) ← dentryAt x false i buf entry
    let nr ← dentryNr k entry
    countLoop x n (i + 1) (some k) (entry + 16) (if nr ≠ 0 then count + 1 else count)

/-- `is_empty`. -/
def isEmpty (x : Nat) : Code Bool := do
  let mode ← descGet x .mode
  assert (ISDIR mode)
  let size ← descGet x .size
  let zone0 ← descGet x (.zone 0)
  if size / 16 < 2 ∨ zone0 = 0 then
    return false
  else
    let count ← countLoop x (size / 16) 0 none 0 0
    return count == 2

/-- What `sys_rmdir` does once every test has passed. -/
def rmdirIn (dir inode : Nat) (ebuf : Key) (entry : Nat) : Code Unit := do
  let nlinks ← descGet inode .nlinks
  assert (nlinks = 2)
  inodeTruncate inode
  let ino ← inodeAt inode
  ifree ino.dev ino.nr
  descSet inode .nlinks 0
  inodeDirty inode
  onInode inode fun i => { i with nr := 0 }
  let nlinks ← descGet dir .nlinks
  descSet dir .nlinks (nlinks + 255)
  let now ← time
  descSet dir .mtime now
  inodeDirty dir
  let nlinks ← descGet dir .nlinks
  assert (0 < nlinks)
  setDentryNr ebuf entry 0
  setDirty ebuf

/-- `sys_rmdir`. -/
def sysRmdir (pathname : List UInt8) : Code Bool := do
  match ← named pathname with
  | none => return false
  | some (dir, next) =>
    if next = [] then
      rollback none dir false
    else
      let ok ← permission dir P_WRITE
      if !ok then
        rollback none dir false
      else
        let (dir, r) ← findEntry dir next
        match r with
        | none => rollback none dir false
        | some (ebuf, entry, _) =>
          let d ← inodeAt dir
          let nr ← dentryNr ebuf entry
          let inode ← iget d.dev nr
          let mode ← descGet inode .mode
          let task ← runningTask
          let dmode ← descGet dir .mode
          let uid ← descGet inode .uid
          let d ← inodeAt dir
          let ino ← inodeAt inode
          if inode = dir ∨ !ISDIR mode ∨ (dmode &&& ISVTX ≠ 0 ∧ task.uid ≠ uid) ∨
              d.dev ≠ ino.dev ∨ ino.count > 1 then
            iput inode
            iput dir
            brelse ebuf
            return false
          else
            let empty ← isEmpty inode
            if !empty then
              iput inode
              iput dir
              brelse ebuf
              return false
            else
              rmdirIn dir inode ebuf entry
              iput inode
              iput dir
              brelse ebuf
              return true

/-- What `sys_link` does once the new name is free. -/
def linkIn (dir inode : Nat) (name : List UInt8) : Code Key := do
  let (buf, entry) ← addEntry dir name
  let ino ← inodeAt inode
  setDentryNr buf entry ino.nr
  setDirty buf
  let nlinks ← descGet inode .nlinks
  descSet inode .nlinks (nlinks + 1)
  inodeDirty inode
  return buf

/-- `sys_link`. -/
def sysLink (oldname newname : List UInt8) : Code Bool := do
  match ← namei oldname with
  | none => return false
  | some inode =>
    let mode ← descGet inode .mode
    if ISDIR mode then
      rollback none inode false
    else
      match ← named newname with
      | none => rollback none inode false
      | some (dir, next) =>
        let d ← inodeAt dir
        let ino ← inodeAt inode
        if next = [] ∨ d.dev ≠ ino.dev then
          iput inode
          rollback none dir false
        else
          let ok ← permission dir P_WRITE
          if !ok then
            iput inode
            rollback none dir false
          else
            let (dir, r) ← findEntry dir next
            match r with
            | some (buf, _) =>
              brelse buf
              iput inode
              iput dir
              return false
            | none =>
              let buf ← linkIn dir inode next
              brelse buf
              iput inode
              iput dir
              return true

/-- What `sys_unlink` does once every test has passed. -/
def unlinkIn (inode : Nat) (buf : Key) (entry : Nat) : Code Unit := do
  setDentryNr buf entry 0
  setDirty buf
  let nlinks ← descGet inode .nlinks
  descSet inode .nlinks (nlinks + 255)
  inodeDirty inode
  let nlinks ← descGet inode .nlinks
  if nlinks = 0 then
    inodeTruncate inode
    let ino ← inodeAt inode
    ifree ino.dev ino.nr
  else
    return ()

/-- `sys_unlink`. -/
def sysUnlink (filename : List UInt8) : Code Bool := do
  match ← named filename with
  | none => return false
  | some (dir, next) =>
    if next = [] then
      rollback none dir false
    else
      let ok ← permission dir P_WRITE
      if !ok then
        rollback none dir false
      else
        let (dir, r) ← findEntry dir next
        match r with
        | none => rollback none dir false
        | some (buf, entry, _) =>
          let d ← inodeAt dir
          let nr ← dentryNr buf entry
          let inode ← iget d.dev nr
          let mode ← descGet inode .mode
          let task ← runningTask
          let uid ← descGet inode .uid
          if ISDIR mode ∨ (mode &&& ISVTX ≠ 0 ∧ task.uid ≠ uid) then
            brelse buf
            iput inode
            iput dir
            return false
          else
            unlinkIn inode buf entry
            brelse buf
            iput inode
            iput dir
            return true

/-- `if (ISBLK(mode) || ISCHR(mode)) inode->desc->zone[0] = dev;` -/
def setDevice (inode mode dev : Nat) : Code Unit :=
  if ISBLK mode || ISCHR mode then descSet inode (.zone 0) dev else return ()

/-- What `sys_mknod` does once the name is free. -/
def mknodIn (dir : Nat) (name : List UInt8) (mode dev : Nat) : Code (Key × Nat) := do
  let (buf, entry) ← addEntry dir name
  setDirty buf
  let nr ← nameNewInode dir buf entry
  let d ← inodeAt dir
  let inode ← newInode d.dev nr
  descSet inode .mode mode
  setDevice inode mode dev
  return (buf, inode)

/-- `sys_mknod`. -/
def sysMknod (filename : List UInt8) (mode dev : Nat) : Code Bool := do
  match ← named filename with
  | none => return false
  | some (dir, next) =>
    if next = [] then
      rollback none dir false
    else
      let ok ← permission dir P_WRITE
      if !ok then
        rollback none dir false
      else
        let (dir, r) ← findEntry dir next
        match r with
        | some (buf, _) => rollback (some buf) dir false
        | none =>
          let (buf, inode) ← mknodIn dir next mode dev
          brelse buf
          iput inode
          iput dir
          return true

/-! ## 2. Opening -/

def O_RDONLY : Nat := 0
def O_RDWR : Nat := 2
def O_CREAT : Nat := 0o100
def O_TRUNC : Nat := 0o1000
def O_APPEND : Nat := 0o2000

/-- `if (flag & O_TRUNC) inode_truncate(inode);` -/
def truncateIf (inode flag : Nat) : Code Unit :=
  if flag &&& O_TRUNC ≠ 0 then inodeTruncate inode else return ()

/-- What `inode_open` does under `makeup`: the inode, checked against the flags. -/
def openMakeup (dir : Nat) (buf : Key) (inode flag : Nat) : Code (Option Nat) := do
  let ok ← permission inode (accMode flag)
  let mode ← descGet inode .mode
  if !ok ∨ (ISDIR mode ∧ flag % 4 ≠ O_RDONLY) then
    brelse buf
    iput dir
    iput inode
    return none
  else
    truncateIf inode flag
    brelse buf
    iput dir
    return some inode

/-- What `inode_open` does for a name that does not exist: the entry and the new inode. -/
def openCreate (dir : Nat) (name : List UInt8) (mode : Nat) : Code (Key × Nat) := do
  let (buf, entry) ← addEntry dir name
  let nr ← nameNewInode dir buf entry
  let d ← inodeAt dir
  let inode ← newInode d.dev nr
  let task ← runningTask
  descSet inode .mode ((mode &&& (0o777 &&& (0o777 ^^^ (task.umask &&& 0o777)))) ||| IFREG)
  return (buf, inode)

/-- `inode_open`. -/
def inodeOpen (pathname : List UInt8) (flag mode : Nat) : Code (Option Nat) := do
  match ← named pathname with
  | none => return none
  | some (dir, next) =>
    if next = [] then
      return some dir
    else
      let flag := if flag &&& O_TRUNC ≠ 0 ∧ flag % 4 = O_RDONLY then flag ||| O_RDWR else flag
      let (dir, r) ← findEntry dir next
      match r with
      | some (buf, entry, _) =>
        let d ← inodeAt dir
        let nr ← dentryNr buf entry
        let inode ← iget d.dev nr
        openMakeup dir buf inode flag
      | none =>
        if flag &&& O_CREAT = 0 then
          rollback none dir none
        else
          let ok ← permission dir P_WRITE
          if !ok then
            rollback none dir none
          else
            let (buf, inode) ← openCreate dir next mode
            openMakeup dir buf inode flag

end Yuios
