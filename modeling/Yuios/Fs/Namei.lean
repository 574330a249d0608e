/-
  File:      Yuios/Fs/Namei.lean
  Subject:   DIRECTORIES AND PATHS: `fs/namei.c`.

  A C string is the list of its bytes before the terminator, and a pointer into one is the rest
  of the list from there. `next` and `right` of `named` point into the same string, so they are
  equal exactly when the rests are. A `dentry_t *` is a buffer and a byte offset in it; a buffer
  pointer that starts out NULL is an option.
-/
import Yuios.Fs.Inode

namespace Yuios

open Lib Code

/-! ## 1. Strings and permissions -/

def SEPARATOR1 : UInt8 := 47
def SEPARATOR2 : UInt8 := 92

/-- `IS_SEPARATOR`. -/
def isSeparator (c : UInt8) : Bool := c == SEPARATOR1 || c == SEPARATOR2

/-- `strrsep`, moved on by one: what follows the last separator, if there is one. -/
def afterLastSep : List UInt8 → Option (List UInt8)
  | [] => none
  | c :: cs =>
    match afterLastSep cs with
    | some right => some right
    | none => if isSeparator c then some cs else none

/-- `strncpy` to byte `dest`, `nr` of the `count` bytes done. -/
def strncpyLoop (dest count : Nat) : (n nr : Nat) → (src : List UInt8) → Bytes → Bytes
  | 0, _, _, b => store b (dest + (count - 1)) 1 0
  | n + 1, nr, src, b =>
    match src with
    | [] => store b (dest + nr) 1 0
    | c :: src => strncpyLoop dest count n (nr + 1) src (store b (dest + nr) 1 c.toNat)

/-- `strncpy`: no padding after the terminator, and the last byte is one when `src` is longer. -/
def strncpy (dest : Nat) (src : List UInt8) (count : Nat) (b : Bytes) : Bytes :=
  strncpyLoop dest count count 0 src b

def P_EXEC : Nat := 1
def P_WRITE : Nat := 2
def P_READ : Nat := 4

/-- `ACC_MODE`: the permissions an access mode asks for. -/
def accMode (flag : Nat) : Nat :=
  match flag % 4 with
  | 0 => 4
  | 1 => 2
  | 2 => 6
  | _ => 0xffff

/-- `permission`. -/
def permission (x : Nat) (mask : Nat) : Code Bool := do
  let mode ← descGet x .mode
  let nlinks ← descGet x .nlinks
  if nlinks = 0 then
    return false
  else
    let task ← runningTask
    if task.uid = 0 then
      return true
    else
      let uid ← descGet x .uid
      let gid ← descGet x .gid
      let mode := if task.uid = uid then mode >>> 6 else if task.gid = gid then mode >>> 3 else mode
      return mode &&& mask &&& 7 == mask

/-- `match_name`: the entry's name is the bytes `b (off + j)`, read as far as the comparison
    goes; the rest of `name` after the component and one separator. -/
def matchName (b : Bytes) : (off : Nat) → (name : List UInt8) → Option (List UInt8)
  | off, [] => if b off = 0 then some [] else none
  | off, c :: cs =>
    if b off = c ∧ c ≠ 0 then matchName b (off + 1) cs
    else if b off ≠ 0 then none
    else if isSeparator c then some cs else none

/-- The bytes of a string constant. -/
def ofString (name : List UInt8) : Bytes := fun i => (name[i]?).getD 0

def DOT : List UInt8 := [46]
def DOTDOT : List UInt8 := [46, 46]

/-! ## 2. Directory entries -/

/-- The head of the loops over a directory's entries: entry `i` when the pointer has run off the
    buffer, through the block map, and otherwise the pointer as it is. -/
def dentryAt (dir : Nat) (create : Bool) (i : Nat) (buf : Option Key) (entry : Nat) :
    Code (Key × Nat) := do
  match if entry < BLOCK_SIZE then buf else none with
  | some k => return (k, entry)
  | none =>
    brelse? buf
    let block ← bmap dir (i / BLOCK_DENTRIES) create
    assert (block ≠ 0)
    let ino ← inodeAt dir
    let k ← bread ino.dev block
    return (k, 0)

/-- `entry->nr`. -/
def dentryNr (k : Key) (entry : Nat) : Code Nat := do
  let b ← bytesOf k
  return fetch b entry 2

/-- `entry->nr = nr`. -/
def setDentryNr (k : Key) (entry nr : Nat) : Code Unit := poke k fun b => store b entry 2 nr

/-- The loop of `find_entry`, `n` entries to go. -/
def findEntryLoop (dir : Nat) (name : List UInt8) :
    (n i : Nat) → (buf : Option Key) → (entry : Nat) → Code (Option (Key × Nat × List UInt8))
  | 0, _, buf, _ => do
    brelse? buf
    return none
  | n + 1, i, buf, entry => do
    let (k, entry) ← dentryAt dir false i buf entry
    let b ← bytesOf k
    match matchName b (entry + 2) name with
    | some next =>
      if fetch b entry 2 ≠ 0 then
        return some (k, entry, next)
      else
        findEntryLoop dir name n (i + 1) (some k) (entry + 16)
    | none => findEntryLoop dir name n (i + 1) (some k) (entry + 16)

/-- The directory `find_entry` searches: from a root, `..` first moves to the covered one. -/
def crossMount (dir : Nat) (name : List UInt8) : Code Nat := do
  let ino ← inodeAt dir
  if (matchName (ofString DOTDOT) 0 name).isSome ∧ ino.nr = 1 then
    let sb ← superOf ino.dev
    let mnt ← Prog.need .fault sb.imount
    onInode mnt fun i => { i with count := i.count + 1 }
    iput dir
    return mnt
  else
    return dir

/-- `find_entry`: the directory searched (the covered one for `..` in a root) and, if there is
    one, the entry's buffer and offset and the rest of the name. -/
def findEntry (dir : Nat) (name : List UInt8) :
    Code (Nat × Option (Key × Nat × List UInt8)) := do
  let mode ← descGet dir .mode
  assert (ISDIR mode)
  let dir ← crossMount dir name
  let size ← descGet dir .size
  let r ← findEntryLoop dir name (size / 16) 0 none 0
  return (dir, r)

/-- `if (i * sizeof(dentry_t) >= dir->desc->size)`: entry `i` becomes part of the directory. -/
def extendDir (dir i : Nat) (k : Key) (entry : Nat) : Code Unit := do
  let size ← descGet dir .size
  if i * 16 ≥ size then
    setDentryNr k entry 0
    descSet dir .size ((i + 1) * 16)
    inodeDirty dir
  else
    return ()

/-- The loop of `add_entry`; `bmap` stops it at the latest where a file can have no more
    blocks. -/
def addEntryLoop (dir : Nat) (name : List UInt8) :
    (fuel i : Nat) → (buf : Option Key) → (entry : Nat) → Code (Key × Nat)
  | 0, _, _, _ => Prog.stop .assertion
  | fuel + 1, i, buf, entry => do
    let (k, entry) ← dentryAt dir true i buf entry
    extendDir dir i k entry
    let nr ← dentryNr k entry
    if nr ≠ 0 then
      addEntryLoop dir name fuel (i + 1) (some k) (entry + 16)
    else
      poke k (strncpy (entry + 2) name NAME_LEN)
      setDirty k
      let now ← time
      descSet dir .mtime now
      inodeDirty dir
      return (k, entry)

/-- `add_entry`: an entry of that name as it is, or else the first free one under the name. -/
def addEntry (dir : Nat) (name : List UInt8) : Code (Key × Nat) := do
  let (dir, r) ← findEntry dir name
  match r with
  | some (k, entry, _) => return (k, entry)
  | none =>
    assert ((name.take NAME_LEN).all fun c => !isSeparator c)
    addEntryLoop dir name (TOTAL_BLOCK * BLOCK_DENTRIES + 1) 0 none 0

/-! ## 3. Paths -/

/-- `ISDIR(inode->desc->mode) && permission(inode, P_EXEC)`. -/
def searchable (inode : Nat) : Code Bool := do
  let mode ← descGet inode .mode
  if ISDIR mode then
    permission inode P_EXEC
  else
    return false

/-- The loop of `named` at `left`. Every round takes a component off the path, so there are at
    most as many rounds as bytes. -/
def namedLoop (right : List UInt8) :
    (fuel : Nat) → (inode : Nat) → (left : List UInt8) → Code (Option (Nat × List UInt8))
  | 0, _, _ => Prog.stop .fault
  | fuel + 1, inode, left => do
    let (inode, r) ← findEntry inode left
    match r with
    | none =>
      iput inode
      return none
    | some (k, entry, next) =>
      let ino ← inodeAt inode
      let dev := ino.dev
      iput inode
      let nr ← dentryNr k entry
      let inode ← iget dev nr
      let ok ← searchable inode
      if ok then
        if right = next then
          brelse k
          return some (inode, next)
        else
          -- the buffer of this round is not released: `buf` is overwritten by the next one
          namedLoop right fuel inode next
      else
        brelse k
        iput inode
        return none

/-- `named`: the directory the last component is to be looked up in, and that component. -/
def named (pathname : List UInt8) : Code (Option (Nat × List UInt8)) := do
  let task ← runningTask
  match pathname with
  | [] => return none
  | c :: cs =>
    let inode := if isSeparator c then task.iroot else task.ipwd
    let left := if isSeparator c then cs else pathname
    onInode inode fun i => { i with count := i.count + 1 }
    match left with
    | [] => return some (inode, left)
    | _ =>
      match afterLastSep left with
      | none => return some (inode, left)
      | some right => namedLoop right (left.length + 1) inode left

/-- `namei`. -/
def namei (pathname : List UInt8) : Code (Option Nat) := do
  match ← named pathname with
  | none => return none
  | some (dir, next) =>
    if next = [] then
      return some dir
    else
      let (dir, r) ← findEntry dir next
      match r with
      | none =>
        iput dir
        return none
      | some (k, entry, _) =>
        let ino ← inodeAt dir
        let nr ← dentryNr k entry
        let inode ← iget ino.dev nr
        iput dir
        brelse k
        return some inode

end Yuios
