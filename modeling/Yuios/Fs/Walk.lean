/-
  File:      Yuios/Fs/Walk.lean
  Subject:   THE CALLS THAT ONLY LOOK: path lookup, `find_entry`, `bmap` without `create`,
             `inode_read`.

  They change the state through a few calls only: they take and give back buffers and in-memory
  inodes. `Reading R` says that the calls on buffers obey a relation `R` between the state before
  and after, `Walks R` that those on inodes do as well; then every function that is put together
  from them does.
-/
import Yuios.Fs.File

namespace Yuios

open Lib Prog Code

/-- The calls on buffers obey `R`. -/
structure Reading (R : Kernel → Kernel → Prop) : Prop where
  bread : ∀ dev block, Obeys R (bread dev block)
  bwrite : ∀ k, Obeys R (bwrite k)
  brelse : ∀ k, Obeys R (brelse k)
  hold : ∀ k, Obeys R (onCache (·.addCount k 1))

/-- The calls of a walk obey `R`. -/
structure Walks (R : Kernel → Kernel → Prop) : Prop extends Reading R where
  iget : ∀ dev nr, Obeys R (iget dev nr)
  iput : ∀ x, Obeys R (iput x)
  count : ∀ x, Obeys R (onInode x fun i => { i with count := i.count + 1 })

/-! ## 1. Calls that read -/

section Reads

variable {R : Kernel → Kernel → Prop} [Steady R]

theorem inodeAt_obeys (x : Nat) : Obeys R (inodeAt x) := obeys_reads _

theorem bytesOf_obeys (k : Key) : Obeys R (bytesOf k) := obeys_reads _

theorem runningTask_obeys : Obeys R runningTask := obeys_reads _

theorem dentryNr_obeys (k : Key) (entry : Nat) : Obeys R (dentryNr k entry) :=
  obeys_bind (bytesOf_obeys k) fun _ => obeys_pure _

theorem descGet_obeys (x : Nat) (f : Field) : Obeys R (descGet x f) :=
  obeys_bind (inodeAt_obeys x) fun _ => obeys_bind (bytesOf_obeys _) fun _ => obeys_pure _

theorem superOf_obeys (dev : Int) : Obeys R (superOf dev) :=
  obeys_bind (obeys_reads _) fun _ => obeys_bind (obeys_need _ _) fun _ => obeys_pure _

theorem permission_obeys (x mask : Nat) : Obeys R (permission x mask) := by
  refine obeys_bind (descGet_obeys x _) fun mode => obeys_bind (descGet_obeys x _) fun nlinks => ?_
  refine obeys_ite (fun _ => obeys_pure _) fun _ => ?_
  refine obeys_bind runningTask_obeys fun task => obeys_ite (fun _ => obeys_pure _) fun _ => ?_
  exact obeys_bind (descGet_obeys x _) fun _ => obeys_bind (descGet_obeys x _) fun _ => obeys_pure _

theorem searchable_obeys (x : Nat) : Obeys R (searchable x) :=
  obeys_bind (descGet_obeys x _) fun _ =>
    obeys_ite (fun _ => permission_obeys x _) fun _ => obeys_pure _

end Reads

/-! ## 2. Calls that take and give back buffers -/

section Reading

variable {R : Kernel → Kernel → Prop} [Steady R] (h : Reading R)
include h

theorem Reading.brelse? (buf : Option Key) : Obeys R (brelse? buf) := by
  cases buf with
  | none => exact obeys_pure _
  | some k => exact h.brelse k

omit h in
theorem bmapFill_false_obeys (x : Nat) (buf : Key) (slot : Nat) :
    Obeys R (bmapFill x false buf slot) :=
  obeys_bind (bytesOf_obeys buf) fun _ => obeys_ite (fun c => nomatch c.2) fun _ => obeys_pure _

theorem Reading.bmapSlot (x level : Nat) (buf : Key) (slot : Nat) :
    Obeys R (bmapSlot x false level buf slot) :=
  obeys_mapLabel (obeys_bind (bmapFill_false_obeys x buf slot) fun _ => h.brelse buf)

theorem Reading.bmapReckon (x level : Nat) (buf : Key) (array index block divider : Nat) :
    Obeys R (bmapReckon x false level buf array index block divider) := by
  induction level generalizing buf array index block divider with
  | zero =>
    exact obeys_bind (h.bmapSlot x 0 buf _) fun _ =>
      obeys_bind (bytesOf_obeys buf) fun _ => obeys_pure _
  | succ level ih =>
    refine obeys_bind (h.bmapSlot x _ buf _) fun _ => obeys_bind (bytesOf_obeys buf) fun _ => ?_
    refine obeys_ite (fun _ => obeys_pure _) fun _ => ?_
    exact obeys_bind (inodeAt_obeys x) fun _ => obeys_bind (h.bread _ _) fun _ => ih _ _ _ _ _

theorem Reading.bmap (x block : Nat) : Obeys R (bmap x block false) := by
  refine obeys_bind (obeys_check _ _) fun _ => obeys_bind (inodeAt_obeys x) fun _ =>
    obeys_bind (h.hold _) fun _ => ?_
  refine obeys_ite (fun _ => h.bmapReckon x _ _ _ _ _ _) fun _ => ?_
  refine obeys_ite (fun _ => h.bmapReckon x _ _ _ _ _ _) fun _ => ?_
  exact obeys_bind (obeys_check _ _) fun _ => h.bmapReckon x _ _ _ _ _ _

theorem Reading.dentryAt (dir i : Nat) (buf : Option Key) (entry : Nat) :
    Obeys R (dentryAt dir false i buf entry) := by
  unfold Yuios.dentryAt
  split
  · exact obeys_pure _
  · refine obeys_bind (h.brelse? buf) fun _ => obeys_bind (h.bmap dir _) fun _ =>
      obeys_bind (obeys_check _ _) fun _ => obeys_bind (inodeAt_obeys dir) fun _ => ?_
    exact obeys_bind (h.bread _ _) fun _ => obeys_pure _

theorem Reading.findEntryLoop (dir : Nat) (name : List UInt8) (n i : Nat) (buf : Option Key)
    (entry : Nat) : Obeys R (findEntryLoop dir name n i buf entry) := by
  induction n generalizing i buf entry with
  | zero => exact obeys_bind (h.brelse? buf) fun _ => obeys_pure _
  | succ n ih =>
    refine obeys_bind (h.dentryAt dir i buf entry) fun ⟨k, entry⟩ =>
      obeys_bind (bytesOf_obeys k) fun b => ?_
    split
    · exact obeys_ite (fun _ => obeys_pure _) fun _ => ih _ _ _
    · exact ih _ _ _

theorem Reading.countLoop (x n i : Nat) (buf : Option Key) (entry count : Nat) :
    Obeys R (countLoop x n i buf entry count) := by
  induction n generalizing i buf entry count with
  | zero => exact obeys_bind (h.brelse? buf) fun _ => obeys_pure _
  | succ n ih =>
    exact obeys_bind (h.dentryAt x i buf entry) fun ⟨k, entry⟩ =>
      obeys_bind (dentryNr_obeys k entry) fun nr => ih _ _ _ _

theorem Reading.isEmpty (x : Nat) : Obeys R (isEmpty x) := by
  refine obeys_bind (descGet_obeys x _) fun _ => obeys_bind (obeys_check _ _) fun _ =>
    obeys_bind (descGet_obeys x _) fun _ => obeys_bind (descGet_obeys x _) fun _ => ?_
  exact obeys_ite (fun _ => obeys_pure _) fun _ =>
    obeys_bind (h.countLoop x _ _ _ _ _) fun _ => obeys_pure _

theorem Reading.inodeReadLoop (x fuel left offset done : Nat) (buf : Bytes) :
    Obeys R (inodeReadLoop x fuel left offset done buf) := by
  induction fuel generalizing left offset done buf with
  | zero => exact obeys_pure _
  | succ fuel ih =>
    refine obeys_ite (fun _ => obeys_pure _) fun _ => ?_
    exact obeys_bind (h.bmap x _) fun _ => obeys_bind (obeys_check _ _) fun _ =>
      obeys_bind (inodeAt_obeys x) fun _ => obeys_bind (h.bread _ _) fun bf =>
        obeys_bind (bytesOf_obeys bf) fun _ => obeys_bind (h.brelse bf) fun _ =>
          ih _ _ _ _

theorem Reading.inodeRead (x : Nat) (buf : Bytes) (len offset : Nat) :
    Obeys R (inodeRead x buf len offset) := by
  refine obeys_bind (descGet_obeys x _) fun _ => obeys_bind (obeys_check _ _) fun _ =>
    obeys_bind (descGet_obeys x _) fun _ => ?_
  exact obeys_ite (fun _ => obeys_pure _) fun _ =>
    obeys_bind (h.inodeReadLoop x _ _ _ _ _) fun ⟨_, _⟩ => obeys_pure _

end Reading

/-! ## 3. Calls that take and give back inodes -/

section Table

variable {R : Kernel → Kernel → Prop} [Steady R] (h : Reading R)
  (hi : ∀ x f, Obeys R (onInode x f))
  (hl : ∀ i (f : List Nat → List Nat), Obeys R (onTables fun t =>
    t.setSuper i { t.superTable i with inodeList := f (t.superTable i).inodeList }))

include hi in
theorem putFreeInode_obeys (x : Nat) : Obeys R (putFreeInode x) :=
  obeys_bind (obeys_check _ _) fun _ => obeys_bind (inodeAt_obeys x) fun _ =>
    obeys_bind (obeys_check _ _) fun _ => hi x _

include hi in
theorem putPipeInode_obeys (x : Nat) : Obeys R (putPipeInode x) := by
  refine obeys_bind (hi x _) fun _ => obeys_bind (inodeAt_obeys x) fun _ => ?_
  exact obeys_ite (fun _ => obeys_pure _) fun _ =>
    obeys_bind (hi x _) fun _ => putFreeInode_obeys hi x

include h hi hl in
theorem Reading.iput (x : Nat) : Obeys R (iput x) := by
  refine obeys_bind (inodeAt_obeys x) fun i => obeys_ite (fun _ => putPipeInode_obeys hi x) fun _ => ?_
  refine obeys_bind (h.bwrite _) fun _ => obeys_bind (hi x _) fun _ =>
    obeys_bind (inodeAt_obeys x) fun _ => obeys_ite (fun _ => obeys_pure _) fun _ => ?_
  refine obeys_bind (h.brelse _) fun _ => obeys_bind ?_ fun _ => putFreeInode_obeys hi x
  exact obeys_bind (obeys_reads _) fun _ => obeys_bind (obeys_need _ _) fun i => hl i (·.erase x)

include h hi hl in
theorem Reading.iget (dev : Int) (nr : Nat) : Obeys R (iget dev nr) := by
  have hfind : Obeys R (findInode dev nr) := obeys_bind (superOf_obeys _) fun _ =>
    obeys_bind (obeys_reads _) fun _ => obeys_pure _
  refine obeys_bind hfind fun r => ?_
  cases r with
  | some x =>
    refine obeys_bind (hi x _) fun _ => obeys_bind (inodeAt_obeys x) fun _ => ?_
    refine obeys_ite (fun _ => obeys_pure _) fun _ => obeys_bind (superOf_obeys _) fun _ => ?_
    exact obeys_bind (h.iput hi hl x) fun _ => obeys_bind (obeys_need _ _) fun y =>
      obeys_bind (hi y _) fun _ => obeys_pure _
  | none =>
    refine obeys_bind (superOf_obeys _) fun _ => obeys_bind (obeys_check _ _) fun _ =>
      obeys_bind (obeys_bind (obeys_reads _) fun _ => obeys_need _ _) fun x =>
        obeys_bind (hi x _) fun _ => obeys_bind ?_ fun _ => obeys_bind (h.bread _ _) fun _ =>
          obeys_bind (hi x _) fun _ => obeys_pure _
    exact obeys_bind (obeys_reads _) fun _ => obeys_bind (obeys_need _ _) fun i =>
      obeys_bind (obeys_check _ _) fun _ => hl i (x :: ·)

include h hi hl in
/-- What every change of an in-memory inode and of a super block's list obeys, a walk obeys. -/
theorem Reading.walks : Walks R where
  toReading := h
  iget := h.iget hi hl
  iput := h.iput hi hl
  count x := hi x _

end Table

section Walks

variable {R : Kernel → Kernel → Prop} [Steady R] (h : Walks R)
include h

theorem Walks.rollback {α : Type} (buf : Option Key) (dir : Nat) (ret : α) :
    Obeys R (rollback buf dir ret) :=
  obeys_bind (h.brelse? buf) fun _ => obeys_bind (h.iput dir) fun _ => obeys_pure _

theorem Walks.crossMount (dir : Nat) (name : List UInt8) : Obeys R (crossMount dir name) := by
  refine obeys_bind (inodeAt_obeys dir) fun ino => obeys_ite (fun _ => ?_) fun _ => obeys_pure _
  refine obeys_bind (superOf_obeys _) fun _ => obeys_bind (obeys_need _ _) fun mnt => ?_
  exact obeys_bind (h.count mnt) fun _ => obeys_bind (h.iput dir) fun _ => obeys_pure _

theorem Walks.findEntry (dir : Nat) (name : List UInt8) : Obeys R (findEntry dir name) :=
  obeys_bind (descGet_obeys dir _) fun _ => obeys_bind (obeys_check _ _) fun _ =>
    obeys_bind (h.crossMount dir name) fun dir => obeys_bind (descGet_obeys dir _) fun _ =>
      obeys_bind (h.findEntryLoop dir name _ _ _ _) fun _ => obeys_pure _

theorem Walks.namedLoop (right : List UInt8) (fuel inode : Nat) (left : List UInt8) :
    Obeys R (namedLoop right fuel inode left) := by
  induction fuel generalizing inode left with
  | zero => exact obeys_stop _
  | succ fuel ih =>
    refine obeys_bind (h.findEntry inode left) fun ⟨inode, r⟩ => ?_
    cases r with
    | none => exact obeys_bind (h.iput inode) fun _ => obeys_pure _
    | some e =>
      obtain ⟨k, entry, next⟩ := e
      refine obeys_bind (inodeAt_obeys inode) fun ino => obeys_bind (h.iput inode) fun _ =>
        obeys_bind (dentryNr_obeys k entry) fun nr => obeys_bind (h.iget _ nr) fun inode =>
          obeys_bind (searchable_obeys inode) fun ok => ?_
      refine obeys_ite (fun _ => obeys_ite (fun _ => ?_) fun _ => ih _ _) fun _ => ?_
      · exact obeys_bind (h.brelse k) fun _ => obeys_pure _
      · exact obeys_bind (h.brelse k) fun _ => obeys_bind (h.iput inode) fun _ => obeys_pure _

theorem Walks.named (pathname : List UInt8) : Obeys R (named pathname) := by
  refine obeys_bind runningTask_obeys fun task => ?_
  cases pathname with
  | nil => exact obeys_pure _
  | cons c cs =>
    refine obeys_bind (h.count _) fun _ => ?_
    split
    · exact obeys_pure _
    · split
      · exact obeys_pure _
      · exact h.namedLoop _ _ _ _

theorem Walks.namei (pathname : List UInt8) : Obeys R (namei pathname) := by
  refine obeys_bind (h.named pathname) fun r => ?_
  cases r with
  | none => exact obeys_pure _
  | some r =>
    obtain ⟨dir, next⟩ := r
    refine obeys_ite (fun _ => obeys_pure _) fun _ => ?_
    refine obeys_bind (h.findEntry dir next) fun ⟨dir, r⟩ => ?_
    cases r with
    | none => exact obeys_bind (h.iput dir) fun _ => obeys_pure _
    | some e =>
      obtain ⟨k, entry, _⟩ := e
      exact obeys_bind (inodeAt_obeys dir) fun _ => obeys_bind (dentryNr_obeys k entry) fun _ =>
        obeys_bind (h.iget _ _) fun _ => obeys_bind (h.iput dir) fun _ =>
          obeys_bind (h.brelse k) fun _ => obeys_pure _

end Walks

end Yuios
