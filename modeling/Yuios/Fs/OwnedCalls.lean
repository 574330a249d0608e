/-
  File:      Yuios/Fs/OwnedCalls.lean
  Subject:   THE REFERENCES A CALL HOLDS, from one call of the file system to the next.

  * `Still` -- calls on buffers, block maps and bitmaps do not touch the tables at all.
  * `Owns T₀ kept held s` -- since the tables were `T₀`, the code has come to hold `held`, and
    `kept` are the references it has no hand in.
  * One rule a call: what it holds at its end. A call on names holds what it held before, an
    opening call one inode more.
-/
import Yuios.Fs.Owned
import Yuios.Kernel.Program

namespace Yuios

open Lib Prog Code

/-! ## 1. Calls that do not touch the tables -/

/-- The tables are as they were. -/
def Still (s t : Kernel) : Prop := t.tab = s.tab

instance : Steady Still where
  refl _ := rfl
  trans h h' := Eq.trans h' h

section Still

theorem still_of_same {α : Type} {p : Code α} (h : Obeys Same p) : Obeys Still p :=
  fun s a t hr => (h s a t hr).tab

theorem poke_still (k : Key) (f : Bytes → Bytes) : Obeys Still (poke k f) := obeys_modify fun _ => rfl

theorem setDirty_still (k : Key) : Obeys Still (setDirty k) := obeys_modify fun _ => rfl

theorem bread_still (dev : Int) (block : Nat) : Obeys Still (bread dev block) :=
  still_of_same (bread_same dev block)

theorem bwrite_still (k : Key) : Obeys Still (bwrite k) := still_of_same (bwrite_same k)

theorem brelse_still (k : Key) : Obeys Still (brelse k) := still_of_same (brelse_same k)

theorem brelse?_still (k : Option Key) : Obeys Still (brelse? k) := still_of_same (brelse?_same k)

theorem inodeDirty_still (x : Nat) : Obeys Still (inodeDirty x) := still_of_same (inodeDirty_same x)

theorem descSet_still (x : Nat) (f : Field) (v : Nat) : Obeys Still (descSet x f v) :=
  obeys_bind (inodeAt_obeys x) fun _ => poke_still _ _

theorem setDentryNr_still (k : Key) (entry nr : Nat) : Obeys Still (setDentryNr k entry nr) :=
  poke_still _ _

theorem setDentry_still (k : Key) (entry : Nat) (name : List UInt8) (nr : Nat) :
    Obeys Still (setDentry k entry name nr) :=
  obeys_bind (poke_still _ _) fun _ => setDentryNr_still _ _ _

theorem time_still : Obeys Still time :=
  obeys_bind (obeys_reads _) fun _ => obeys_bind (obeys_modify fun _ => rfl) fun _ => obeys_pure _

theorem lift_obeys {R : Kernel → Kernel → Prop} [Steady R] {α : Type} (x : Except Stop α) :
    Obeys R (lift x) := by
  cases x with
  | ok a => exact obeys_pure a
  | error e => exact obeys_stop e

/-- The bitmaps' blocks are written, the tables are not. -/
theorem allocLoop_still (maps : Nat → Option Key) (length : Nat) (offset : Nat → Nat)
    (limit n i : Nat) (buf : Option Key) :
    Obeys Still (allocLoop maps length offset limit n i buf) := by
  induction n generalizing i buf with
  | zero => exact obeys_pure _
  | succ n ih =>
    refine obeys_bind (obeys_need _ _) fun buf => obeys_bind ?_ fun map =>
      obeys_bind (lift_obeys _) fun r => ?_
    · exact obeys_bind (bytesOf_obeys buf) fun _ => obeys_pure _
    · cases r with
      | none => exact ih _ _
      | some r =>
        exact obeys_bind (poke_still _ _) fun _ => obeys_bind (obeys_check _ _) fun _ =>
          obeys_bind (setDirty_still _) fun _ => obeys_pure _

theorem freeLoop_still (maps : Nat → Option Key) (length : Nat) (offset : Nat → Nat)
    (idx n i : Nat) : Obeys Still (freeLoop maps length offset idx n i) := by
  induction n generalizing i with
  | zero => exact obeys_stop _
  | succ n ih =>
    refine obeys_ite (fun _ => ih _) fun _ => obeys_bind (obeys_need _ _) fun buf =>
      obeys_bind (obeys_bind (bytesOf_obeys buf) fun _ => obeys_pure _) fun map => ?_
    exact obeys_bind (lift_obeys _) fun _ => obeys_bind (obeys_check _ _) fun _ =>
      obeys_bind (lift_obeys _) fun _ => obeys_bind (poke_still _ _) fun _ =>
        obeys_bind (setDirty_still _) fun _ => obeys_pure _

theorem balloc_still (dev : Int) : Obeys Still (balloc dev) :=
  obeys_bind (superOf_obeys _) fun _ => obeys_bind (allocLoop_still _ _ _ _ _ _ _) fun _ =>
    obeys_bind (obeys_need _ _) fun _ => obeys_bind (obeys_mapLabel (bwrite_still _)) fun _ =>
      obeys_pure _

theorem ialloc_still (dev : Int) : Obeys Still (ialloc dev) :=
  obeys_bind (superOf_obeys _) fun _ => obeys_bind (allocLoop_still _ _ _ _ _ _ _) fun _ =>
    obeys_bind (obeys_need _ _) fun _ => obeys_bind (obeys_mapLabel (bwrite_still _)) fun _ =>
      obeys_pure _

theorem bfree_still (dev : Int) (idx : Nat) : Obeys Still (bfree dev idx) :=
  obeys_bind (superOf_obeys _) fun _ => obeys_bind (obeys_check _ _) fun _ =>
    obeys_bind (freeLoop_still _ _ _ _ _ _) fun _ => obeys_mapLabel (bwrite_still _)

theorem ifree_still (dev : Int) (idx : Nat) : Obeys Still (ifree dev idx) :=
  obeys_bind (superOf_obeys _) fun _ => obeys_bind (obeys_check _ _) fun _ =>
    obeys_bind (freeLoop_still _ _ _ _ _ _) fun _ => obeys_mapLabel (bwrite_still _)

theorem bmapSlot_still (x : Nat) (create : Bool) (level : Nat) (buf : Key) (slot : Nat) :
    Obeys Still (bmapSlot x create level buf slot) := by
  refine obeys_mapLabel (obeys_bind (obeys_bind (bytesOf_obeys buf) fun _ => ?_) fun _ =>
    brelse_still buf)
  refine obeys_ite (fun _ => ?_) fun _ => obeys_pure _
  exact obeys_bind (inodeAt_obeys x) fun _ => obeys_bind (balloc_still _) fun _ =>
    obeys_bind (poke_still _ _) fun _ => setDirty_still _

theorem bmapReckon_still (x : Nat) (create : Bool) (level : Nat) (buf : Key)
    (array index block divider : Nat) :
    Obeys Still (bmapReckon x create level buf array index block divider) := by
  induction level generalizing buf array index block divider with
  | zero =>
    exact obeys_bind (bmapSlot_still x create 0 buf _) fun _ =>
      obeys_bind (bytesOf_obeys buf) fun _ => obeys_pure _
  | succ level ih =>
    refine obeys_bind (bmapSlot_still x create _ buf _) fun _ =>
      obeys_bind (bytesOf_obeys buf) fun _ => ?_
    refine obeys_ite (fun _ => obeys_pure _) fun _ => ?_
    exact obeys_bind (inodeAt_obeys x) fun _ => obeys_bind (bread_still _ _) fun _ => ih _ _ _ _ _

theorem bmap_still (x block : Nat) (create : Bool) : Obeys Still (bmap x block create) := by
  refine obeys_bind (obeys_check _ _) fun _ => obeys_bind (inodeAt_obeys x) fun _ =>
    obeys_bind (still_of_same (hold_same _ _)) fun _ => ?_
  refine obeys_ite (fun _ => bmapReckon_still x create _ _ _ _ _ _) fun _ => ?_
  refine obeys_ite (fun _ => bmapReckon_still x create _ _ _ _ _ _) fun _ => ?_
  exact obeys_bind (obeys_check _ _) fun _ => bmapReckon_still x create _ _ _ _ _ _

theorem dentryAt_still (dir : Nat) (create : Bool) (i : Nat) (buf : Option Key) (entry : Nat) :
    Obeys Still (dentryAt dir create i buf entry) := by
  unfold dentryAt
  split
  · exact obeys_pure _
  · exact obeys_bind (brelse?_still buf) fun _ => obeys_bind (bmap_still dir _ create) fun _ =>
      obeys_bind (obeys_check _ _) fun _ => obeys_bind (inodeAt_obeys dir) fun _ =>
        obeys_bind (bread_still _ _) fun _ => obeys_pure _

/-- What only reads blocks does not touch the tables either. -/
theorem reading_still : Reading Still where
  bread := bread_still
  bwrite := bwrite_still
  brelse := brelse_still
  hold k := still_of_same (hold_same k 1)

theorem addEntryLoop_still (dir : Nat) (name : List UInt8) (fuel i : Nat) (buf : Option Key)
    (entry : Nat) : Obeys Still (addEntryLoop dir name fuel i buf entry) := by
  induction fuel generalizing i buf entry with
  | zero => exact obeys_stop _
  | succ fuel ih =>
    refine obeys_bind (dentryAt_still dir true i buf entry) fun ⟨k, entry⟩ =>
      obeys_bind ?_ fun _ => obeys_bind (dentryNr_obeys k entry) fun nr => ?_
    · refine obeys_bind (descGet_obeys dir _) fun _ => obeys_ite (fun _ => ?_) fun _ => obeys_pure _
      exact obeys_bind (setDentryNr_still _ _ _) fun _ => obeys_bind (descSet_still _ _ _) fun _ =>
        inodeDirty_still _
    · refine obeys_ite (fun _ => ih _ _ _) fun _ => ?_
      exact obeys_bind (poke_still _ _) fun _ => obeys_bind (setDirty_still _) fun _ =>
        obeys_bind time_still fun _ => obeys_bind (descSet_still _ _ _) fun _ =>
          obeys_bind (inodeDirty_still _) fun _ => obeys_pure _

theorem inodeBfree_still (dev : Int) (level : Nat) (buf : Key) (slot : Nat) :
    Obeys Still (inodeBfree dev level buf slot) := by
  induction level generalizing buf slot with
  | zero =>
    exact obeys_bind (bytesOf_obeys buf) fun _ => obeys_ite (fun _ => obeys_pure _) fun _ =>
      bfree_still _ _
  | succ level ih =>
    refine obeys_bind (bytesOf_obeys buf) fun _ => obeys_ite (fun _ => obeys_pure _) fun _ => ?_
    exact obeys_bind (bread_still _ _) fun sub => obeys_bind (obeys_forM _ fun i => ih sub _)
      fun _ => obeys_bind (brelse_still sub) fun _ => obeys_bind (bytesOf_obeys buf) fun _ =>
        bfree_still _ _

theorem truncateZone_still (x level i : Nat) : Obeys Still (truncateZone x level i) :=
  obeys_bind (inodeAt_obeys x) fun _ => obeys_bind (inodeBfree_still _ _ _ _) fun _ =>
    descSet_still _ _ _

theorem inodeTruncate_still (x : Nat) : Obeys Still (inodeTruncate x) := by
  refine obeys_bind (descGet_obeys x _) fun _ => obeys_ite (fun _ => obeys_pure _) fun _ => ?_
  exact obeys_bind (obeys_forM _ fun i => truncateZone_still x 0 i) fun _ =>
    obeys_bind (truncateZone_still _ _ _) fun _ => obeys_bind (truncateZone_still _ _ _) fun _ =>
      obeys_bind (descSet_still _ _ _) fun _ => obeys_bind (inodeDirty_still _) fun _ =>
        obeys_bind time_still fun _ => obeys_bind (descSet_still _ _ _) fun _ =>
          obeys_bind (inodeAt_obeys x) fun _ => bwrite_still _

theorem lift_still {α : Type} (x : Except Stop α) : Obeys Still (Code.lift x) := fun _ _ _ h => by
  obtain ⟨-, rfl⟩ := runs_lift.mp h
  rfl

theorem readTo_still (inode : Nat) (im : Execve.Image) (addr len offset : Nat) :
    Obeys Still (Execve.readTo inode im addr len offset) :=
  obeys_bind (reading_still.inodeRead inode _ len offset) fun ⟨_, _⟩ =>
    obeys_bind (lift_still _) fun _ => obeys_pure _

theorem loadSegment_still (inode : Nat) (im : Execve.Image) (ptr : Nat) :
    Obeys Still (Execve.loadSegment inode im ptr) :=
  obeys_bind (lift_still _) fun _ => obeys_bind (lift_still _) fun ⟨_, _⟩ =>
    obeys_bind (readTo_still _ _ _ _ _) fun ⟨_, _⟩ => obeys_bind (lift_still _) fun _ =>
      obeys_bind (lift_still _) fun ⟨_, _⟩ => obeys_pure _

theorem loadSegments_still (inode fuel : Nat) (im : Execve.Image) (i ptr : Nat) :
    Obeys Still (Execve.loadSegments inode fuel im i ptr) := by
  induction fuel generalizing im i ptr with
  | zero => exact obeys_stop _
  | succ fuel ih =>
    refine obeys_ite (fun _ => obeys_pure _) fun _ => obeys_bind (lift_still _) fun im => ?_
    refine obeys_ite (fun _ => ih _ _ _) fun _ => ?_
    exact obeys_bind (loadSegment_still inode im ptr) fun _ => ih _ _ _

theorem loadElf_still (inode : Nat) (im : Execve.Image) : Obeys Still (Execve.loadElf inode im) := by
  refine obeys_bind (lift_still _) fun _ => obeys_bind (readTo_still _ _ _ _ _) fun ⟨n, im⟩ =>
    obeys_bind (obeys_check _ _) fun _ => obeys_ite (fun _ => obeys_pure _) fun _ => ?_
  exact obeys_bind (readTo_still _ _ _ _ _) fun ⟨_, im⟩ =>
    obeys_bind (loadSegments_still inode _ im _ _) fun _ => obeys_pure _

/-- A program file is read, and nothing else. -/
theorem loadProgram_still (inode : Nat) (im : Execve.Image) : Obeys Still (Execve.loadProgram inode im) := by
  refine obeys_bind (loadElf_still inode im) fun ⟨r, im⟩ => ?_
  cases r with
  | none => exact obeys_pure _
  | some entry => exact obeys_bind (lift_still _) fun ⟨_, _, _⟩ => obeys_pure _

end Still

/-! ## 2. What the code holds -/

/-- **What the code holds**, since the tables were `T₀`: `held`, besides the references `kept`. -/
structure Owns (T₀ : Tables) (kept held : List Nat) (s : Kernel) : Prop where
  owned : Owned s.tab (held ++ kept)
  around : T₀.Around s.tab
  core : T₀.Core s.tab kept
  plain : ∀ x ∈ held, (s.tab.inodeTable x).pipe = false

section Owns

variable {T₀ : Tables} {kept held held' : List Nat} {s t : Kernel} {x : Nat}

theorem Owns.perm (h : Owns T₀ kept held s) (hp : held.Perm held') : Owns T₀ kept held' s :=
  ⟨h.owned.perm (hp.append_right kept), h.around, h.core, fun x hx => h.plain x (hp.mem_iff.mpr hx)⟩

theorem Owns.congr (h : Owns T₀ kept held s) (ht : t.tab = s.tab) : Owns T₀ kept held t :=
  ⟨ht ▸ h.owned, ht ▸ h.around, ht ▸ h.core, ht ▸ h.plain⟩

/-- What does not touch the tables keeps what is held. -/
theorem keeps_still {α : Type} {p : Code α} (h : Obeys Still p) :
    Leads (Owns T₀ kept held) p fun _ => Owns T₀ kept held :=
  fun s a t hs hr => hs.congr (h s a t hr)

theorem Owns.live (h : Owns T₀ kept held s) (hx : x ∈ held) : (s.tab.inodeTable x).Live :=
  (h.owned.live x).mpr (List.mem_append_left _ hx)

/-- What is mounted on is kept. -/
theorem Owns.bare (h : Owns T₀ kept held s) (hr : Rooted T₀ kept) (hx : x ∉ kept) :
    (s.tab.inodeTable x).mount = 0 := by
  rw [h.around.mount x]
  exact not_not.mp fun hm => hx (hr.covered x hm)

/-- The roots of what is mounted are kept. -/
theorem Owns.roots (h : Owns T₀ kept held s) (hr : Rooted T₀ kept) {i y : Nat}
    (hi : (s.tab.superTable i).dev ≠ devEOF)
    (hy : (s.tab.superTable i).iroot = some y ∨ (s.tab.superTable i).imount = some y) :
    y ∈ kept ∧ (s.tab.inodeTable y).pipe = false := by
  rw [h.around.super i] at hi hy
  obtain ⟨hk, hp⟩ := hr.roots i hi y hy
  obtain ⟨n, hn⟩ := h.core y hk
  exact ⟨hk, by rw [hn]; exact hp⟩

variable (hr : Rooted T₀ kept)
include hr

theorem owns_iput (x : Nat) :
    Leads (Owns T₀ kept (x :: held)) (iput x) fun _ => Owns T₀ kept held := by
  intro s u t hs h
  have hput := iput_putAway h
  obtain ⟨ho, hcore⟩ := hput.owned hs.owned fun hx =>
    hs.bare hr fun hk => hx (List.mem_append_right _ hk)
  refine ⟨ho, hs.around.trans hput.around, hs.core.trans fun y hy =>
    hcore y (List.mem_append_right _ hy), fun y hy => ?_⟩
  obtain ⟨n, hn⟩ := hcore y (List.mem_append_left _ hy)
  rw [hn]
  exact hs.plain y (List.mem_cons_of_mem _ hy)

theorem owns_iput? (x : Option Nat) :
    Leads (Owns T₀ kept (x.toList ++ held)) (iput? x) fun _ => Owns T₀ kept held := by
  cases x with
  | none => exact keeps_pure _
  | some x => exact owns_iput hr x

omit hr in
/-- A reference is taken to an inode in use. -/
theorem owns_count (x : Nat) :
    Leads (fun s => Owns T₀ kept held s ∧ x ∈ kept ∧ (s.tab.inodeTable x).pipe = false)
      (onInode x fun i => { i with count := i.count + 1 }) fun _ => Owns T₀ kept (x :: held) := by
  intro s u t ⟨hs, hx, hp⟩ h
  rw [runs_onInode h]
  have hcore : ∀ l, s.tab.Core (s.tab.setInode x
      { s.tab.inodeTable x with count := (s.tab.inodeTable x).count + 1 }) l :=
    fun l => Tables.core_setInode (.inr ⟨_, rfl⟩)
  refine ⟨hs.owned.take (List.mem_append_right _ hx),
    hs.around.trans (Tables.around_setInode rfl), hs.core.trans (hcore _), fun y hy => ?_⟩
  obtain ⟨n, hn⟩ := hcore [y] y List.mem_cons_self
  show ((s.tab.setInode x _).inodeTable y).pipe = false
  rw [hn]
  obtain rfl | hy := List.mem_cons.mp hy
  · exact hp
  · exact hs.plain y hy

theorem owns_iget {dev : Int} (hdev : dev ≠ devEOF) (nr : Nat) :
    Leads (Owns T₀ kept held) (iget dev nr) fun y => Owns T₀ kept (y :: held) := by
  intro s y t hs h
  obtain ⟨hgot, -⟩ := iget_got (fun i x hx => hs.owned.count_ne.mpr (hs.owned.listed hx)) h
  obtain ⟨ho, hcore, hp⟩ := hgot.owned hs.owned (fun i hi y hy => by
    obtain ⟨hk, hp⟩ := hs.roots hr hi (.inl hy)
    exact ⟨List.mem_append_right _ hk, hp⟩) hdev
  refine ⟨ho, hs.around.trans hgot.around, hs.core.trans fun y hy =>
    hcore y (List.mem_append_right _ hy), fun z hz => ?_⟩
  obtain rfl | hz := List.mem_cons.mp hz
  · exact hp
  · obtain ⟨n, hn⟩ := hcore z (List.mem_append_left _ hz)
    rw [hn]
    exact hs.plain z hz

/-- Once `..` has moved to the covered directory, it stays there. -/
theorem owns_crossMount (dir : Nat) (name : List UInt8) :
    Leads (Owns T₀ kept (dir :: held)) (crossMount dir name) fun d t =>
      Owns T₀ kept (d :: held) t ∧ t.tab.searched d name = d := by
  intro s d t hs h
  obtain ⟨ino, s₁, ⟨rfl, rfl⟩, h⟩ := runs_bind.mp h
  obtain ⟨hc, h⟩ | ⟨hc, rfl, rfl⟩ := runs_ite.mp h
  · obtain ⟨sb, s₁, h₁, h⟩ := runs_bind.mp h
    obtain ⟨⟨i, hi, rfl⟩, rfl⟩ := runs_superOf.mp h₁
    obtain ⟨mnt, s₁, h₁, h⟩ := runs_bind.mp h
    rw [runs_need] at h₁
    obtain ⟨hmnt, rfl⟩ := h₁
    obtain ⟨_, s₂, h₂, h⟩ := runs_bind.mp h
    obtain ⟨_, s₃, h₃, rfl, rfl⟩ := runs_bind.mp h
    have hi' : (s.tab.superTable i).dev ≠ devEOF :=
      getSuper_dev hi ▸ hs.live List.mem_cons_self
    obtain ⟨hk, hp⟩ := hs.roots hr hi' (.inr hmnt)
    have hs₂ := owns_count mnt _ _ _ ⟨hs, hk, hp⟩ h₂
    have hs₃ := owns_iput hr dir _ _ _ (hs₂.perm (.swap dir mnt held)) h₃
    refine ⟨hs₃, ?_⟩
    unfold Tables.searched
    split
    · rename_i hc'
      obtain ⟨n, hn⟩ := hs₃.core mnt hk
      rw [hn] at hc' ⊢
      have hsup := hs.around.super i
      rw [hsup] at hi' hmnt
      obtain ⟨j, hj, hm⟩ := hr.covers i hi' mnt hmnt hc'.2
      simp only [hs₃.around.getSuper, hj, Option.bind_some]
      rw [hs₃.around.super j]
      simp [hm]
    · rfl
  · exact ⟨hs, if_neg hc⟩

theorem owns_findEntry (dir : Nat) (name : List UInt8) :
    Leads (Owns T₀ kept (dir :: held)) (findEntry dir name) fun r t =>
      Owns T₀ kept (r.1 :: held) t ∧ t.tab.searched r.1 name = r.1 := by
  refine triple_bind (keeps_of_eq (descGet_obeys dir _)) fun _ =>
    triple_bind (keeps_check _ _) fun _ => triple_bind (owns_crossMount hr dir name) fun d => ?_
  refine triple_bind (keeps_of_eq (descGet_obeys d _)) fun n s r t ⟨hs, hd⟩ h => ?_
  obtain ⟨e, s₁, h₁, rfl, rfl⟩ := runs_bind.mp h
  have htab := reading_still.findEntryLoop d name _ _ _ _ _ _ _ h₁
  exact ⟨hs.congr htab, by rw [htab]; exact hd⟩

theorem owns_namedLoop (right : List UInt8) (fuel inode : Nat) (left : List UInt8) :
    Leads (Owns T₀ kept (inode :: held)) (namedLoop right fuel inode left) fun r =>
      Owns T₀ kept ((r.map (·.1)).toList ++ held) := by
  induction fuel generalizing inode left with
  | zero => exact triple_stop _
  | succ fuel ih =>
    refine triple_bind (owns_findEntry hr inode left) fun ⟨inode, r⟩ => ?_
    refine triple_pre (P := Owns T₀ kept (inode :: held)) ?_ fun _ h => h.1
    cases r with
    | none => exact triple_bind (owns_iput hr inode) fun _ => triple_pure fun _ h => h
    | some e =>
      obtain ⟨k, entry, next⟩ := e
      refine triple_bind (triple_reads _) fun ino => ?_
      by_cases hdev : ino.dev = devEOF
      · intro s r t ⟨hs, hino⟩
        exact absurd (hino ▸ hdev) (hs.live List.mem_cons_self)
      refine triple_bind (triple_pre (owns_iput hr inode) fun _ h => h.1) fun _ =>
        triple_bind (keeps_of_eq (dentryNr_obeys k entry)) fun nr =>
          triple_bind (owns_iget hr hdev nr) fun inode =>
            triple_bind (keeps_of_eq (searchable_obeys inode)) fun ok => ?_
      refine triple_ite (fun _ => triple_ite (fun _ => ?_) fun _ => ih _ _) fun _ => ?_
      · exact triple_bind (keeps_still (brelse_still k)) fun _ => triple_pure fun _ h => h
      · exact triple_bind (keeps_still (brelse_still k)) fun _ =>
          triple_bind (owns_iput hr inode) fun _ => triple_pure fun _ h => h

/-- The running task's directories are among the references `kept`. -/
def Tables.Starts (T : Tables) (kept : List Nat) : Prop :=
  ∀ x, x = (T.task T.running).ipwd ∨ x = (T.task T.running).iroot →
    x ∈ kept ∧ (T.inodeTable x).pipe = false

variable (hstart : T₀.Starts kept)
include hstart

theorem owns_named (pathname : List UInt8) :
    Leads (Owns T₀ kept held) (named pathname) fun r =>
      Owns T₀ kept ((r.map (·.1)).toList ++ held) := by
  intro s r t hs h
  obtain ⟨task, s₁, h₁, h⟩ := runs_bind.mp h
  rw [runs_runningTask] at h₁
  obtain ⟨rfl, rfl⟩ := h₁
  cases pathname with
  | nil =>
    obtain ⟨rfl, rfl⟩ := h
    exact hs
  | cons c cs =>
    obtain ⟨_, s₁, h₁, h⟩ := runs_bind.mp h
    have hx := hstart (if isSeparator c then (s.tab.task s.tab.running).iroot else
      (s.tab.task s.tab.running).ipwd) (by rw [hs.around.task, hs.around.running]; split <;> simp)
    generalize (if isSeparator c then (s.tab.task s.tab.running).iroot else
        (s.tab.task s.tab.running).ipwd) = start at *
    obtain ⟨n, hn⟩ := hs.core start hx.1
    have hs₁ := owns_count start _ _ _ ⟨hs, hx.1, by rw [hn]; exact hx.2⟩ h₁
    split at h
    · obtain ⟨rfl, rfl⟩ := h
      exact hs₁
    · split at h
      · obtain ⟨rfl, rfl⟩ := h
        exact hs₁
      · exact owns_namedLoop hr _ _ start _ _ _ _ hs₁ h

theorem owns_namei (pathname : List UInt8) :
    Leads (Owns T₀ kept held) (namei pathname) fun r => Owns T₀ kept (r.toList ++ held) := by
  refine triple_bind (owns_named hr hstart pathname) fun d => ?_
  cases d with
  | none => exact triple_pure fun _ h => h
  | some d =>
    obtain ⟨dir, next⟩ := d
    refine triple_ite (fun _ => triple_pure fun _ h => h) fun _ => ?_
    refine triple_bind (owns_findEntry hr dir next) fun ⟨dir, r⟩ => ?_
    refine triple_pre (P := Owns T₀ kept (dir :: held)) ?_ fun _ h => h.1
    cases r with
    | none => exact triple_bind (owns_iput hr dir) fun _ => triple_pure fun _ h => h
    | some e =>
      obtain ⟨k, entry, _⟩ := e
      refine triple_bind (triple_reads _) fun ino => ?_
      by_cases hdev : ino.dev = devEOF
      · intro s r t ⟨hs, hino⟩
        exact absurd (hino ▸ hdev) (hs.live List.mem_cons_self)
      refine triple_bind (triple_pre (keeps_of_eq (dentryNr_obeys k entry)) fun _ h => h.1)
        fun nr => triple_bind (owns_iget hr hdev nr) fun inode => ?_
      refine triple_bind (triple_pre (owns_iput hr dir) fun _ h => h.perm (.swap _ _ _)) fun _ => ?_
      exact triple_bind (keeps_still (brelse_still k)) fun _ => triple_pure fun _ h => h

end Owns

/-! ## 3. The calls on names -/

/-- The directory `find_entry` searches is known before it begins. -/
theorem findEntry_searched {s t : Kernel} {dir : Nat} {name : List UInt8}
    {r : Nat × Option (Key × Nat × List UInt8)} (h : Ends (findEntry dir name) s r t) :
    r.1 = s.tab.searched dir name := by
  obtain ⟨mode, s₁, h₁, h⟩ := runs_bind.mp h
  rw [runs_descGet] at h₁
  obtain ⟨-, rfl⟩ := h₁
  obtain ⟨_, s₁, h₁, h⟩ := runs_bind.mp h
  rw [runs_assert] at h₁
  obtain ⟨-, rfl⟩ := h₁
  obtain ⟨d, s₁, h₁, h⟩ := runs_bind.mp h
  obtain ⟨size, s₂, -, h⟩ := runs_bind.mp h
  obtain ⟨e, s₃, -, rfl, -⟩ := runs_bind.mp h
  obtain ⟨ino, s₂, ⟨rfl, rfl⟩, h₁⟩ := runs_bind.mp h₁
  obtain ⟨hc, h₁⟩ | ⟨hc, rfl, -⟩ := runs_ite.mp h₁
  · obtain ⟨sb, s₂, h₂, h₁⟩ := runs_bind.mp h₁
    obtain ⟨⟨i, hi, rfl⟩, rfl⟩ := runs_superOf.mp h₂
    obtain ⟨mnt, s₂, h₂, h₁⟩ := runs_bind.mp h₁
    rw [runs_need] at h₂
    obtain ⟨_, s₃, -, h₁⟩ := runs_bind.mp h₁
    obtain ⟨_, s₄, -, rfl, -⟩ := runs_bind.mp h₁
    have hi : s.tab.getSuper (s.tab.inodeTable dir).dev = some i := hi
    have hm : (s.tab.superTable i).imount = some mnt := h₂.1
    rw [Tables.searched, if_pos hc, hi, Option.bind_some, hm]
    rfl
  · exact (if_neg hc).symm

theorem copyStat_obeys (inode : Nat) : Obeys Eq (copyStat inode) :=
  obeys_bind (inodeAt_obeys _) fun _ => obeys_bind (descGet_obeys _ _) fun _ =>
    obeys_bind (descGet_obeys _ _) fun _ => obeys_bind (descGet_obeys _ _) fun _ =>
      obeys_bind (descGet_obeys _ _) fun _ => obeys_bind (descGet_obeys _ _) fun _ =>
        obeys_bind (descGet_obeys _ _) fun _ => obeys_bind (descGet_obeys _ _) fun _ => obeys_pure _

theorem nameNewInode_still (dir : Nat) (k : Key) (entry : Nat) :
    Obeys Still (nameNewInode dir k entry) :=
  obeys_bind (inodeAt_obeys dir) fun _ => obeys_bind (obeys_mapLabel (ialloc_still _)) fun _ =>
    obeys_bind (setDentryNr_still _ _ _) fun _ => dentryNr_obeys _ _

theorem unlinkIn_still (inode : Nat) (buf : Key) (entry : Nat) :
    Obeys Still (unlinkIn inode buf entry) := by
  refine obeys_bind (setDentryNr_still _ _ _) fun _ => obeys_bind (setDirty_still _) fun _ =>
    obeys_bind (descGet_obeys inode _) fun _ => obeys_bind (descSet_still _ _ _) fun _ =>
      obeys_bind (inodeDirty_still _) fun _ => obeys_bind (descGet_obeys inode _) fun _ => ?_
  exact obeys_ite (fun _ => obeys_bind (inodeTruncate_still _) fun _ =>
    obeys_bind (inodeAt_obeys _) fun _ => ifree_still _ _) fun _ => obeys_pure _

section Names

variable {T₀ : Tables} {kept held : List Nat} {s t : Kernel}

/-- The inode of a directory that is held is on a device. -/
theorem owns_inodeAt {dir : Nat} (hd : dir ∈ held) :
    Leads (Owns T₀ kept held) (inodeAt dir) fun i s => Owns T₀ kept held s ∧ i.dev ≠ devEOF := by
  rintro s i t hs ⟨rfl, rfl⟩
  exact ⟨hs, hs.live hd⟩

variable (hr : Rooted T₀ kept)
include hr

/-- The entry goes into the directory that `find_entry` has searched. -/
theorem owns_addEntry (dir : Nat) (name : List UInt8) :
    Leads (fun s => Owns T₀ kept (dir :: held) s ∧ s.tab.searched dir name = dir)
      (addEntry dir name) fun _ => Owns T₀ kept (dir :: held) := by
  intro s e t ⟨hs, hd⟩ h
  obtain ⟨⟨d, r⟩, s₁, h₁, h⟩ := runs_bind.mp h
  obtain ⟨hs₁, -⟩ := owns_findEntry hr dir name _ _ _ hs h₁
  have hdir : d = dir := (findEntry_searched h₁).trans hd
  rw [hdir] at hs₁ h
  cases r with
  | some r =>
    obtain ⟨-, rfl⟩ := h
    exact hs₁
  | none =>
    obtain ⟨_, s₂, h₂, h⟩ := runs_bind.mp h
    rw [runs_assert] at h₂
    obtain ⟨-, rfl⟩ := h₂
    exact hs₁.congr (addEntryLoop_still dir name _ _ _ _ _ _ _ h)

theorem owns_newInode (dev : Int) (nr : Nat) :
    Leads (fun s => Owns T₀ kept held s ∧ dev ≠ devEOF) (newInode dev nr) fun x =>
      Owns T₀ kept (x :: held) := by
  refine triple_bind (keeps_of_eq runningTask_obeys) fun task =>
    triple_bind (Q := fun x => Owns T₀ kept (x :: held)) ?_ fun x => ?_
  · exact fun s x t ⟨hs, hdev⟩ h => owns_iget hr hdev nr _ _ _ hs h
  · exact triple_bind (keeps_still (inodeDirty_still x)) fun _ =>
      triple_bind (keeps_still (descSet_still _ _ _)) fun _ =>
        triple_bind (keeps_still (descSet_still _ _ _)) fun _ =>
          triple_bind (keeps_still (descSet_still _ _ _)) fun _ =>
            triple_bind (keeps_still time_still) fun _ =>
              triple_bind (keeps_still (descSet_still _ _ _)) fun _ =>
                triple_bind (keeps_still (descSet_still _ _ _)) fun _ =>
                  triple_bind (keeps_still (descSet_still _ _ _)) fun _ => triple_pure fun _ h => h

theorem owns_rollback {α : Type} (buf : Option Key) (dir : Nat) (ret : α) :
    Leads (Owns T₀ kept (dir :: held)) (rollback buf dir ret) fun _ => Owns T₀ kept held :=
  triple_bind (keeps_still (brelse?_still buf)) fun _ => triple_bind (owns_iput hr dir) fun _ =>
    triple_pure fun _ h => h

theorem owns_mkdirIn (dir : Nat) (name : List UInt8) (mode : Nat) :
    Leads (fun s => Owns T₀ kept (dir :: held) s ∧ s.tab.searched dir name = dir)
      (mkdirIn dir name mode) fun _ => Owns T₀ kept held := by
  refine triple_bind (owns_addEntry hr dir name) fun ⟨ebuf, entry⟩ =>
    triple_bind (keeps_still (setDirty_still ebuf)) fun _ =>
      triple_bind (keeps_still (nameNewInode_still dir ebuf entry)) fun nr =>
        triple_bind (keeps_of_eq runningTask_obeys) fun task =>
          triple_bind (owns_inodeAt List.mem_cons_self) fun d =>
            triple_bind (owns_newInode hr d.dev nr) fun inode => ?_
  refine triple_bind (keeps_still (descSet_still _ _ _)) fun _ =>
    triple_bind (keeps_still (descSet_still _ _ _)) fun _ =>
      triple_bind (keeps_still (descSet_still _ _ _)) fun _ =>
        triple_bind (keeps_still (inodeDirty_still dir)) fun _ =>
          triple_bind (keeps_of_eq (descGet_obeys dir _)) fun _ =>
            triple_bind (keeps_still (descSet_still _ _ _)) fun _ => ?_
  refine triple_bind (keeps_still (bmap_still inode 0 true)) fun zone =>
    triple_bind (keeps_reads _) fun ino => triple_bind (keeps_still (bread_still _ _)) fun zbuf =>
      triple_bind (keeps_still (setDirty_still zbuf)) fun _ =>
        triple_bind (keeps_still (setDentry_still _ _ _ _)) fun _ =>
          triple_bind (keeps_reads _) fun d =>
            triple_bind (keeps_still (setDentry_still _ _ _ _)) fun _ => ?_
  exact triple_bind (owns_iput hr inode) fun _ => triple_bind (owns_iput hr dir) fun _ =>
    triple_bind (keeps_still (brelse_still ebuf)) fun _ => keeps_still (brelse_still zbuf)

theorem owns_linkIn (dir inode : Nat) (name : List UInt8) :
    Leads (fun s => Owns T₀ kept (dir :: held) s ∧ s.tab.searched dir name = dir)
      (linkIn dir inode name) fun _ => Owns T₀ kept (dir :: held) :=
  triple_bind (owns_addEntry hr dir name) fun _ => triple_bind (keeps_reads _) fun _ =>
    triple_bind (keeps_still (setDentryNr_still _ _ _)) fun _ =>
      triple_bind (keeps_still (setDirty_still _)) fun _ =>
        triple_bind (keeps_of_eq (descGet_obeys inode _)) fun _ =>
          triple_bind (keeps_still (descSet_still _ _ _)) fun _ =>
            triple_bind (keeps_still (inodeDirty_still _)) fun _ => keeps_pure _

theorem owns_mknodIn (dir : Nat) (name : List UInt8) (mode dev : Nat) :
    Leads (fun s => Owns T₀ kept (dir :: held) s ∧ s.tab.searched dir name = dir)
      (mknodIn dir name mode dev) fun r => Owns T₀ kept (r.2 :: dir :: held) := by
  refine triple_bind (owns_addEntry hr dir name) fun ⟨buf, entry⟩ =>
    triple_bind (keeps_still (setDirty_still buf)) fun _ =>
      triple_bind (keeps_still (nameNewInode_still dir buf entry)) fun nr =>
        triple_bind (owns_inodeAt List.mem_cons_self) fun d =>
          triple_bind (owns_newInode hr d.dev nr) fun inode => ?_
  refine triple_bind (keeps_still (descSet_still _ _ _)) fun _ => triple_bind (keeps_still ?_) fun _ =>
    triple_pure fun _ h => h
  exact obeys_ite (fun _ => descSet_still _ _ _) fun _ => obeys_pure _

theorem owns_openCreate (dir : Nat) (name : List UInt8) (mode : Nat) :
    Leads (fun s => Owns T₀ kept (dir :: held) s ∧ s.tab.searched dir name = dir)
      (openCreate dir name mode) fun r => Owns T₀ kept (r.2 :: dir :: held) :=
  triple_bind (owns_addEntry hr dir name) fun ⟨buf, entry⟩ =>
    triple_bind (keeps_still (nameNewInode_still dir buf entry)) fun nr =>
      triple_bind (owns_inodeAt List.mem_cons_self) fun d =>
        triple_bind (owns_newInode hr d.dev nr) fun _ =>
          triple_bind (keeps_of_eq runningTask_obeys) fun _ =>
            triple_bind (keeps_still (descSet_still _ _ _)) fun _ => triple_pure fun _ h => h

/-- A directory in memory that is about to be given back for good: its number is gone. -/
def Unnumbered (T₀ : Tables) (kept held : List Nat) (x : Nat) (s : Kernel) : Prop :=
  ∃ s₁, Owns T₀ kept (x :: held) s₁ ∧ (s₁.tab.inodeTable x).count = 1 ∧
    s.tab = s₁.tab.setInode x { s₁.tab.inodeTable x with nr := 0 }

omit hr in
theorem keeps_unnumbered {α : Type} {p : Code α} {x : Nat} (h : Obeys Still p) :
    Leads (Unnumbered T₀ kept held x) p fun _ => Unnumbered T₀ kept held x := by
  rintro s a t ⟨s₁, hs₁, hc, hs⟩ hr
  exact ⟨s₁, hs₁, hc, (h s a t hr).trans hs⟩

omit hr in
theorem owns_rmdirIn (dir inode : Nat) (ebuf : Key) (entry : Nat) :
    Leads (fun s => Owns T₀ kept (inode :: held) s ∧ (s.tab.inodeTable inode).count ≤ 1)
      (rmdirIn dir inode ebuf entry) fun _ => Unnumbered T₀ kept held inode := by
  have hstill : ∀ {α : Type} {p : Code α}, Obeys Still p →
      Leads (fun s => Owns T₀ kept (inode :: held) s ∧ (s.tab.inodeTable inode).count ≤ 1) p fun _ s =>
        Owns T₀ kept (inode :: held) s ∧ (s.tab.inodeTable inode).count ≤ 1 := by
    rintro α p hp s a t ⟨hs, hc⟩ h
    have htab := hp s a t h
    exact ⟨hs.congr htab, by rw [htab]; exact hc⟩
  refine triple_bind (hstill (descGet_obeys inode _)) fun _ => triple_bind (hstill (obeys_check _ _))
    fun _ => triple_bind (hstill (inodeTruncate_still inode)) fun _ =>
      triple_bind (hstill (inodeAt_obeys inode)) fun _ => triple_bind (hstill (ifree_still _ _))
        fun _ => triple_bind (hstill (descSet_still _ _ _)) fun _ =>
          triple_bind (hstill (inodeDirty_still _)) fun _ => ?_
  refine triple_bind (Q := fun _ => Unnumbered T₀ kept held inode) ?_ fun _ => keeps_unnumbered ?_
  · rintro s u t ⟨hs, hc⟩ h
    have hpos := hs.owned.count_ne.mpr (List.mem_append_left _ List.mem_cons_self)
    exact ⟨s, hs, by omega, by rw [runs_onInode h]⟩
  · exact obeys_bind (descGet_obeys dir _) fun _ => obeys_bind (descSet_still _ _ _) fun _ =>
      obeys_bind time_still fun _ => obeys_bind (descSet_still _ _ _) fun _ =>
        obeys_bind (inodeDirty_still _) fun _ => obeys_bind (descGet_obeys dir _) fun _ =>
          obeys_bind (obeys_check _ _) fun _ => obeys_bind (setDentryNr_still _ _ _) fun _ =>
            setDirty_still _

/-- Its slot is free afterwards. -/
theorem unnumbered_iput (x : Nat) :
    Leads (Unnumbered T₀ kept held x) (iput x) fun _ => Owns T₀ kept held := by
  rintro s u t ⟨s₁, hs₁, hc, hs⟩ h
  have hput := iput_putAway h
  have hself : s.tab.inodeTable x = { s₁.tab.inodeTable x with nr := 0 } := by
    simp [hs, Tables.setInode]
  have hx : x ∉ held ++ kept := by
    have := hs₁.owned.count x
    rw [hc, List.cons_append, List.count_cons_self] at this
    exact List.count_eq_zero.mp (by omega)
  have hp := hs₁.plain x List.mem_cons_self
  have hm := hs₁.bare hr fun hk => hx (List.mem_append_right _ hk)
  generalize hT : t.tab = T at hput
  cases hput with
  | kept hn =>
    rw [hself] at hn
    exact absurd (by rw [hc]) hn
  | emptied _ hp' =>
    rw [hself, hp] at hp'
    cases hp'
  | freed hz _ i hi =>
    have hi₁ : x ∈ (s₁.tab.superTable i).inodeList := by rw [hs] at hi; exact hi
    obtain ⟨ino, hino⟩ : ∃ ino, ino =
        { s₁.tab.inodeTable x with nr := 0, count := 0, dev := devEOF } := ⟨_, rfl⟩
    have htab : t.tab = (s₁.tab.setInode x ino).setSuper i { s₁.tab.superTable i with
        inodeList := (s₁.tab.superTable i).inodeList.erase x } := by
      rw [hT, hself, hs, hino]
      simp [Tables.setInode, Tables.setSuper]
    have hino' : ino.mount = (s₁.tab.inodeTable x).mount := by rw [hino]
    have hcore : ∀ y ∈ held ++ kept, ∃ n, t.tab.inodeTable y =
        { s₁.tab.inodeTable y with count := n } := by
      rw [htab]
      exact Tables.core_setInode (.inl hx)
    refine ⟨htab ▸ hs₁.owned.free hx hi₁ (by rw [hino]) (by rw [hino]) (by rw [hino]; exact hp)
      (hino'.trans hm), ?_, hs₁.core.trans fun y hy => hcore y (List.mem_append_right _ hy),
      fun y hy => ?_⟩
    · rw [htab]
      exact (hs₁.around.trans (Tables.around_setInode hino')).trans (Tables.around_setList _)
    · obtain ⟨n, hn⟩ := hcore y (List.mem_append_left _ hy)
      rw [hn]
      exact hs₁.plain y (List.mem_cons_of_mem _ hy)

variable (hstart : T₀.Starts kept)
include hstart

theorem owns_sysMkdir (pathname : List UInt8) (mode : Nat) :
    Leads (Owns T₀ kept held) (sysMkdir pathname mode) fun _ => Owns T₀ kept held := by
  refine triple_bind (owns_named hr hstart pathname) fun r => ?_
  cases r with
  | none => exact triple_pure fun _ h => h
  | some r =>
    obtain ⟨dir, next⟩ := r
    refine triple_ite (fun _ => owns_rollback hr none dir _) fun _ =>
      triple_bind (keeps_of_eq (permission_obeys dir _)) fun ok =>
        triple_ite (fun _ => owns_rollback hr none dir _) fun _ =>
          triple_bind (owns_findEntry hr dir next) fun ⟨dir, r⟩ => ?_
    cases r with
    | some e => exact triple_pre (owns_rollback hr _ dir _) fun _ h => h.1
    | none => exact triple_bind (owns_mkdirIn hr dir next mode) fun _ => triple_pure fun _ h => h

theorem owns_sysMknod (filename : List UInt8) (mode dev : Nat) :
    Leads (Owns T₀ kept held) (sysMknod filename mode dev) fun _ => Owns T₀ kept held := by
  refine triple_bind (owns_named hr hstart filename) fun r => ?_
  cases r with
  | none => exact triple_pure fun _ h => h
  | some r =>
    obtain ⟨dir, next⟩ := r
    refine triple_ite (fun _ => owns_rollback hr none dir _) fun _ =>
      triple_bind (keeps_of_eq (permission_obeys dir _)) fun ok =>
        triple_ite (fun _ => owns_rollback hr none dir _) fun _ =>
          triple_bind (owns_findEntry hr dir next) fun ⟨dir, r⟩ => ?_
    cases r with
    | some e => exact triple_pre (owns_rollback hr _ dir _) fun _ h => h.1
    | none =>
      refine triple_bind (owns_mknodIn hr dir next mode dev) fun ⟨buf, inode⟩ =>
        triple_bind (keeps_still (brelse_still buf)) fun _ => ?_
      exact triple_bind (owns_iput hr inode) fun _ => triple_bind (owns_iput hr dir) fun _ =>
        triple_pure fun _ h => h

omit hstart in
/-- The inode of an entry found in a directory that is held. -/
theorem owns_entryInode {α : Type} {f : Nat → Code α} {Q : α → Kernel → Prop} (dir : Nat) (k : Key)
    (entry : Nat) (hf : ∀ inode, Leads (Owns T₀ kept (inode :: dir :: held)) (f inode) Q) :
    Leads (Owns T₀ kept (dir :: held)) (do
      let d ← inodeAt dir
      let nr ← dentryNr k entry
      let inode ← iget d.dev nr
      f inode) Q := by
  refine triple_bind (owns_inodeAt List.mem_cons_self) fun d =>
    triple_bind (keeps_of_eq (dentryNr_obeys k entry)) fun nr => triple_bind ?_ hf
  exact fun s x t ⟨hs, hdev⟩ h => owns_iget hr hdev nr _ _ _ hs h

theorem owns_sysUnlink (filename : List UInt8) :
    Leads (Owns T₀ kept held) (sysUnlink filename) fun _ => Owns T₀ kept held := by
  refine triple_bind (owns_named hr hstart filename) fun r => ?_
  cases r with
  | none => exact triple_pure fun _ h => h
  | some r =>
    obtain ⟨dir, next⟩ := r
    refine triple_ite (fun _ => owns_rollback hr none dir _) fun _ =>
      triple_bind (keeps_of_eq (permission_obeys dir _)) fun ok =>
        triple_ite (fun _ => owns_rollback hr none dir _) fun _ =>
          triple_bind (owns_findEntry hr dir next) fun ⟨dir, r⟩ => ?_
    cases r with
    | none => exact triple_pre (owns_rollback hr _ dir _) fun _ h => h.1
    | some e =>
      obtain ⟨buf, entry, _⟩ := e
      refine triple_pre (owns_entryInode hr dir buf entry fun inode => ?_) fun _ h => h.1
      refine triple_bind (keeps_of_eq (descGet_obeys inode _)) fun mode =>
        triple_bind (keeps_of_eq runningTask_obeys) fun task =>
          triple_bind (keeps_of_eq (descGet_obeys inode _)) fun uid => ?_
      have hback : ∀ ret : Bool, Leads (Owns T₀ kept (inode :: dir :: held))
          (do brelse buf; iput inode; iput dir; return ret) fun _ => Owns T₀ kept held :=
        fun ret => triple_bind (keeps_still (brelse_still buf)) fun _ =>
          triple_bind (owns_iput hr inode) fun _ => triple_bind (owns_iput hr dir) fun _ =>
            triple_pure fun _ h => h
      exact triple_ite (fun _ => hback false) fun _ =>
        triple_bind (keeps_still (unlinkIn_still inode buf entry)) fun _ => hback true

theorem owns_sysRmdir (pathname : List UInt8) :
    Leads (Owns T₀ kept held) (sysRmdir pathname) fun _ => Owns T₀ kept held := by
  refine triple_bind (owns_named hr hstart pathname) fun r => ?_
  cases r with
  | none => exact triple_pure fun _ h => h
  | some r =>
    obtain ⟨dir, next⟩ := r
    refine triple_ite (fun _ => owns_rollback hr none dir _) fun _ =>
      triple_bind (keeps_of_eq (permission_obeys dir _)) fun ok =>
        triple_ite (fun _ => owns_rollback hr none dir _) fun _ =>
          triple_bind (owns_findEntry hr dir next) fun ⟨dir, r⟩ => ?_
    cases r with
    | none => exact triple_pre (owns_rollback hr _ dir _) fun _ h => h.1
    | some e =>
      obtain ⟨ebuf, entry, _⟩ := e
      refine triple_pre (owns_entryInode hr dir ebuf entry fun inode => ?_) fun _ h => h.1
      refine triple_bind (keeps_of_eq (descGet_obeys inode _)) fun mode =>
        triple_bind (keeps_of_eq runningTask_obeys) fun task =>
          triple_bind (keeps_of_eq (descGet_obeys dir _)) fun dmode =>
            triple_bind (keeps_of_eq (descGet_obeys inode _)) fun uid =>
              triple_bind (keeps_reads _) fun d => triple_bind (triple_reads _) fun ino => ?_
      have hback : Leads (Owns T₀ kept (inode :: dir :: held))
          (do iput inode; iput dir; brelse ebuf; return false) fun _ => Owns T₀ kept held :=
        triple_bind (owns_iput hr inode) fun _ => triple_bind (owns_iput hr dir) fun _ =>
          triple_bind (keeps_still (brelse_still ebuf)) fun _ => triple_pure fun _ h => h
      refine triple_ite (fun _ => triple_pre hback fun _ h => h.1) fun hc => ?_
      have hone : ino.count ≤ 1 := by
        by_contra hn
        exact hc (.inr (.inr (.inr (.inr (by omega)))))
      refine triple_bind (Q := fun _ s => Owns T₀ kept (inode :: dir :: held) s ∧
        (s.tab.inodeTable inode).count ≤ 1) ?_ fun empty => ?_
      · rintro s a t ⟨hs, rfl⟩ h
        have htab := reading_still.isEmpty inode s a t h
        exact ⟨hs.congr htab, by rw [htab]; exact hone⟩
      · refine triple_ite (fun _ => triple_pre hback fun _ h => h.1) fun _ => ?_
        exact triple_bind (owns_rmdirIn dir inode ebuf entry) fun _ =>
          triple_bind (unnumbered_iput hr inode) fun _ => triple_bind (owns_iput hr dir) fun _ =>
            triple_bind (keeps_still (brelse_still ebuf)) fun _ => triple_pure fun _ h => h

theorem owns_sysLink (oldname newname : List UInt8) :
    Leads (Owns T₀ kept held) (sysLink oldname newname) fun _ => Owns T₀ kept held := by
  refine triple_bind (owns_namei hr hstart oldname) fun r => ?_
  cases r with
  | none => exact triple_pure fun _ h => h
  | some inode =>
    refine triple_bind (keeps_of_eq (descGet_obeys inode _)) fun mode =>
      triple_ite (fun _ => owns_rollback hr _ inode _) fun _ => ?_
    refine triple_bind (owns_named hr hstart newname) fun r => ?_
    cases r with
    | none => exact owns_rollback hr _ inode _
    | some r =>
      obtain ⟨dir, next⟩ := r
      refine triple_pre (P := Owns T₀ kept (inode :: dir :: held)) ?_ fun _ h => h.perm (.swap ..)
      have hback : Leads (Owns T₀ kept (inode :: dir :: held))
          (do iput inode; rollback none dir false) fun _ => Owns T₀ kept held :=
        triple_bind (owns_iput hr inode) fun _ => owns_rollback hr none dir false
      have hback' : ∀ (dir : Nat) (buf : Key) (ret : Bool), Leads (Owns T₀ kept (dir :: inode :: held))
          (do brelse buf; iput inode; iput dir; return ret) fun _ => Owns T₀ kept held :=
        fun dir buf ret => triple_bind (keeps_still (brelse_still buf)) fun _ =>
          triple_bind (triple_pre (owns_iput hr inode) fun _ h => h.perm (.swap ..)) fun _ =>
            triple_bind (owns_iput hr dir) fun _ => triple_pure fun _ h => h
      refine triple_bind (keeps_reads _) fun d => triple_bind (keeps_reads _) fun ino =>
        triple_ite (fun _ => hback) fun _ => ?_
      refine triple_bind (keeps_of_eq (permission_obeys dir _)) fun ok =>
        triple_ite (fun _ => hback) fun _ => ?_
      refine triple_bind (triple_pre (owns_findEntry hr dir next) fun _ h => h.perm (.swap ..))
        fun ⟨dir, r⟩ => ?_
      cases r with
      | some e => exact triple_pre (hback' dir e.1 false) fun _ h => h.1
      | none => exact triple_bind (owns_linkIn hr dir inode next) fun buf => hback' dir buf true

/-- An opened inode is held. -/
theorem owns_inodeOpen (pathname : List UInt8) (flag mode : Nat) :
    Leads (Owns T₀ kept held) (inodeOpen pathname flag mode) fun r =>
      Owns T₀ kept (r.toList ++ held) := by
  have hmakeup : ∀ (dir : Nat) (buf : Key) (inode flag : Nat),
      Leads (Owns T₀ kept (inode :: dir :: held)) (openMakeup dir buf inode flag) fun r =>
        Owns T₀ kept (r.toList ++ held) := by
    intro dir buf inode flag
    refine triple_bind (keeps_of_eq (permission_obeys inode _)) fun ok =>
      triple_bind (keeps_of_eq (descGet_obeys inode _)) fun mode => triple_ite (fun _ => ?_) fun _ => ?_
    · exact triple_bind (keeps_still (brelse_still buf)) fun _ =>
        triple_bind (triple_pre (owns_iput hr dir) fun _ h => h.perm (.swap ..)) fun _ =>
          triple_bind (owns_iput hr inode) fun _ => triple_pure fun _ h => h
    · refine triple_bind (keeps_still ?_) fun _ => triple_bind (keeps_still (brelse_still buf)) fun _ =>
        triple_bind (triple_pre (owns_iput hr dir) fun _ h => h.perm (.swap ..)) fun _ =>
          triple_pure fun _ h => h
      exact obeys_ite (fun _ => inodeTruncate_still inode) fun _ => obeys_pure _
  refine triple_bind (owns_named hr hstart pathname) fun r => ?_
  cases r with
  | none => exact triple_pure fun _ h => h
  | some r =>
    obtain ⟨dir, next⟩ := r
    refine triple_ite (fun _ => triple_pure fun _ h => h) fun _ => ?_
    refine triple_bind (owns_findEntry hr dir next) fun ⟨dir, r⟩ => ?_
    have hnone : Leads (fun s => Owns T₀ kept (dir :: held) s ∧ s.tab.searched dir next = dir)
        (rollback none dir none) fun r => Owns T₀ kept (r.toList ++ held) := by
      intro s r t hs h
      have ht := owns_rollback hr none dir none _ _ _ hs.1 h
      obtain ⟨_, s₁, -, h⟩ := runs_bind.mp h
      obtain ⟨_, s₂, -, rfl, -⟩ := runs_bind.mp h
      exact ht
    cases r with
    | some e =>
      obtain ⟨buf, entry, _⟩ := e
      exact triple_pre (owns_entryInode hr dir buf entry fun inode => hmakeup dir buf inode _)
        fun _ h => h.1
    | none =>
      refine triple_ite (fun _ => hnone) fun _ => ?_
      refine triple_bind (keeps_of_eq (permission_obeys dir _)) fun ok =>
        triple_ite (fun _ => hnone) fun _ => ?_
      exact triple_bind (owns_openCreate hr dir next mode) fun ⟨buf, inode⟩ =>
        hmakeup dir buf inode _

theorem owns_sysStat (filename : List UInt8) :
    Leads (Owns T₀ kept held) (sysStat filename) fun _ => Owns T₀ kept held := by
  refine triple_bind (owns_namei hr hstart filename) fun r => ?_
  cases r with
  | none => exact triple_pure fun _ h => h
  | some inode =>
    exact triple_bind (keeps_of_eq (copyStat_obeys inode)) fun _ =>
      triple_bind (owns_iput hr inode) fun _ => triple_pure fun _ h => h

end Names

end Yuios
