/-
  File:      Yuios/Fs/Lookup.lean
  Subject:   WHERE A LOOKUP LEADS: the answers of `bmap`, `find_entry` and `iget`, read off the
             blocks and the tables before the call.

  * `Inode.zone`, `Inode.find` -- the block map and the entries of a directory on what the blocks
    show; `bmap_zone`, `findEntry_find`: the calls answer no other.
  * `Tables.searched`, `Tables.answer` -- the directory `find_entry` searches, and where the
    descriptor lies that `iget` answers.
  * **`Kernel.passes`** -- the lookup of a path goes through its first component to another one.
-/
import Yuios.Fs.Ledger
import Yuios.Fs.Volume

namespace Yuios

open Lib Prog Code

/-! ## 1. The block map and the entries -/

/-- The walk of `bmap` on what the blocks show. -/
def mapFrom (w : View) (dev : Int) :
    (level : Nat) → (buf : Key) → (array index rest divider : Nat) → Nat
  | level, buf, array, index, rest, divider =>
    let zone := fetch (w buf) (array + 2 * index) 2
    match level with
    | 0 => zone
    | level + 1 =>
      if zone = 0 then zone
      else mapFrom w dev level ⟨dev, zone⟩ 0 (rest / divider) (rest % divider)
        (divider / BLOCK_INDEXES)

namespace Inode

variable (ino : Inode) (w : View)

/-- A field of the descriptor. -/
def field (f : Field) : Nat := fetch (w ino.buf) (ino.desc + f.off) f.width

/-- The zone of block `block`. -/
def zone (block : Nat) : Nat :=
  let array := ino.desc + (Field.zone 0).off
  if block < DIRECT_BLOCK then
    mapFrom w ino.dev 0 ino.buf array block block 1
  else if block - DIRECT_BLOCK < INDIRECT1_BLOCK then
    mapFrom w ino.dev 1 ino.buf array DIRECT_BLOCK (block - DIRECT_BLOCK) 1
  else
    mapFrom w ino.dev 2 ino.buf array (DIRECT_BLOCK + 1) (block - DIRECT_BLOCK - INDIRECT1_BLOCK)
      BLOCK_INDEXES

/-- The place of entry `i` of the directory. -/
def entry (i : Nat) : Place := (⟨ino.dev, ino.zone w (i / BLOCK_DENTRIES)⟩, 16 * (i % BLOCK_DENTRIES))

/-- Entry `i` under the name: its place and the rest of the name. -/
def entryMatch (name : List UInt8) (i : Nat) : Option (Key × Nat × List UInt8) :=
  let (k, off) := ino.entry w i
  match matchName (w k) (off + 2) name with
  | some next => if fetch (w k) off 2 ≠ 0 then some (k, off, next) else none
  | none => none

/-- The first entry under the name. -/
def find (name : List UInt8) : Option (Key × Nat × List UInt8) :=
  (List.range (ino.field w .size / 16)).findSome? (ino.entryMatch w name)

/-- The task may search the directory. -/
def enters (task : Task) : Bool :=
  let mode := ino.field w .mode
  let shift := if task.uid = ino.field w .uid then mode >>> 6
    else if task.gid = ino.field w .gid then mode >>> 3 else mode
  ISDIR mode && ino.field w .nlinks != 0 && (task.uid == 0 || shift &&& P_EXEC &&& 7 == P_EXEC)

variable {ino w}

/-- What a task may do is read off the descriptor. -/
theorem enters_congr {ino' : Inode} (hbuf : ino.buf = ino'.buf) (hdesc : ino.desc = ino'.desc)
    {task : Task} : ino.enters w task = ino'.enters w task := by
  have h : ino.field w = ino'.field w := by
    funext f
    simp [field, hbuf, hdesc]
  unfold enters
  rw [h]

end Inode

section Bmap

variable {s t : Kernel}

theorem Same.views (h : Same s t) : t.view = s.view := h.view

theorem bmapSlot_same (x level : Nat) (buf : Key) (slot : Nat) :
    Obeys Same (bmapSlot x false level buf slot) :=
  obeys_mapLabel (obeys_bind (bmapFill_false_obeys x buf slot) fun _ => brelse_same buf)

theorem bmapReckon_zone {x level : Nat} {buf : Key} {array index block divider z : Nat}
    (h : Ends (bmapReckon x false level buf array index block divider) s z t) :
    Same s t ∧ z = mapFrom s.view (s.tab.inodeTable x).dev level buf array index block divider := by
  induction level generalizing buf array index block divider s with
  | zero =>
    obtain ⟨_, s₁, h₁, h⟩ := runs_bind.mp h
    have hs := bmapSlot_same _ _ _ _ _ _ _ h₁
    obtain ⟨b, s₂, ⟨rfl, rfl⟩, hz, rfl⟩ := runs_bind.mp h
    refine ⟨hs, ?_⟩
    simp [mapFrom, ← hz, hs.views]
  | succ level ih =>
    obtain ⟨_, s₁, h₁, h⟩ := runs_bind.mp h
    have hs := bmapSlot_same _ _ _ _ _ _ _ h₁
    obtain ⟨b, s₂, ⟨rfl, rfl⟩, h⟩ := runs_bind.mp h
    rw [mapFrom, ← hs.views]
    obtain ⟨hz, rfl, rfl⟩ | ⟨hz, h⟩ := runs_ite.mp h
    · exact ⟨hs, (if_pos hz).symm⟩
    · obtain ⟨i, s₂, ⟨rfl, rfl⟩, h⟩ := runs_bind.mp h
      obtain ⟨k, s₃, h₃, h⟩ := runs_bind.mp h
      have hs₃ := bread_same _ _ _ _ _ h₃
      obtain ⟨hs₄, hz'⟩ := ih h
      refine ⟨(hs.trans hs₃).trans hs₄, ?_⟩
      rw [hz', bread_key h₃, hs₃.tab, hs₃.views, hs.tab]
      dsimp only at hz
      simp [hz, hs.tab]

/-- `bmap` without `create` answers the zone. -/
theorem bmap_zone {x block z : Nat} (h : Ends (bmap x block false) s z t) :
    Same s t ∧ z = (s.tab.inodeTable x).zone s.view block := by
  obtain ⟨hlt, level, index, rest, divider, s', hstart, hs, h⟩ := bmap_start h
  obtain ⟨hs', hz⟩ := bmapReckon_zone h
  refine ⟨hs.trans hs', ?_⟩
  rw [hz, hs.tab, hs.views]
  clear h
  cases hstart with
  | direct h => simp [Inode.zone, h]
  | single h h' => simp [Inode.zone, Nat.not_lt.mpr h, h']
  | double h h' =>
    have h₁ : ¬ block < DIRECT_BLOCK := by omega
    have h₂ : ¬ block - DIRECT_BLOCK < INDIRECT1_BLOCK := by omega
    simp [Inode.zone, h₁, h₂]

end Bmap

/-! ## 2. The entries of a directory -/

/-- The loop over the entries stands before entry `i`: at the first one it has no buffer yet, and
    later on the pointer has moved on from the entry before. -/
def Cursor (ino : Inode) (w : View) (i : Nat) (buf : Option Key) (entry : Nat) : Prop :=
  match buf with
  | none => i = 0
  | some k => ∃ j, i = j + 1 ∧ k = (ino.entry w j).1 ∧ entry = (ino.entry w j).2 + 16

section Entries

variable {s t : Kernel} {dir : Nat}

theorem dentryAt_entry {i entry : Nat} {buf : Option Key} {r : Key × Nat}
    (hc : Cursor (s.tab.inodeTable dir) s.view i buf entry)
    (h : Ends (dentryAt dir false i buf entry) s r t) :
    Same s t ∧ r = (s.tab.inodeTable dir).entry s.view i := by
  unfold dentryAt at h
  split at h
  · rename_i k hk
    obtain ⟨rfl, rfl⟩ := h
    split at hk
    · subst hk
      obtain ⟨j, rfl, rfl, rfl⟩ := hc
      simp only [Inode.entry, BLOCK_DENTRIES, BLOCK_SIZE] at *
      have hdiv : (j + 1) / 64 = j / 64 := by omega
      have hmod : 16 * ((j + 1) % 64) = 16 * (j % 64) + 16 := by omega
      rw [hdiv, hmod]
      exact ⟨Same.refl s, rfl⟩
    · cases hk
  · rename_i hk
    obtain ⟨_, s₁, h₁, h⟩ := runs_bind.mp h
    have hs₁ := brelse?_same _ _ _ _ h₁
    obtain ⟨z, s₂, h₂, h⟩ := runs_bind.mp h
    obtain ⟨hs₂, hz⟩ := bmap_zone h₂
    obtain ⟨_, s₃, h₃, h⟩ := runs_bind.mp h
    rw [runs_assert] at h₃
    obtain ⟨-, rfl⟩ := h₃
    obtain ⟨ino, s₃, ⟨rfl, rfl⟩, h⟩ := runs_bind.mp h
    obtain ⟨k, s₄, h₄, rfl, rfl⟩ := runs_bind.mp h
    have hs₄ := bread_same _ _ _ _ _ h₄
    refine ⟨(hs₁.trans hs₂).trans hs₄, ?_⟩
    have h0 : 16 * (i % BLOCK_DENTRIES) = 0 := by
      cases buf with
      | none =>
        have hi : i = 0 := hc
        simp [hi]
      | some k =>
        obtain ⟨j, rfl, -, rfl⟩ := hc
        have hlt : ¬ ((s.tab.inodeTable dir).entry s.view j).2 + 16 < BLOCK_SIZE := by
          intro hlt
          rw [if_pos hlt] at hk
          cases hk
        simp only [Inode.entry, BLOCK_DENTRIES, BLOCK_SIZE] at hlt ⊢
        omega
    rw [Inode.entry, h0, bread_key h₄, hz]
    simp [hs₂.tab, hs₁.tab, hs₁.views]

/-- The loop answers the first entry under the name. -/
theorem findEntryLoop_find {name : List UInt8} {n i entry : Nat} {buf : Option Key}
    {r : Option (Key × Nat × List UInt8)} (hc : Cursor (s.tab.inodeTable dir) s.view i buf entry)
    (h : Ends (findEntryLoop dir name n i buf entry) s r t) :
    Same s t ∧ r = (List.range' i n).findSome? ((s.tab.inodeTable dir).entryMatch s.view name) := by
  induction n generalizing s i buf entry with
  | zero =>
    obtain ⟨_, s₁, h₁, rfl, rfl⟩ := runs_bind.mp h
    exact ⟨brelse?_same _ _ _ _ h₁, rfl⟩
  | succ n ih =>
    obtain ⟨⟨k, entry⟩, s₁, h₁, h⟩ := runs_bind.mp h
    obtain ⟨hs, hk⟩ := dentryAt_entry hc h₁
    obtain ⟨b, s₂, ⟨rfl, rfl⟩, h⟩ := runs_bind.mp h
    have hnext : Cursor (s₁.tab.inodeTable dir) s₁.view (i + 1) (some k) (entry + 16) :=
      ⟨i, rfl, by rw [hs.tab, hs.views, ← hk], by rw [hs.tab, hs.views, ← hk]⟩
    have ih' := fun h => ih hnext h
    rw [hs.tab, hs.views] at ih'
    rw [List.range'_succ, List.findSome?_cons]
    dsimp only at h
    have hm : (s.tab.inodeTable dir).entryMatch s.view name i =
        match matchName (s₁.view k) (entry + 2) name with
        | some next => if fetch (s₁.view k) entry 2 ≠ 0 then some (k, entry, next) else none
        | none => none := by rw [Inode.entryMatch, ← hk, hs.views]
    cases hmatch : matchName (s₁.view k) (entry + 2) name with
    | some next =>
      rw [hmatch] at h hm
      obtain ⟨hn, rfl, rfl⟩ | ⟨hn, h⟩ := runs_ite.mp h
      · exact ⟨hs, by simp [hm, hn]⟩
      · obtain ⟨hs', hr⟩ := ih' h
        exact ⟨hs.trans hs', by simp [hm, hn, hr]⟩
    | none =>
      rw [hmatch] at h hm
      obtain ⟨hs', hr⟩ := ih' h
      exact ⟨hs.trans hs', by simp [hm, hr]⟩

end Entries

/-! ## 3. Directories and inodes in memory -/

namespace Tables

variable (T : Tables)

/-- The tables with one reference more to slot `x`. -/
def took (x : Nat) : Tables :=
  T.setInode x { T.inodeTable x with count := (T.inodeTable x).count + 1 }

/-- The directory `find_entry` searches. -/
def searched (dir : Nat) (name : List UInt8) : Nat :=
  if (matchName (ofString DOTDOT) 0 name).isSome ∧ (T.inodeTable dir).nr = 1 then
    ((T.getSuper (T.inodeTable dir).dev).bind fun i => (T.superTable i).imount).getD dir
  else dir

/-- Where the inode lies that `iget` answers: in memory, across a mount point, or still on the
    device. -/
def answer (dev : Int) (nr : Nat) : Option Inode :=
  (T.getSuper dev).bind fun i =>
    match (T.superTable i).inodeList.find? fun x => (T.inodeTable x).nr == nr with
    | some x =>
      if (T.inodeTable x).mount = 0 then some (T.inodeTable x)
      else (T.getSuper (T.inodeTable x).mount).bind fun j =>
        (T.superTable j).iroot.map T.inodeTable
    | none =>
      some ⟨dev, nr, ⟨dev, inodeBlock (T.superTable i) nr⟩, 32 * ((nr - 1) % BLOCK_INODES), 1, 0,
        false⟩

variable {T}

theorem took_of_ne {x y : Nat} (h : y ≠ x) : (T.took x).inodeTable y = T.inodeTable y :=
  Function.update_of_ne h ..

theorem took_inodeTable (x y : Nat) : ∃ n, n ≥ (T.inodeTable y).count ∧
    (T.took x).inodeTable y = { T.inodeTable y with count := n } := by
  by_cases h : y = x
  · subst h
    exact ⟨(T.inodeTable y).count + 1, by omega, Function.update_self ..⟩
  · exact ⟨_, Nat.le_refl _, took_of_ne h⟩

theorem took_comm (x y : Nat) : (T.took x).took y = (T.took y).took x := by
  by_cases h : y = x
  · rw [h]
  · simp only [took, setInode]
    rw [Function.update_of_ne h, Function.update_of_ne (Ne.symm h), Function.update_comm h]

end Tables

section Tables

variable {s t : Kernel} {T : Tables}

/-- A reference taken to a slot in use and given back leaves the tables as they were. -/
theorem iput_took {x : Nat} {u : Unit} (hT : s.tab = T.took x) (hx : (T.inodeTable x).count ≠ 0)
    (h : Ends (iput x) s u t) : t.tab = T ∧ t.view = s.view := by
  have hself : (T.took x).inodeTable x =
      { T.inodeTable x with count := (T.inodeTable x).count + 1 } := Function.update_self ..
  have hback : ∀ v : Kernel, v.tab = T.took x →
      (v.setInode x { v.tab.inodeTable x with count := (v.tab.inodeTable x).count - 1 }).tab = T := by
    intro v hv
    rw [Kernel.setInode, hv, hself]
    simp [Tables.took, Tables.setInode]
  obtain ⟨i, s₁, ⟨rfl, rfl⟩, h⟩ := runs_bind.mp h
  obtain ⟨-, h⟩ | ⟨-, h⟩ := runs_ite.mp h
  · obtain ⟨_, s₁, h₁, h⟩ := runs_bind.mp h
    obtain ⟨i, s₂, ⟨rfl, rfl⟩, h⟩ := runs_bind.mp h
    rw [runs_onInode h₁] at h
    obtain ⟨-, -, rfl⟩ | ⟨hz, -⟩ := runs_ite.mp h
    · exact ⟨hback s hT, rfl⟩
    · exact absurd (by simpa [hT, hself, Tables.setInode] using hx) hz
  · obtain ⟨_, s₁, h₁, h⟩ := runs_bind.mp h
    have hs := bwrite_same _ _ _ _ h₁
    have hT₁ : s₁.tab = T.took x := hs.tab.trans hT
    obtain ⟨_, s₂, h₂, h⟩ := runs_bind.mp h
    obtain ⟨i, s₃, ⟨rfl, rfl⟩, h⟩ := runs_bind.mp h
    rw [runs_onInode h₂] at h
    obtain ⟨-, -, rfl⟩ | ⟨hz, -⟩ := runs_ite.mp h
    · exact ⟨hback s₁ hT₁, hs.views⟩
    · exact absurd (by simpa [hT₁, hself, Tables.setInode] using hx) hz

theorem crossMount_searched (hb : Booked T) {dir d : Nat} {name : List UInt8}
    (hT : s.tab = T.took dir) (hdir : (T.inodeTable dir).Live)
    (h : Ends (crossMount dir name) s d t) :
    d = T.searched dir name ∧ t.tab = T.took d ∧ t.view = s.view ∧ (T.inodeTable d).Live := by
  obtain ⟨n, -, hn⟩ := Tables.took_inodeTable (T := T) dir dir
  rw [← hT] at hn
  obtain ⟨ino, s₁, ⟨rfl, rfl⟩, h⟩ := runs_bind.mp h
  obtain ⟨hc, h⟩ | ⟨hc, rfl, rfl⟩ := runs_ite.mp h
  · obtain ⟨sb, s₁, h₁, h⟩ := runs_bind.mp h
    obtain ⟨⟨i, hi, rfl⟩, rfl⟩ := runs_superOf.mp h₁
    obtain ⟨mnt, s₁, h₁, h⟩ := runs_bind.mp h
    rw [runs_need] at h₁
    obtain ⟨hmnt, rfl⟩ := h₁
    obtain ⟨_, s₂, h₂, h⟩ := runs_bind.mp h
    obtain ⟨_, s₃, h₃, rfl, rfl⟩ := runs_bind.mp h
    dsimp only at hc hi
    rw [hn] at hc hi
    rw [hT] at hi hmnt
    have hl : (T.inodeTable mnt).Live := hb.roots i (getSuper_dev hi ▸ hdir) mnt (.inr hmnt)
    have h₂ := runs_onInode h₂
    have hT₂ : s₂.tab = (T.took mnt).took dir := by
      rw [h₂, Tables.took_comm, ← hT]
      rfl
    obtain ⟨m, hm, hm'⟩ := Tables.took_inodeTable (T := T) mnt dir
    have hne : ((T.took mnt).inodeTable dir).count ≠ 0 := by
      have := (hb.live dir hdir).1
      simp only [hm']
      omega
    obtain ⟨hT₃, hv⟩ := iput_took hT₂ hne h₃
    refine ⟨?_, hT₃, by rw [hv, h₂], hl⟩
    have hi' : T.getSuper (T.inodeTable dir).dev = some i := hi
    have hm' : (T.superTable i).imount = some mnt := hmnt
    rw [Tables.searched, if_pos hc, hi']
    simp [hm']
  · dsimp only at hc
    rw [hn] at hc
    exact ⟨(if_neg hc).symm, hT, rfl, hdir⟩

/-- `find_entry` answers the first entry under the name in the directory searched. -/
theorem findEntry_find (hb : Booked T) {dir : Nat} {name : List UInt8}
    {r : Nat × Option (Key × Nat × List UInt8)} (hT : s.tab = T.took dir)
    (hdir : (T.inodeTable dir).Live) (h : Ends (findEntry dir name) s r t) :
    r.1 = T.searched dir name ∧ r.2 = (T.inodeTable r.1).find s.view name ∧
      t.tab = T.took r.1 ∧ t.view = s.view ∧ (T.inodeTable r.1).Live := by
  obtain ⟨mode, s₁, h₁, h⟩ := runs_bind.mp h
  rw [runs_descGet] at h₁
  obtain ⟨-, rfl⟩ := h₁
  obtain ⟨_, s₁, h₁, h⟩ := runs_bind.mp h
  rw [runs_assert] at h₁
  obtain ⟨-, rfl⟩ := h₁
  obtain ⟨d, s₁, h₁, h⟩ := runs_bind.mp h
  obtain ⟨hd, hT₁, hv, hl⟩ := crossMount_searched hb hT hdir h₁
  obtain ⟨size, s₂, h₂, h⟩ := runs_bind.mp h
  rw [runs_descGet] at h₂
  obtain ⟨rfl, rfl⟩ := h₂
  obtain ⟨r', s₂, h₂, rfl, rfl⟩ := runs_bind.mp h
  obtain ⟨hs, hr⟩ := findEntryLoop_find (by exact rfl) h₂
  obtain ⟨n, -, hn⟩ := Tables.took_inodeTable (T := T) d d
  refine ⟨hd, ?_, hs.tab.trans hT₁, hs.views.trans hv, hl⟩
  have hsize : s₁.desc d .size = (T.inodeTable d).field s.view .size := by
    rw [Kernel.desc, hT₁, hn, Inode.field, ← hv]
  rw [hr, hsize, hT₁, hn, hv, ← List.range_eq_range']
  rfl

/-- `fit_inode` answers the inode itself, or the root of what is mounted on it. -/
theorem fitInode_answer (hb : Booked T) {x y : Nat} (hT : s.tab = T.took x)
    (hx : (T.inodeTable x).Live) (h : Ends (fitInode x) s y t) :
    t.view = s.view ∧ t.tab = T.took y ∧
      (if (T.inodeTable x).mount = 0 then some (T.inodeTable x)
        else (T.getSuper (T.inodeTable x).mount).bind fun j =>
          (T.superTable j).iroot.map T.inodeTable) = some (T.inodeTable y) := by
  obtain ⟨n, -, hn⟩ := Tables.took_inodeTable (T := T) x x
  rw [← hT] at hn
  obtain ⟨i, s₁, ⟨rfl, rfl⟩, h⟩ := runs_bind.mp h
  obtain ⟨hm, rfl, rfl⟩ | ⟨hm, h⟩ := runs_ite.mp h
  · dsimp only at hm
    rw [hn] at hm
    exact ⟨rfl, hT, if_pos hm⟩
  · obtain ⟨sb, s₁, h₁, h⟩ := runs_bind.mp h
    obtain ⟨⟨i, hi, rfl⟩, rfl⟩ := runs_superOf.mp h₁
    obtain ⟨_, s₂, h₂, h⟩ := runs_bind.mp h
    obtain ⟨y', s₃, h₃, h⟩ := runs_bind.mp h
    rw [runs_need] at h₃
    obtain ⟨hroot, rfl⟩ := h₃
    obtain ⟨_, s₄, h₄, rfl, rfl⟩ := runs_bind.mp h
    obtain ⟨hT₂, hv⟩ := iput_took hT (hb.live x hx).1 h₂
    dsimp only at hm hi
    rw [hn] at hm hi
    rw [hT] at hi hroot
    have hi' : T.getSuper (T.inodeTable x).mount = some i := hi
    have hroot' : (T.superTable i).iroot = some y' := hroot
    rw [if_neg hm, hi', runs_onInode h₄, ← hT₂]
    exact ⟨hv, rfl, by simp [hT₂, hroot']⟩

/-- `iget` answers an inode where the tables say. -/
theorem iget_answer (hb : Booked s.tab) {dev : Int} {nr y : Nat} (h : Ends (iget dev nr) s y t) :
    t.view = s.view ∧ t.tab.task = s.tab.task ∧ t.tab.running = s.tab.running ∧
      ∃ a, s.tab.answer dev nr = some a ∧ (t.tab.inodeTable y).buf = a.buf ∧
        (t.tab.inodeTable y).desc = a.desc := by
  obtain ⟨r, s₁, h₁, h⟩ := runs_bind.mp h
  obtain ⟨i, hi, rfl, hr⟩ := runs_findInode h₁
  rw [Tables.answer, hi, Option.bind_some, ← hr]
  cases r with
  | some x =>
    obtain ⟨_, s₂, h₂, h⟩ := runs_bind.mp h
    have hl := (hb.listed i x (List.mem_of_find?_eq_some hr.symm)).1
    have h₂ := runs_onInode h₂
    have hT₂ : s₂.tab = s.tab.took x := by rw [h₂]; rfl
    obtain ⟨hv, hT, ha⟩ := fitInode_answer hb hT₂ hl h
    obtain ⟨n, -, hn⟩ := Tables.took_inodeTable (T := s.tab) y y
    refine ⟨by rw [hv, h₂], by rw [hT]; rfl, by rw [hT]; rfl, _, ha, ?_, ?_⟩ <;> rw [hT, hn]
  | none =>
    obtain ⟨sb, s₁, h₁, h⟩ := runs_bind.mp h
    obtain ⟨⟨j, hj, rfl⟩, rfl⟩ := runs_superOf.mp h₁
    obtain rfl : i = j := Option.some.inj (hi.symm.trans hj)
    obtain ⟨_, s₁, h₁, h⟩ := runs_bind.mp h
    rw [runs_assert] at h₁
    obtain ⟨-, rfl⟩ := h₁
    obtain ⟨x, s₁, h₁, h⟩ := runs_bind.mp h
    obtain ⟨-, -, rfl⟩ := runs_getFreeInode h₁
    obtain ⟨_, s₂, h₂, h⟩ := runs_bind.mp h
    obtain ⟨_, s₃, h₃, h⟩ := runs_bind.mp h
    obtain ⟨k, s₄, h₄, h⟩ := runs_bind.mp h
    obtain ⟨_, s₅, h₅, rfl, rfl⟩ := runs_bind.mp h
    have h₂ := runs_onInode h₂
    obtain ⟨j, -, -, h₃⟩ := runs_listPushInode h₃
    have hs := bread_same _ _ _ _ _ h₄
    have hk := bread_key h₄
    rw [runs_onInode h₅]
    refine ⟨?_, ?_, ?_, _, rfl, ?_, ?_⟩
    · exact hs.views.trans (by rw [h₃, h₂])
    · simp [Tables.setInode, hs.tab, h₃, h₂, Tables.setSuper]
    · simp [Tables.setInode, hs.tab, h₃, h₂, Tables.setSuper]
    · simp [Tables.setInode, hk]
    · simp [Tables.setInode]

/-- `ISDIR(inode->desc->mode) && permission(inode, P_EXEC)`, read off the descriptor. -/
theorem searchable_enters {x : Nat} {ok : Bool} (h : Ends (searchable x) s ok t) :
    s = t ∧ ok = (s.tab.inodeTable x).enters s.view (s.tab.task s.tab.running) := by
  have hfield : ∀ f, s.desc x f = (s.tab.inodeTable x).field s.view f := fun _ => rfl
  obtain ⟨mode, s₁, h₁, h⟩ := runs_bind.mp h
  rw [runs_descGet, hfield] at h₁
  obtain ⟨rfl, rfl⟩ := h₁
  obtain ⟨hd, h⟩ | ⟨hd, rfl, rfl⟩ := runs_ite.mp h
  · obtain ⟨mode, s₁, h₁, h⟩ := runs_bind.mp h
    obtain ⟨nlinks, s₂, h₂, h⟩ := runs_bind.mp h
    rw [runs_descGet, hfield] at h₁
    obtain ⟨rfl, rfl⟩ := h₁
    rw [runs_descGet, hfield] at h₂
    obtain ⟨rfl, rfl⟩ := h₂
    obtain ⟨hl, rfl, rfl⟩ | ⟨hl, h⟩ := runs_ite.mp h
    · simp [Inode.enters, hl]
    · obtain ⟨task, s₁, h₁, h⟩ := runs_bind.mp h
      rw [runs_runningTask] at h₁
      obtain ⟨rfl, rfl⟩ := h₁
      obtain ⟨hu, rfl, rfl⟩ | ⟨hu, h⟩ := runs_ite.mp h
      · simp [Inode.enters, hd, hl, hu]
      · obtain ⟨uid, s₁, h₁, h⟩ := runs_bind.mp h
        obtain ⟨gid, s₂, h₂, h⟩ := runs_bind.mp h
        rw [runs_descGet, hfield] at h₁
        obtain ⟨rfl, rfl⟩ := h₁
        rw [runs_descGet, hfield] at h₂
        obtain ⟨rfl, rfl⟩ := h₂
        obtain ⟨rfl, rfl⟩ := h
        have hl' : ((s.tab.inodeTable x).field s.view .nlinks != 0) = true := by simp [hl]
        have hu' : ((s.tab.task s.tab.running).uid == 0) = false := by simp [hu]
        refine ⟨rfl, ?_⟩
        simp only [Inode.enters, hd, hl', hu', Bool.true_and, Bool.false_or]
  · simp [Inode.enters, hd]

end Tables

/-! ## 4. A lookup that goes on -/

/-- The lookup goes on after the first component of `left`: an entry has that name, the task may
    search what it names, and what follows is not yet the last component `right`. -/
def Kernel.goesOn (s : Kernel) (start : Nat) (left right : List UInt8) : Bool :=
  let dir := s.tab.searched start left
  match (s.tab.inodeTable dir).find s.view left with
  | some (k, entry, next) =>
    match s.tab.answer (s.tab.inodeTable dir).dev (fetch (s.view k) entry 2) with
    | some inode =>
      inode.enters s.view (s.tab.task s.tab.running) && decide (right ≠ next)
    | none => false
  | none => false

/-- **The lookup of the path passes through its first component** on to another directory. -/
def Kernel.passes (s : Kernel) (pathname : List UInt8) : Bool :=
  let task := s.tab.task s.tab.running
  match pathname with
  | [] => false
  | c :: cs =>
    let start := if isSeparator c then task.iroot else task.ipwd
    let left := if isSeparator c then cs else pathname
    match afterLastSep left with
    | some right => s.goesOn start left right
    | none => false

end Yuios
