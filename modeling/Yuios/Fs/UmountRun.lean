/-
  File:      Yuios/Fs/UmountRun.lean
  Subject:   UNMOUNTING KEEPS EVERY REFERENCE COUNTED, exactly where nobody else refers to the root.

  * `Tables.Bared` -- the tables after a file system is taken down: a super block less, what it was
    mounted on uncovered.
  * `System.Idle` -- of what is unmounted the super block has the only reference to the root.
  * **`settled_sysUmount`** -- the call leaves the system settled if and only if its target is idle.
  * **`references_counted_umount`** -- so the counts are those of the references in every run that unmounts
    idle file systems only, and no inode in memory is without the super block of its device.
-/
import Yuios.Fs.Umount
import Yuios.Fs.HolderRun

namespace Yuios

open Lib Prog Code

/-! ## 1. The tables without a file system -/

/-- **One super block less**: `i` is free again, and nothing is mounted on `dir` any more. -/
structure Tables.Bared (T T' : Tables) (kept : List Nat) (i root dir : Nat) : Prop where
  iroot : (T.superTable i).iroot = some root
  imount : (T.superTable i).imount = some dir
  gone : root ∉ kept
  super : (T'.superTable i).dev = devEOF ∧ (T'.superTable i).iroot = none ∧ (T'.superTable i).imount = none
  supers : ∀ j, j ≠ i → T'.superTable j = { T.superTable j with inodeList := (T'.superTable j).inodeList }
  mount : ∀ x, (T'.inodeTable x).mount = if x = dir then 0 else (T.inodeTable x).mount
  core : ∀ x ∈ kept, (T'.inodeTable x).ident = (T.inodeTable x).ident ∧
    (T'.inodeTable x).pipe = (T.inodeTable x).pipe

section Bared

variable {T T' U : Tables} {kept refs : List Nat} {i root dir x j : Nat} {d dev : Int}

/-- What the other super blocks point to. -/
def Tables.otherMounts (T : Tables) (i : Nat) : List Nat :=
  ((List.range SUPER_NR).erase i).flatMap fun j => (T.superTable j).refs

theorem Tables.mounts_perm (hlt : i < SUPER_NR) (hi : (T.superTable i).dev ≠ devEOF)
    (hr : (T.superTable i).iroot = some root) (hm : (T.superTable i).imount = some dir) :
    T.mounts.Perm (root :: dir :: T.otherMounts i) := by
  have h := flatMap_pick List.nodup_range (List.mem_range.mpr hlt) (f := fun j => (T.superTable j).refs)
    (g := fun j => (T.superTable j).refs) fun _ _ => rfl
  have hrefs : (T.superTable i).refs = [root, dir] := by
    rw [SuperBlock.refs, if_neg hi, hr, hm]
    rfl
  rw [hrefs] at h
  exact h

theorem Tables.mem_otherMounts (hlt : j < SUPER_NR) (hji : j ≠ i) (hj : (T.superTable j).dev ≠ devEOF)
    (hx : (T.superTable j).iroot = some x ∨ (T.superTable j).imount = some x) : x ∈ T.otherMounts i := by
  refine List.mem_flatMap.mpr ⟨j, (List.mem_erase_of_ne hji).mpr (List.mem_range.mpr hlt), ?_⟩
  rw [SuperBlock.refs, if_neg hj, List.mem_append, Option.mem_toList, Option.mem_toList]
  exact hx

theorem Tables.Bared.mounts (h : T.Bared T' kept i root dir) (hlt : i < SUPER_NR) :
    T'.mounts.Perm (T.otherMounts i) := by
  have hp := flatMap_pick List.nodup_range (List.mem_range.mpr hlt) (f := fun j => (T.superTable j).refs)
    (g := fun j => (T'.superTable j).refs) fun j hj => by
      unfold SuperBlock.refs
      rw [h.supers j hj]
  have hnil : (T'.superTable i).refs = [] := if_pos h.super.1
  rw [hnil, List.nil_append] at hp
  exact hp

theorem Tables.Bared.getSuper (h : T.Bared T' kept i root dir) (hd : dev ≠ devEOF)
    (hi : dev ≠ (T.superTable i).dev) : T'.getSuper dev = T.getSuper dev := by
  unfold Tables.getSuper
  congr 1
  funext j
  by_cases e : j = i
  · rw [e, h.super.1]
    simp [hd.symm, hi.symm]
  · rw [h.supers j e]

/-- **The other file systems stay mounted**, where no inode of the device is left. -/
theorem Mounted.bared (h : Mounted T) (hb : T.Bared T' kept i root dir)
    (hmo : ∀ x ∈ T.otherMounts i, x ∈ kept)
    (hone : ∀ x ∈ kept, (T.inodeTable x).pipe = false →
      (T.inodeTable x).dev ≠ devEOF ∧ (T.inodeTable x).dev ≠ (T.superTable i).dev) : Mounted T' := by
  have hold : ∀ j, j ≠ i → (T'.superTable j).dev = (T.superTable j).dev ∧
      (T'.superTable j).iroot = (T.superTable j).iroot ∧ (T'.superTable j).imount = (T.superTable j).imount :=
    fun j hj => by
      rw [hb.supers j hj]
      exact ⟨rfl, rfl, rfl⟩
  have hne : ∀ {j}, (T'.superTable j).dev ≠ devEOF → j ≠ i := fun hj e => hj (e ▸ hb.super.1)
  have hkeep : ∀ j, j ≠ i → (T.superTable j).dev ≠ devEOF → ∀ x, (T.superTable j).iroot = some x ∨
      (T.superTable j).imount = some x → x ∈ kept := fun j hji hj x hx =>
    hmo x (Tables.mem_otherMounts (h.bound j hj) hji hj hx)
  refine ⟨fun j hj => ?_, fun j hj => ?_, fun j hj => ?_, fun j hj => ?_, fun x hx => ?_,
    fun j hj m hm hnr => ?_⟩
  · have hji := hne hj
    rw [(hold j hji).1] at hj
    exact h.bound j hj
  · have hji := hne hj
    rw [(hold j hji).1] at hj
    obtain ⟨r, hr, hdev, hnr, hp⟩ := h.roots j hj
    obtain ⟨hid, hpipe⟩ := hb.core r (hkeep j hji hj r (.inl hr))
    obtain ⟨hid, hid'⟩ := Ident.mk.inj hid
    rw [(hold j hji).1, (hold j hji).2.1]
    exact ⟨r, hr, hid.trans hdev, hid'.trans hnr, hpipe.trans hp⟩
  · have hji := hne hj
    rw [(hold j hji).1] at hj
    obtain ⟨m, hm, hp⟩ := h.covers j hj
    obtain ⟨-, hpipe⟩ := hb.core m (hkeep j hji hj m (.inr hm))
    rw [(hold j hji).2.2]
    exact ⟨m, hm, hpipe.trans hp⟩
  · by_cases e : j = i
    · rw [e]
      exact hb.super.2
    · rw [(hold j e).1] at hj
      rw [(hold j e).2.1, (hold j e).2.2]
      exact h.spare j hj
  · rw [hb.mount x] at hx
    split at hx
    · exact absurd rfl hx
    · rename_i hxd
      obtain ⟨j, hj, hm⟩ := h.covered x hx
      have hji : j ≠ i := fun e => hxd (Option.some.inj ((e ▸ hm).symm.trans hb.imount))
      exact ⟨j, by rw [(hold j hji).1]; exact hj, by rw [(hold j hji).2.2]; exact hm⟩
  · have hji := hne hj
    rw [(hold j hji).1] at hj
    rw [(hold j hji).2.2] at hm
    obtain ⟨m', hm', hp⟩ := h.covers j hj
    obtain rfl := Option.some.inj (hm.symm.trans hm')
    have hmk := hkeep j hji hj m (.inr hm)
    obtain ⟨hid, -⟩ := hb.core m hmk
    obtain ⟨hid, hid'⟩ := Ident.mk.inj hid
    rw [hid'] at hnr
    obtain ⟨k, hk, hkm⟩ := h.rooted j hj m hm hnr
    obtain ⟨hlive, hother⟩ := hone m hmk hp
    have hki : k ≠ i := fun e => hother (e ▸ (getSuper_dev hk).symm)
    refine ⟨k, ?_, by rw [(hold k hki).2.2]; exact hkm⟩
    rw [hid, hb.getSuper hlive hother]
    exact hk

/-- The device of a super block does not matter to `iput`. -/
theorem PutAway.setDev (h : PutAway (T.setSuper i { T.superTable i with dev := d }) x T') :
    ∃ U, PutAway T x U ∧ T' = U.setSuper i { U.superTable i with dev := d } := by
  cases h with
  | kept hn => exact ⟨_, .kept hn, rfl⟩
  | emptied hz hp => exact ⟨_, .emptied hz hp, rfl⟩
  | freed hz hp j hj =>
    have hlist : ((T.setSuper i { T.superTable i with dev := d }).superTable j).inodeList =
        (T.superTable j).inodeList := by
      by_cases e : j = i
      · simp [Tables.setSuper, e]
      · simp [Tables.setSuper, e]
    have hj' : x ∈ (T.superTable j).inodeList := hlist ▸ hj
    refine ⟨_, PutAway.freed (T := T) hz hp j hj', ?_⟩
    by_cases e : j = i
    · subst e
      simp [Tables.setSuper, Tables.setInode]
    · simp [Tables.setSuper, Tables.setInode, e, Ne.symm e, Function.update_comm e]

theorem getSuper_dropSuper (h : U.getSuper dev = some j) (hji : j ≠ i) (hd : dev ≠ devEOF) :
    (U.setSuper i { U.superTable i with dev := devEOF }).getSuper dev = some j := by
  obtain ⟨hj, hmem, hlt⟩ := List.find?_range_eq_some.mp h
  refine List.find?_range_eq_some.mpr ⟨by simpa [Tables.setSuper, hji] using hj, hmem, fun k hk => ?_⟩
  by_cases e : k = i
  · simp [Tables.setSuper, e, hd.symm]
  · simpa [Tables.setSuper, e] using hlt k hk

/-- **A super block that has no inodes is freed.** -/
theorem Owned.dropSuper (h : Owned U refs) (hl : (U.superTable i).inodeList = []) :
    Owned (U.setSuper i { U.superTable i with dev := devEOF }) refs := by
  refine h.supers rfl (fun j => ?_) fun j hj => ⟨funext fun nr => ?_, ?_⟩
  · by_cases e : j = i
    · simp [Tables.setSuper, e]
    · simp [Tables.setSuper, e]
  · by_cases e : j = i
    · simp [Tables.setSuper, e, inodeBlock]
    · simp [Tables.setSuper, e]
  · obtain ⟨y, hy⟩ := List.exists_mem_of_ne_nil _ hj
    have hhome := h.placed.home j y hy
    rw [getSuper_dev hhome, hhome]
    exact getSuper_dropSuper hhome (fun e => hj (e ▸ hl)) (h.lists.listed j y hy).1

end Bared

/-! ## 2. A file system is taken down -/

section Down

variable {k k₁ k₂ : Kernel} {T' : Tables} {kept : List Nat} {i root dir x : Nat} {dev : Int} {u v : Unit}

/-- A super block loses its root, or what it is mounted on. -/
theorem Owned.setMounted {T : Tables} {refs : List Nat} (h : Owned T refs) (r m : Option Nat) :
    Owned (T.setSuper i { T.superTable i with iroot := r, imount := m }) refs := by
  refine h.supers rfl (fun j => ?_) fun j _ => ⟨funext fun nr => ?_, getSuper_congr (fun j => ?_) _⟩
  all_goals by_cases e : j = i
  all_goals simp [Tables.setSuper, e, inodeBlock]

/-- Where the root is the only inode of its file system in memory, no other reference leads there. -/
theorem Owned.alone {T : Tables} {refs : List Nat} (h : Owned T refs) (hi : T.getSuper dev = some i)
    (hlen : (T.superTable i).inodeList.length ≤ 1) {y z : Nat} (hy : y ∈ refs)
    (hp : (T.inodeTable y).pipe = false) (hdev : (T.inodeTable y).dev = dev) (hz : z ∈ refs)
    (hp' : (T.inodeTable z).pipe = false) (hdev' : (T.inodeTable z).dev = dev) : y = z := by
  by_contra e
  have hlong := (one_lt_length_iff (h.lists.nodup i)).mpr
    ⟨y, (h.mem_list hi).mpr ⟨hy, hp, hdev⟩, z, (h.mem_list hi).mpr ⟨hz, hp', hdev'⟩, e⟩
  omega

/-- **The tables before the super block is freed**: it has no root any more and is mounted nowhere. -/
structure Tables.Taken (T U : Tables) (kept : List Nat) (i dir : Nat) : Prop where
  super : ∀ j, U.superTable j = { T.superTable j with
    iroot := if j = i then none else (T.superTable j).iroot
    imount := if j = i then none else (T.superTable j).imount
    inodeList := (U.superTable j).inodeList }
  mount : ∀ y, (U.inodeTable y).mount = if y = dir then 0 else (T.inodeTable y).mount
  core : ∀ y ∈ kept, (U.inodeTable y).ident = (T.inodeTable y).ident ∧
    (U.inodeTable y).pipe = (T.inodeTable y).pipe
  task : U.task = T.task
  running : U.running = T.running
  file : U.fileTable = T.fileTable

/-- **A file system is taken down**, and every reference that is left is counted. -/
theorem taken_tables (ho : Owned k.tab (x :: root :: dir :: kept)) (hm : Mounted k.tab)
    (hiroot : (k.tab.superTable i).iroot = some root) (himount : (k.tab.superTable i).imount = some dir)
    (hmo : ∀ y ∈ k.tab.otherMounts i, y ∈ kept)
    (h₁ : Ends (iput? (k.tab.superTable i).iroot) k u k₁)
    (h₂ : Ends (iput dir) ((k₁.setSuper i { k₁.tab.superTable i with iroot := none }).setInode dir
      { k₁.tab.inodeTable dir with mount := 0 }) v k₂)
    (h₃ : PutAway ((k₂.tab.setSuper i { k₂.tab.superTable i with imount := none }).setSuper i
      { (k₂.tab.setSuper i { k₂.tab.superTable i with imount := none }).superTable i with dev := devEOF }) x T') :
    ∃ U, T' = U.setSuper i { U.superTable i with dev := devEOF } ∧ Owned U kept ∧ k.tab.Taken U kept i dir := by
  have hcovered : ∀ y, (k.tab.inodeTable y).mount ≠ 0 → y ≠ dir → y ∈ kept := fun y hy hyd => by
    obtain ⟨j, hj, hjm⟩ := hm.covered y hy
    have hji : j ≠ i := fun e => hyd (Option.some.inj ((e ▸ hjm).symm.trans himount))
    exact hmo y (Tables.mem_otherMounts (hm.bound j hj) hji hj (.inr hjm))
  obtain ⟨-, -, hmount⟩ := unmounted_tables h₁ h₂
  rw [hiroot] at h₁
  have hput₁ := iput_putAway h₁
  have hput₂ := iput_putAway h₂
  have ha₁ := hput₁.around
  have ha₂ := hput₂.around
  -- the root goes
  have hp₁ : (x :: root :: dir :: kept).Perm (root :: dir :: x :: kept) :=
    (List.Perm.swap _ _ _).trans ((List.Perm.swap _ _ _).cons root)
  obtain ⟨ho₁, hc₁⟩ := hput₁.owned (ho.perm hp₁) fun hr => not_not.mp fun e =>
    hr (by simp [hcovered root e fun hrd => hr (by simp [hrd])])
  -- what it was mounted on goes
  have hmid := (ho₁.setMounted (i := i) none (k₁.tab.superTable i).imount).setMount (x := dir) (m := 0)
    List.mem_cons_self (by decide)
  obtain ⟨ho₂, hc₂⟩ := hput₂.owned hmid fun _ => by simp [Tables.setInode]
  -- the target goes
  have ho₂' := ho₂.setMounted (i := i) (k₂.tab.superTable i).iroot none
  obtain ⟨U, hU, rfl⟩ := h₃.setDev
  have hx : x ∉ kept → (k₂.tab.inodeTable x).mount = 0 := fun hx => by
    rw [hmount x]
    split
    · rfl
    · rename_i hxd
      exact not_not.mp fun e => hx (hcovered x e hxd)
  obtain ⟨ho₃, hc₃⟩ := hU.owned ho₂' hx
  have hcore : ∀ y ∈ kept, (U.inodeTable y).ident = (k.tab.inodeTable y).ident ∧
      (U.inodeTable y).pipe = (k.tab.inodeTable y).pipe := fun y hy => by
    obtain ⟨n₁, hn₁⟩ := hc₁ y (List.mem_cons_of_mem _ (List.mem_cons_of_mem _ hy))
    obtain ⟨n₂, hn₂⟩ := hc₂ y (List.mem_cons_of_mem _ hy)
    obtain ⟨n₃, hn₃⟩ := hc₃ y hy
    have hmid : (((k₁.tab.setSuper i { k₁.tab.superTable i with iroot := none }).setInode dir
        { k₁.tab.inodeTable dir with mount := 0 }).inodeTable y).ident = (k₁.tab.inodeTable y).ident ∧
        (((k₁.tab.setSuper i { k₁.tab.superTable i with iroot := none }).setInode dir
        { k₁.tab.inodeTable dir with mount := 0 }).inodeTable y).pipe = (k₁.tab.inodeTable y).pipe := by
      by_cases e : y = dir
      · simp [Tables.setInode, e, Inode.ident]
      · simp [Tables.setInode, Tables.setSuper, e]
    have hlast : (U.inodeTable y).ident = (k₂.tab.inodeTable y).ident ∧
        (U.inodeTable y).pipe = (k₂.tab.inodeTable y).pipe := by
      rw [hn₃]
      exact ⟨rfl, rfl⟩
    have hnext : (k₂.tab.inodeTable y).ident = (k₁.tab.inodeTable y).ident ∧
        (k₂.tab.inodeTable y).pipe = (k₁.tab.inodeTable y).pipe := by
      rw [hn₂]
      exact hmid
    have hfirst : (k₁.tab.inodeTable y).ident = (k.tab.inodeTable y).ident ∧
        (k₁.tab.inodeTable y).pipe = (k.tab.inodeTable y).pipe := by
      rw [hn₁]
      exact ⟨rfl, rfl⟩
    exact ⟨hlast.1.trans (hnext.1.trans hfirst.1), hlast.2.trans (hnext.2.trans hfirst.2)⟩
  have hsup : ∀ j, U.superTable j = { k.tab.superTable j with
      iroot := if j = i then none else (k.tab.superTable j).iroot
      imount := if j = i then none else (k.tab.superTable j).imount
      inodeList := (U.superTable j).inodeList } := fun j => by
    rw [hU.around.super j]
    by_cases e : j = i
    · rw [e, if_pos rfl, if_pos rfl]
      simp only [Tables.setSuper, Function.update_self]
      rw [ha₂.super i]
      simp only [Tables.setSuper, Tables.setInode, Function.update_self]
      rw [ha₁.super i]
    · rw [if_neg e, if_neg e]
      simp only [Tables.setSuper, Function.update_of_ne e]
      rw [ha₂.super j]
      simp only [Tables.setSuper, Tables.setInode, Function.update_of_ne e]
      rw [ha₁.super j]
  exact ⟨U, rfl, ho₃, hsup, fun y => (hU.around.mount y).trans (hmount y), hcore,
    hU.around.task.trans (ha₂.task.trans ha₁.task), hU.around.running.trans (ha₂.running.trans ha₁.running),
    hU.around.file.trans (ha₂.file.trans ha₁.file)⟩

/-- **What a successful `sys_umount` makes of the tables** where no other reference leads to the root: a super
    block less, and every reference that is left is counted. -/
theorem Tables.Taken.bared {T U : Tables} {refs : List Nat} (h : T.Taken U kept i dir) (ho : Owned T refs)
    (ho' : Owned U kept) (hm : Mounted T) (hi : (T.superTable i).dev ≠ devEOF)
    (hget : T.getSuper (T.superTable i).dev = some i) (hiroot : (T.superTable i).iroot = some root)
    (himount : (T.superTable i).imount = some dir) (hroot : root ∈ refs) (hkept : ∀ y ∈ kept, y ∈ refs)
    (hgone : root ∉ kept) (hmo : ∀ y ∈ T.otherMounts i, y ∈ kept)
    (hlen : (T.superTable i).inodeList.length ≤ 1) :
    Owned (U.setSuper i { U.superTable i with dev := devEOF }) kept ∧
      T.Bared (U.setSuper i { U.superTable i with dev := devEOF }) kept i root dir ∧
        Mounted (U.setSuper i { U.superTable i with dev := devEOF }) := by
  obtain ⟨r, hr, hrdev, hrnr, hrp⟩ := hm.roots i hi
  obtain rfl := Option.some.inj (hr.symm.trans hiroot)
  -- of its device nothing else is in memory
  have hone : ∀ y ∈ kept, (T.inodeTable y).pipe = false →
      (T.inodeTable y).dev ≠ devEOF ∧ (T.inodeTable y).dev ≠ (T.superTable i).dev := fun y hy hp =>
    ⟨(ho.live y).mpr (hkept y hy), fun e => hgone (ho.alone hget hlen (hkept y hy) hp e hroot hrp hrdev ▸ hy)⟩
  have hempty : (U.superTable i).inodeList = [] := List.eq_nil_iff_forall_not_mem.mpr fun y hy => by
    have hmem := ho'.listed hy
    obtain ⟨hident, hpipe⟩ := h.core y hmem
    have hp := (ho'.lists.listed i y hy).2
    rw [hpipe] at hp
    refine (hone y hmem hp).2 ?_
    have hdev : (T.inodeTable y).dev = (U.inodeTable y).dev := (congrArg Ident.dev hident).symm
    rw [hdev, ← getSuper_dev (ho'.placed.home i y hy), h.super i]
  have hbared : T.Bared (U.setSuper i { U.superTable i with dev := devEOF }) kept i r dir := by
    refine ⟨hiroot, himount, hgone, ⟨?_, ?_, ?_⟩, fun j hj => ?_, h.mount, h.core⟩
    · simp [Tables.setSuper]
    · simp only [Tables.setSuper, Function.update_self]
      exact (congrArg SuperBlock.iroot (h.super i)).trans (if_pos rfl)
    · simp only [Tables.setSuper, Function.update_self]
      exact (congrArg SuperBlock.imount (h.super i)).trans (if_pos rfl)
    · simp only [Tables.setSuper, Function.update_of_ne hj]
      have h := h.super j
      rw [if_neg hj, if_neg hj] at h
      exact h
  exact ⟨ho'.dropSuper hempty, hbared, hm.bared hbared hmo hone⟩

/-- Where another reference leads to the root, it stays in memory, and its device has no super block. -/
theorem Tables.Taken.orphan {T U : Tables} (h : T.Taken U kept i dir) (ho' : Owned U kept) (hm : Mounted T)
    (hi : (T.superTable i).dev ≠ devEOF) (hget : T.getSuper (T.superTable i).dev = some i)
    (hiroot : (T.superTable i).iroot = some root) (hroot : root ∈ kept) :
    ¬ Placed (U.setSuper i { U.superTable i with dev := devEOF }) := by
  intro hplaced
  obtain ⟨r, hr, hrdev, -, hrp⟩ := hm.roots i hi
  obtain rfl := Option.some.inj (hr.symm.trans hiroot)
  obtain ⟨hident, hpipe⟩ := h.core r hroot
  have hdev : (U.inodeTable r).dev = (T.superTable i).dev := (congrArg Ident.dev hident).trans hrdev
  have hgetU : U.getSuper (T.superTable i).dev = some i :=
    (getSuper_congr (fun j => by rw [h.super j]) _).trans hget
  obtain ⟨j, hj⟩ := ho'.placed.onList r ((ho'.live r).mpr hroot) (hpipe.trans hrp)
  have hji : i = j := by
    have hhome := ho'.placed.home j r hj
    rw [hdev, hgetU] at hhome
    exact Option.some.inj hhome
  subst hji
  have hlist : r ∈ ((U.setSuper i { U.superTable i with dev := devEOF }).superTable i).inodeList := by
    simpa [Tables.setSuper] using hj
  have hhome := getSuper_dev (hplaced.home i r hlist)
  have hend : devEOF = (U.inodeTable r).dev := by simpa [Tables.setSuper] using hhome
  exact hi (hdev.symm.trans hend.symm)

end Down

/-! ## 3. Between two calls -/

/-- What the processes point to, and the super blocks other than `i`. -/
def System.pointersBut (S : System) (i : Nat) : List Nat :=
  S.kernel.tab.openFiles ++ (S.directories ++ S.kernel.tab.otherMounts i)

/-- **The target is idle**: it is turned away, or has no super block; or the super block that is taken down has
    one reference, and nothing but it refers to the root of the file system; or a super block in use is left
    with a reference. -/
def System.Idle (S : System) (target : List UInt8) : Prop :=
  match S.verdict target with
  | .away => True
  | .missing => True
  | .busy i => 2 ≤ S.superCount i
  | .done i => S.superCount i = 1 ∧ ∀ r ∈ S.pointersBut i, (S.kernel.tab.superTable i).iroot ≠ some r

instance (S : System) (target : List UInt8) : Decidable (S.Idle target) :=
  match h : S.verdict target with
  | .away => .isTrue (by rw [System.Idle, h]; trivial)
  | .missing => .isTrue (by rw [System.Idle, h]; trivial)
  | .busy i => decidable_of_iff (2 ≤ S.superCount i) (by rw [System.Idle, h])
  | .done i => decidable_of_iff
      (S.superCount i = 1 ∧ ∀ r ∈ S.pointersBut i, (S.kernel.tab.superTable i).iroot ≠ some r)
      (by rw [System.Idle, h])

section Idle

variable {S S' : System} {k t : Kernel} {i x root dir : Nat} {target : List UInt8} {a : Bool} {refs : List Nat}

/-- The tables have changed, and the processes point to what they pointed to. -/
theorem Settled.ofTables (hS : Settled S) {c : Nat → Nat} (htask : t.tab.task = S.kernel.tab.task)
    (hfile : t.tab.fileTable = S.kernel.tab.fileTable)
    (ho : Owned t.tab (S.kernel.tab.openFiles ++ (S.directories ++ t.tab.mounts)))
    (hplain : ∀ x ∈ S.directories, (t.tab.inodeTable x).pipe = (S.kernel.tab.inodeTable x).pipe)
    (hm : Mounted t.tab) (hc : ∀ i, (t.tab.superTable i).dev ≠ devEOF → c i ≠ 0) :
    Settled { S with kernel := t, superCount := c } := by
  obtain ⟨S', hS'⟩ : ∃ S' : System, S' = { S with kernel := t, superCount := c } := ⟨_, rfl⟩
  have hk : S'.kernel = t := by rw [hS']
  have halive : S'.alive = S.alive := System.alive_congr (by rw [hS'])
  have hentries : S'.entries = S.entries := by
    unfold System.entries
    rw [halive, hk, htask]
  have hdirs : S'.directories = S.directories := by
    unfold System.directories System.held
    rw [halive, hk, htask, hS']
  rw [← hS']
  refine ⟨⟨?_, fun f => ?_, fun f hf => hS.booking.bound f (hentries ▸ hf)⟩, fun y hy => ?_, hk ▸ hm,
    fun j hj => ?_⟩
  · rw [hk, hdirs, openFiles_congr hfile]
    exact ho
  · rw [hk, hfile, hentries]
    exact hS.booking.files f
  · rw [hdirs] at hy
    rw [hk, hplain y hy]
    exact hS.plain y hy
  · rw [hk] at hj
    rw [hS']
    exact hc j hj

/-- A call that holds nothing any more has left the system settled, whatever it has counted. -/
theorem Owns.settled (hS : Settled S) {c : Nat → Nat} (h : Owns S.kernel.tab S.pointers [] t)
    (hc : ∀ i, (S.kernel.tab.superTable i).dev ≠ devEOF → c i ≠ 0) :
    Settled { S with kernel := t, superCount := c } := by
  have hst := h.around.stays h.core
  have hmem : ∀ y ∈ S.kernel.tab.mounts, y ∈ S.pointers := fun y hy =>
    List.mem_append_right _ (List.mem_append_right _ hy)
  have hm := hst.mono hmem
  refine hS.ofTables h.around.task h.around.file ?_ (fun y hy => ?_) (hS.mounted.stays hm) fun i hi => hc i ?_
  · rw [mounts_congr hm]
    exact h.owned
  · obtain ⟨n, hn⟩ := h.core y (List.mem_append_right _ (List.mem_append_left _ hy))
    rw [hn]
  · rw [h.around.super i] at hi
    exact hi

/-- What has been put back where nothing is unmounted. -/
theorem settled_rollback (hS : Settled S) (hs : S.kernel.Ready S.pointers) {r : Option Nat} {c : Nat → Nat}
    {u : Unit} (hk : Ends (namei target) S.kernel r k) (ht : Ends (iput? r) k u t)
    (hc : ∀ i, (S.kernel.tab.superTable i).dev ≠ devEOF → c i ≠ 0) :
    Settled { S with kernel := t, superCount := c } := by
  obtain ⟨hw, -⟩ := hs.walking.arrives hs.mounted hs.rooted hs.starts hk
  exact Owns.settled hS (owns_iput? hs.rooted r _ _ _ hw.owns ht) hc

theorem iput?_none {s t : Kernel} {o : Option Nat} {u : Unit} (ho : o = none) (h : Ends (iput? o) s u t) : s = t := by
  subst ho
  exact (runs_pure.mp h).2

/-- A file system is taken down, on the last reference to its super block. -/
theorem settled_taken (hS : Settled S) (hs : S.kernel.Ready S.pointers) (hk : Ends (namei target) S.kernel (some x) k)
    (hi : S.Mounts i) {k₁ k₂ : Kernel} (hm : (k.tab.superTable i).imount = some dir)
    (hlen : (k.tab.superTable i).inodeList.length ≤ 1)
    (h₁ : Ends (iput? (k.tab.superTable i).iroot) k () k₁)
    (h₂ : Ends (iput dir) ((k₁.setSuper i { k₁.tab.superTable i with iroot := none }).setInode dir
      { k₁.tab.inodeTable dir with mount := 0 }) () k₂)
    (h : Ends (superRollback (some i) (some x) true)
      { S with kernel := k₂.setSuper i { k₂.tab.superTable i with imount := none } } true S')
    (hn : S.superCount i = 1) :
    Settled S' ↔ ∀ r ∈ S.pointersBut i, (S.kernel.tab.superTable i).iroot ≠ some r := by
  obtain ⟨hw, -⟩ := hs.walking.arrives hs.mounted hs.rooted hs.starts hk
  rw [List.append_nil] at hw
  have ha := hw.owns.around
  have hmk : Mounted k.tab := (hw.stays hs.mounted hs.rooted).1
  have hsame : (k.tab.superTable i).dev = (S.kernel.tab.superTable i).dev ∧
      (k.tab.superTable i).iroot = (S.kernel.tab.superTable i).iroot := by
    rw [ha.super i]
    exact ⟨rfl, rfl⟩
  have hi₁ : (k.tab.superTable i).dev ≠ devEOF := by rw [hsame.1]; exact hi.1
  have hi₂ : k.tab.getSuper (k.tab.superTable i).dev = some i := by rw [hsame.1, ha.getSuper]; exact hi.2
  obtain ⟨root, hroot, -⟩ := hmk.roots i hi₁
  have hother : k.tab.otherMounts i = S.kernel.tab.otherMounts i := by
    unfold Tables.otherMounts SuperBlock.refs
    refine List.flatMap_congr fun j _ => ?_
    rw [ha.super j]
  have hmounts : k.tab.mounts = S.kernel.tab.mounts := by
    unfold Tables.mounts SuperBlock.refs
    refine List.flatMap_congr fun j _ => ?_
    rw [ha.super j]
  have hperm : S.pointers.Perm (root :: dir :: S.pointersBut i) := by
    have h := Tables.mounts_perm (hmk.bound i hi₁) hi₁ hroot hm
    rw [hmounts, hother] at h
    refine (((h.append_left S.directories).append_left S.kernel.tab.openFiles).trans ?_)
    refine List.perm_iff_count.mpr fun y => ?_
    simp only [System.pointersBut, List.count_append, List.count_cons]
    omega
  have ho : Owned k.tab (x :: root :: dir :: S.pointersBut i) := hw.owns.owned.perm (hperm.cons x)
  have hmo : ∀ y ∈ k.tab.otherMounts i, y ∈ S.pointersBut i := fun y hy =>
    List.mem_append_right _ (List.mem_append_right _ (hother ▸ hy))
  have hkept : ∀ y ∈ S.pointersBut i, y ∈ x :: root :: dir :: S.pointersBut i := fun y hy => by simp [hy]
  -- the super block goes, with the target
  obtain ⟨S₁, hput, t, ht, -, rfl⟩ := ends_superRollback h
  obtain ⟨k₃, k₄, k₅, h₃, h₄, h₅, rfl⟩ := ends_putSuper_last hput hn
  have hnone : ((k₂.setSuper i { k₂.tab.superTable i with imount := none }).tab.superTable i).iroot = none ∧
      ((k₂.setSuper i { k₂.tab.superTable i with imount := none }).tab.superTable i).imount = none := by
    simp [Tables.setSuper, (unmounted_tables h₁ h₂).2.1]
  obtain rfl := iput?_none hnone.2 h₃
  obtain rfl := iput?_none hnone.1 h₄
  have hlast : PutAway ((k₂.tab.setSuper i { k₂.tab.superTable i with imount := none }).setSuper i
      { (k₂.tab.setSuper i { k₂.tab.superTable i with imount := none }).superTable i with dev := devEOF }) x
      t.tab := by
    have hput := iput_putAway ht
    rw [h₅] at hput
    exact hput
  obtain ⟨U, hU, hoU, htaken⟩ := taken_tables ho hmk hroot hm hmo h₁ h₂ hlast
  have hiff : (∀ r ∈ S.pointersBut i, (S.kernel.tab.superTable i).iroot ≠ some r) ↔
      root ∉ S.pointersBut i := by
    rw [← hsame.2, hroot]
    exact ⟨fun h hr => h root hr rfl, fun h r hr e => h (Option.some.inj e ▸ hr)⟩
  rw [hiff]
  by_cases hgone : root ∈ S.pointersBut i
  · refine iff_of_false (fun hS' => ?_) (not_not.mpr hgone)
    refine htaken.orphan hoU hmk hi₁ hi₂ hroot hgone ?_
    rw [← hU]
    exact hS'.booking.owned.placed
  · refine iff_of_true ?_ hgone
    obtain ⟨hot, hbared, hmt⟩ := htaken.bared ho hoU hmk hi₁ hi₂ hroot hm (by simp) hkept hgone hmo hlen
    rw [← hU] at hot hbared hmt
    refine hS.ofTables ?_ ?_ ?_ (fun y hy => ?_) hmt fun j hj => ?_
    · rw [hU]
      exact htaken.task.trans ha.task
    · rw [hU]
      exact htaken.file.trans ha.file
    · refine hot.perm ?_
      have h := hbared.mounts (hmk.bound i hi₁)
      rw [hother] at h
      exact ((h.symm.append_left S.directories).append_left S.kernel.tab.openFiles)
    · have hmem : y ∈ S.pointersBut i := List.mem_append_right _ (List.mem_append_left _ hy)
      obtain ⟨n, hn⟩ := hw.owns.core y (List.mem_append_right _ (List.mem_append_left _ hy))
      rw [(hbared.core y hmem).2, hn]
    · by_cases e : j = i
      · exact absurd (e ▸ hbared.super.1) hj
      · rw [hbared.supers j e, ha.super j] at hj
        simpa [e] using hS.supers j hj

/-- Whichever way the call goes, the system is settled afterwards if and only if the target was idle. -/
theorem System.Goes.settled_iff {r : Option Nat} (hS : Settled S) (hs : S.kernel.Ready S.pointers)
    (hk : Ends (namei target) S.kernel r k) (hgoes : S.Goes target k S' r a) : Settled S' ↔ S.Idle target := by
  cases hgoes with
  | away _ hv hend =>
    rw [System.Idle, hv]
    obtain ⟨S₁, ⟨-, rfl⟩, t, ht, -, rfl⟩ := ends_superRollback hend
    exact iff_of_true (settled_rollback hS hs hk ht hS.supers) trivial
  | busy x i hv hi hend =>
    rw [System.Idle, hv]
    obtain ⟨-, hput, hroots⟩ := superPut_rollback hend
    obtain ⟨S₁, hput₁, t, ht, -, rfl⟩ := ends_superRollback hend
    by_cases hn : 2 ≤ S.superCount i
    · obtain rfl := ends_putSuper (S := { S with kernel := k }) hn hput₁
      refine iff_of_true (settled_rollback hS hs hk ht fun j hj => ?_) hn
      by_cases e : j = i
      · simp [e]
        omega
      · simpa [e] using hS.supers j hj
    · refine iff_of_false (fun hS' => ?_) hn
      have hone : S.superCount i = 1 := by
        have := hput.count
        show S.superCount i = 1
        dsimp only at this
        omega
      have hdev := hput.dev i
      rw [if_pos ⟨rfl, hone⟩] at hdev
      have hnone := (hS'.mounted.spare i hdev).1
      rw [(hroots i).1] at hnone
      obtain ⟨hw, -⟩ := hs.walking.arrives hs.mounted hs.rooted hs.starts hk
      obtain ⟨r, hr, -⟩ := hS.mounted.roots i hi.1
      have hsame : (k.tab.superTable i).iroot = (S.kernel.tab.superTable i).iroot := by
        rw [hw.owns.around.super i]
      rw [hsame, hr] at hnone
      cases hnone
  | done x i m k₁ k₂ hv hi hm hlen h₁ h₂ hend =>
    rw [System.Idle, hv]
    by_cases hn : S.superCount i = 1
    · rw [settled_taken hS hs hk hi hm hlen h₁ h₂ hend hn]
      exact (and_iff_right hn).symm
    · refine iff_of_false (fun hS' => ?_) fun h => hn h.1
      have heffect := System.Goes.effect hs hk (.done x i m k₁ k₂ hv hi hm hlen h₁ h₂ hend)
      rw [hv] at heffect
      obtain ⟨-, hput, hun⟩ := heffect
      have hdev := hput.dev i
      rw [if_neg fun h => hn h.2] at hdev
      obtain ⟨r, hr, -⟩ := hS'.mounted.roots i (hdev ▸ hi.1)
      rw [hun.iroot] at hr
      cases hr

end Idle

/-- **`sys_umount` leaves the system settled** if and only if its target is idle. -/
theorem settled_sysUmount {S S' : System} (hS : Settled S) (hrun : S.kernel.tab.running ∈ S.alive)
    {target : List UInt8} {a : Bool} (h : Ends (sysUmount target) S a S') : Settled S' ↔ S.Idle target := by
  have hs := hS.ready hrun
  obtain ⟨r, k, hk, hgoes⟩ := ends_sysUmount hs h
  exact hgoes.settled_iff hS hs hk

/-- The system's own device is in use: the call leaves a super block that is free and has a root. -/
theorem settled_sysUmount_node : Settled Sample.nodeSystem ∧
    ∃ S', Ends (sysUmount Sample.nodePath) Sample.nodeSystem false S' ∧ ¬ Settled S' := by
  have hidle : ¬ Sample.nodeSystem.Idle Sample.nodePath := by decide
  obtain ⟨a, S', h, hq⟩ := ends_of_run (p := sysUmount Sample.nodePath) (s := Sample.nodeSystem)
    (q := fun a _ => a == false) (by decide)
  obtain rfl : a = false := by simpa using hq
  exact ⟨Sample.node_settled, S', h, fun hS' =>
    hidle ((settled_sysUmount Sample.node_settled (by decide) h).mp hS')⟩

/-! ## 4. Runs with `sys_umount` -/

/-- A call of `sys_umount` finds its target idle. -/
def Idling (c : SysCall) (S : System) : Prop := ∀ target, c = .umount target → S.Idle target

/-- **Every call that finds its target idle keeps the system settled.** -/
theorem settled_idling {S S' : System} {p : Nat} {c : SysCall} (hS : Settled S) (hp : p ∈ S.alive)
    (hok : Idling c (S.turn p)) (h : Ends c.code (S.turn p) () S') : Settled S' := by
  by_cases hc : ∃ target, c = .umount target
  · obtain ⟨target, rfl⟩ := hc
    obtain ⟨a, h⟩ := ends_forEffect h
    have hs := (hS.turn p).ready hp
    obtain ⟨r, k, hk, hgoes⟩ := ends_sysUmount hs h
    exact (hgoes.settled_iff (hS.turn p) hs hk).mpr (hok target rfl)
  · exact settled_call hS hp (fun target e => hc ⟨target, e⟩) h

/-- **Every reference is counted, in every run that unmounts idle targets only**; and every inode in memory that
    is no pipe is in the list of the super block of its device, whose root is in memory, too. -/
theorem references_counted_umount {S₀ S : System} (h₀ : Settled S₀) (h : Turns Idling S₀ S) :
    (∀ f, (S.kernel.tab.fileTable f).count = S.entries.count f) ∧
      (∀ x, (S.kernel.tab.inodeTable x).count = S.pointers.count x) ∧
      ∀ x, (S.kernel.tab.inodeTable x).Live → (S.kernel.tab.inodeTable x).pipe = false →
        ∃ i r, S.kernel.tab.getSuper (S.kernel.tab.inodeTable x).dev = some i ∧
          x ∈ (S.kernel.tab.superTable i).inodeList ∧ (S.kernel.tab.superTable i).iroot = some r ∧
            (S.kernel.tab.inodeTable r).ident = ⟨(S.kernel.tab.inodeTable x).dev, 1⟩ := by
  have hS : Settled S := turns_keep (fun _ _ _ _ hS hp hok hc => settled_idling hS hp hok hc) h h₀
  have ho := hS.booking.owned
  refine ⟨hS.booking.files, ho.count, fun x hx hp => ?_⟩
  obtain ⟨i, hi⟩ := ho.placed.onList x hx hp
  have hhome := ho.placed.home i x hi
  have hdev := getSuper_dev hhome
  obtain ⟨r, hr, hrdev, hrnr, -⟩ := hS.mounted.roots i (hdev ▸ hx)
  refine ⟨i, r, hhome, hi, hr, ?_⟩
  rw [Inode.ident, hrdev, hrnr, hdev]

namespace Sample

/-- Two volumes: on the first one `b` is the node of the second one, `d` a directory. -/
def diskTwo (k : Key) : Bytes :=
  if k = ⟨dev, 2⟩ then store (fun _ => 0) 0 1 15
  else if k = ⟨dev, 4⟩ then
    descriptor 64 (IFDIR + 0o755) 32 2 6
      (descriptor 32 (IFBLK + 0o644) 0 1 2 (descriptor 0 (IFDIR + 0o755) 64 2 5 fun _ => 0))
  else if k = ⟨dev, 5⟩ then
    dentry 48 3 [100] (dentry 32 2 [98] (dentry 16 1 DOTDOT (dentry 0 1 DOT fun _ => 0)))
  else if k = ⟨2, 1⟩ then
    store (store (store (store (store (store (fun _ => 0) 0 2 31) 2 2 64) 4 2 1) 6 2 1) 8 2 5) 16 2 MINIX1_MAGIC
  else if k = ⟨2, 4⟩ then descriptor 0 (IFDIR + 0o755) 32 2 5 fun _ => 0
  else fun _ => 0

/-- One process, and the two volumes. -/
def twoSystem : System :=
  { system with
    kernel := { tidyKernel with
      cache :=
        { disk := diskTwo
          buf := fun k => ⟨none, false, if k.dev = dev ∧ k.block ∈ [1, 2, 3, 4] then 1 else 0⟩ } } }

theorem two_settled : Settled twoSystem :=
  ⟨system_settled.booking, system_settled.plain, system_settled.mounted, system_settled.supers⟩

/-- `/d`. -/
def dirPath : List UInt8 := [47, 100]

end Sample

/-- The second volume is mounted on `d`, and unmounted: its super block is free again, and so are the inodes. -/
theorem references_counted_umount_two : Settled Sample.twoSystem ∧ ∃ S, Turns Idling Sample.twoSystem S ∧
    (S.kernel.tab.superTable 1).dev = devEOF ∧ (S.kernel.tab.inodeTable 1).dev = devEOF ∧
      S.pointers.count 1 = 0 ∧ (S.kernel.tab.inodeTable 0).count = 4 ∧ S.pointers.count 0 = 4 := by
  obtain ⟨_, S₁, h₁, hq₁⟩ := ends_of_run
    (p := (SysCall.mount Sample.nodePath Sample.dirPath).code) (s := Sample.twoSystem.turn 0)
    (q := fun _ S => S.alive == [0] && decide ((S.turn 0).Idle Sample.nodePath) &&
      (run (SysCall.umount Sample.nodePath).code (S.turn 0)).toOption.any fun r =>
        (r.2.kernel.tab.superTable 1).dev == devEOF && (r.2.kernel.tab.inodeTable 1).dev == devEOF &&
          (r.2.kernel.tab.inodeTable 1).count == 0 && (r.2.kernel.tab.inodeTable 0).count == 4)
    (by decide +kernel)
  obtain ⟨hq₁, hq₂⟩ := (Bool.and_eq_true _ _).mp hq₁
  obtain ⟨hp, hidle⟩ := (Bool.and_eq_true _ _).mp hq₁
  cases hr : run (SysCall.umount Sample.nodePath).code (S₁.turn 0) with
  | error e =>
    rw [hr] at hq₂
    cases hq₂
  | ok r =>
  obtain ⟨_, S₂⟩ := r
  rw [hr] at hq₂
  simp only [Except.toOption, Option.any_some, Bool.and_eq_true, beq_iff_eq] at hq₂
  obtain ⟨⟨⟨hsuper, hdev⟩, hc₁⟩, hc₀⟩ := hq₂
  have h₂ : Ends (SysCall.umount Sample.nodePath).code (S₁.turn 0) () S₂ := ends_iff.mpr hr
  have hok₁ : Idling (.mount Sample.nodePath Sample.dirPath) (Sample.twoSystem.turn 0) := fun _ e => by cases e
  have hok₂ : Idling (.umount Sample.nodePath) (S₁.turn 0) := fun target e => by
    cases e
    exact of_decide_eq_true hidle
  have hrun : Turns Idling Sample.twoSystem S₂ :=
    ((Turns.start _).step 0 (by decide) _ hok₁ h₁).step 0
      (by rw [eq_of_beq hp]; exact List.mem_singleton.mpr rfl) _ hok₂ h₂
  obtain ⟨-, hinodes, -⟩ := references_counted_umount Sample.two_settled hrun
  exact ⟨Sample.two_settled, S₂, hrun, hsuper, hdev, by rw [← hinodes, hc₁], hc₀, by rw [← hinodes, hc₀]⟩

end Yuios
