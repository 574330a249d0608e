/-
  File:      Yuios/Fs/Holders.lean
  Subject:   WHO HOLDS WHAT: the descriptors of a process refer to open files, and open files
             refer to inodes.

  * `Booking entries others T` -- the file table counts the descriptors `entries`, the inode table
    the open files and the pointers `others`. Both lists matter up to order only.
  * `Holds T₀ p wd rt E O held s` -- in a call of the process `p`: its own descriptors are read off
    its task, `held` is what it holds besides (its directories, its program, inodes it has looked
    up); `E` and `O` belong to others.
  * One rule a call: `serves_sysOpen`, `holds_sysClose`, `serves_sysPipe`, ...
-/
import Yuios.Lib.Places
import Yuios.Fs.OwnedCalls

namespace Yuios

open Lib Prog Code

/-! ## 1. Pointers -/

/-- The files the descriptors of a process point to, one for each descriptor. -/
def Task.entries (task : Task) : List Nat :=
  (List.range TASK_FILE_NR).flatMap fun fd => (task.files fd).toList

/-- The inode an open file points to. -/
def File.refs (file : File) : List Nat := if file.count = 0 then [] else file.inode.toList

/-- The inodes the open files point to. -/
def Tables.openFiles (T : Tables) : List Nat :=
  (List.range FILE_NR).flatMap fun f => (T.fileTable f).refs

/-- What the other descriptors of a process point to when one of them is set aside. -/
theorem entries_pick {fd : Nat} (hfd : fd < TASK_FILE_NR) (task : Task) :
    ∃ R, ∀ task' : Task, (∀ i, i ≠ fd → task'.files i = task.files i) →
      task'.entries.Perm ((task'.files fd).toList ++ R) :=
  ⟨_, fun _ h => flatMap_pick List.nodup_range (List.mem_range.mpr hfd) fun i hi => by rw [h i hi]⟩

/-- A free descriptor is set. -/
theorem Task.entries_set {task : Task} {fd : Nat} (hfd : fd < TASK_FILE_NR)
    (hfree : task.files fd = none) (f : Nat) :
    (Task.entries { task with files := Function.update task.files fd (some f) }).Perm
      (f :: task.entries) := by
  obtain ⟨R, hR⟩ := entries_pick hfd task
  have h₁ := hR task fun _ _ => rfl
  have h₂ := hR { task with files := Function.update task.files fd (some f) } fun i hi =>
    Function.update_of_ne hi _ _
  simp only [hfree, Option.toList_none, List.nil_append] at h₁
  simp only [Function.update_self, Option.toList_some, List.cons_append, List.nil_append] at h₂
  exact h₂.trans (h₁.symm.cons f)

/-- A descriptor is cleared. -/
theorem Task.entries_clear {task : Task} {fd f : Nat} (hfd : fd < TASK_FILE_NR)
    (hf : task.files fd = some f) : task.entries.Perm
      (f :: Task.entries { task with files := Function.update task.files fd none }) := by
  have hfree : Task.files { task with files := Function.update task.files fd none } fd = none :=
    Function.update_self _ _ _
  have h := entries_set hfd hfree f
  simp only [Function.update_idem] at h
  rwa [← hf, Function.update_eq_self] at h

/-- What the other open files point to when one of them is set aside. -/
theorem openFiles_pick {f : Nat} (hf : f < FILE_NR) (T : Tables) :
    ∃ R, ∀ T' : Tables, (∀ g, g ≠ f → T'.fileTable g = T.fileTable g) →
      T'.openFiles.Perm ((T'.fileTable f).refs ++ R) :=
  ⟨_, fun _ h => flatMap_pick List.nodup_range (List.mem_range.mpr hf) fun g hg => by rw [h g hg]⟩

theorem openFiles_congr {T T' : Tables} (h : T'.fileTable = T.fileTable) :
    T'.openFiles = T.openFiles := by
  unfold Tables.openFiles
  rw [h]

/-- A descriptor that is set. -/
theorem Task.mem_entries {task : Task} {f fd : Nat} (hfd : fd < TASK_FILE_NR)
    (h : task.files fd = some f) : f ∈ task.entries :=
  List.mem_flatMap.mpr ⟨fd, List.mem_range.mpr hfd, by simp [h]⟩

/-- No descriptor is set. -/
theorem Task.entries_nil {task : Task} (h : ∀ fd < TASK_FILE_NR, task.files fd = none) :
    task.entries = [] :=
  List.flatMap_eq_nil_iff.mpr fun fd hfd => by simp [h fd (List.mem_range.mp hfd)]

/-! ## 2. The two tables -/

/-- Tasks and files do not matter to the inode table. -/
theorem Owned.congr {T T' : Tables} {refs : List Nat} (h : Owned T refs)
    (hi : T'.inodeTable = T.inodeTable) (hs : T'.superTable = T.superTable) : Owned T' refs :=
  h.supers hi (fun j => by rw [hs]) fun j _ =>
    ⟨by rw [hs], getSuper_congr (fun _ => by rw [hs]) _⟩

/-- Super blocks but for their lists, mount fields, and the inodes in `refs` but for their counts
    are as they were. -/
structure Tables.Stays (T T' : Tables) (refs : List Nat) : Prop where
  super : ∀ i, T'.superTable i =
    { T.superTable i with inodeList := (T'.superTable i).inodeList }
  mount : ∀ x, (T'.inodeTable x).mount = (T.inodeTable x).mount
  core : T.Core T' refs

section Stays

variable {T T' T'' : Tables} {refs refs' : List Nat}

theorem Tables.Around.stays (h : T.Around T') (hc : T.Core T' refs) : T.Stays T' refs :=
  ⟨h.super, h.mount, hc⟩

theorem Tables.Stays.refl (T : Tables) (refs : List Nat) : T.Stays T refs :=
  ⟨fun _ => rfl, fun _ => rfl, .refl T refs⟩

theorem Tables.Stays.trans (h : T.Stays T' refs) (h' : T'.Stays T'' refs) : T.Stays T'' refs :=
  ⟨fun i => by rw [h'.super i, h.super i], fun x => (h'.mount x).trans (h.mount x),
    h.core.trans h'.core⟩

theorem Tables.Stays.mono (h : T.Stays T' refs) (hsub : ∀ x ∈ refs', x ∈ refs) : T.Stays T' refs' :=
  ⟨h.super, h.mount, fun y hy => h.core y (hsub y hy)⟩

/-- Tasks and files do not matter. -/
theorem Tables.Stays.of_eq (hi : T'.inodeTable = T.inodeTable) (hs : T'.superTable = T.superTable) :
    T.Stays T' refs :=
  ⟨fun i => by rw [hs], fun x => by rw [hi], fun y _ => ⟨_, by rw [hi]⟩⟩

/-- Neither do counts. -/
theorem Tables.stays_count (T : Tables) (x n : Nat) (refs : List Nat) :
    T.Stays (T.setInode x { T.inodeTable x with count := n }) refs := by
  have ha : T.Around (T.setInode x { T.inodeTable x with count := n }) := Tables.around_setInode rfl
  exact ha.stays (Tables.core_setInode (.inr ⟨n, rfl⟩))

theorem Tables.Stays.getSuper (h : T.Stays T' refs) (dev : Int) : T'.getSuper dev = T.getSuper dev :=
  getSuper_congr (fun i => by rw [h.super i]) dev

theorem Rooted.mono (h : Rooted T refs) (hsub : ∀ x ∈ refs, x ∈ refs') : Rooted T refs' where
  roots i hi y hy := ⟨hsub y (h.roots i hi y hy).1, (h.roots i hi y hy).2⟩
  covered x hx := hsub x (h.covered x hx)
  covers := h.covers

theorem Rooted.stays (h : Rooted T refs) (hs : T.Stays T' refs) : Rooted T' refs := by
  refine ⟨fun i hi y hy => ?_, fun x hx => ?_, fun i hi m hm hnr => ?_⟩
  · rw [hs.super i] at hi hy
    obtain ⟨hy, hp⟩ := h.roots i hi y hy
    obtain ⟨n, hn⟩ := hs.core y hy
    exact ⟨hy, by rw [hn]; exact hp⟩
  · rw [hs.mount x] at hx
    exact h.covered x hx
  · rw [hs.super i] at hi hm
    obtain ⟨n, hn⟩ := hs.core m (h.roots i hi m (.inr hm)).1
    rw [hn] at hnr ⊢
    obtain ⟨j, hj, hjm⟩ := h.covers i hi m hm hnr
    refine ⟨j, (hs.getSuper _).trans hj, ?_⟩
    rw [hs.super j]
    exact hjm

end Stays

/-- **The references are counted**: `entries` are the descriptors, `others` what points to inodes
    besides the open files. -/
structure Booking (entries others : List Nat) (T : Tables) : Prop where
  owned : Owned T (T.openFiles ++ others)
  files : ∀ f, (T.fileTable f).count = entries.count f
  bound : ∀ f ∈ entries, f < FILE_NR

section Booking

variable {T T' : Tables} {entries entries' others others' : List Nat} {x y f : Nat} {file : File}

theorem Booking.perm (h : Booking entries others T) (he : entries.Perm entries')
    (ho : others.Perm others') : Booking entries' others' T where
  owned := h.owned.perm (ho.append_left _)
  files f := (h.files f).trans (he.count_eq f)
  bound f hf := h.bound f (he.mem_iff.mpr hf)

theorem Booking.count_ne (h : Booking entries others T) :
    (T.fileTable f).count ≠ 0 ↔ f ∈ entries := by
  rw [h.files f, ← List.count_pos_iff, Nat.pos_iff_ne_zero]

/-- The tasks do not matter. -/
theorem Booking.congr (h : Booking entries others T) (hi : T'.inodeTable = T.inodeTable)
    (hs : T'.superTable = T.superTable) (hf : T'.fileTable = T.fileTable) :
    Booking entries others T' where
  owned := by
    rw [openFiles_congr hf]
    exact h.owned.congr hi hs
  files f := by rw [hf, h.files f]
  bound := h.bound

/-- **One file changes**, and with it what it points to. -/
theorem Booking.change (h : Booking entries others T) (hi : T'.inodeTable = T.inodeTable)
    (hs : T'.superTable = T.superTable) (hf : T'.fileTable = Function.update T.fileTable f file)
    (hlt : f < FILE_NR) (hcount : file.count = entries'.count f)
    (ho : ∀ g, g ≠ f → entries'.count g = entries.count g)
    (hrefs : ((T.fileTable f).refs ++ others).Perm (file.refs ++ others')) :
    Booking entries' others' T' := by
  obtain ⟨R, hR⟩ := openFiles_pick hlt T
  have h₁ := hR T fun _ _ => rfl
  have h₂ := hR T' fun g hg => by rw [hf, Function.update_of_ne hg]
  rw [hf, Function.update_self] at h₂
  refine ⟨(h.owned.congr hi hs).perm ?_, fun g => ?_, fun g hg => ?_⟩
  · have h₃ := h₁.append_right others
    have h₄ := h₂.append_right others'
    refine h₃.trans (.trans ?_ h₄.symm)
    have hswap : ∀ A B : List Nat, (A ++ R ++ B).Perm (R ++ (A ++ B)) := fun A B => by
      rw [← List.append_assoc]
      exact List.perm_append_comm.append_right B
    exact (hswap _ _).trans ((hrefs.append_left R).trans (hswap _ _).symm)
  · rw [hf]
    by_cases e : g = f
    · rw [e, Function.update_self, hcount]
    · rw [Function.update_of_ne e, h.files g, ho g e]
  · by_cases e : g = f
    · exact e ▸ hlt
    · refine h.bound g (List.count_pos_iff.mp ?_)
      rw [← ho g e]
      exact List.count_pos_iff.mpr hg

/-- A free file is opened on an inode that is held. -/
theorem Booking.opened (h : Booking entries (x :: others) T) (hi : T'.inodeTable = T.inodeTable)
    (hs : T'.superTable = T.superTable) (hf : T'.fileTable = Function.update T.fileTable f file)
    (hlt : f < FILE_NR) (hfree : (T.fileTable f).count = 0) (hc : file.count = 1)
    (hx : file.inode = some x) : Booking (f :: entries) others T' := by
  refine h.change hi hs hf hlt ?_ (fun g hg => by simp [hg.symm]) ?_
  · rw [hc, List.count_cons_self, ← h.files f, hfree]
  · simp [File.refs, hfree, hc, hx]

/-- One descriptor more for an open file. -/
theorem Booking.shared (h : Booking entries others T) (hi : T'.inodeTable = T.inodeTable)
    (hs : T'.superTable = T.superTable) (hm : f ∈ entries)
    (hf : T'.fileTable = Function.update T.fileTable f
      { T.fileTable f with count := (T.fileTable f).count + 1 }) :
    Booking (f :: entries) others T' := by
  refine h.change hi hs hf (h.bound f hm) ?_ (fun g hg => by simp [hg.symm]) ?_
  · rw [List.count_cons_self, ← h.files f]
  · simp [File.refs, h.count_ne.mpr hm]

/-- One descriptor less: with the last one, what the file points to is left over. -/
theorem Booking.closed (h : Booking (f :: entries) others T) (hi : T'.inodeTable = T.inodeTable)
    (hs : T'.superTable = T.superTable)
    (hf : T'.fileTable = Function.update T.fileTable f
      { T.fileTable f with count := (T.fileTable f).count - 1 }) :
    Booking entries
      ((if (T.fileTable f).count - 1 = 0 then (T.fileTable f).inode.toList else []) ++ others) T' := by
  have hc : (T.fileTable f).count = entries.count f + 1 := by
    rw [h.files f, List.count_cons_self]
  refine h.change hi hs hf (h.bound f List.mem_cons_self) ?_ (fun g hg => by simp [hg.symm]) ?_
  · show (T.fileTable f).count - 1 = _
    rw [hc, Nat.add_sub_cancel]
  · have hne : (T.fileTable f).count ≠ 0 := by omega
    by_cases hz : (T.fileTable f).count - 1 = 0
    · simp [File.refs, hz, hne]
    · simp [File.refs, hz, hne]

/-- One reference more to an inode that others point to. -/
theorem Booking.take (h : Booking entries others T) (hx : x ∈ others) :
    Booking entries (x :: others)
      (T.setInode x { T.inodeTable x with count := (T.inodeTable x).count + 1 }) :=
  ⟨(h.owned.take (List.mem_append_right _ hx)).perm List.perm_middle.symm, h.files, h.bound⟩

/-- A free slot becomes a pipe, with two references to it. -/
theorem Booking.piped {ino : Inode} (h : Booking entries others T)
    (hfree : (T.inodeTable x).dev = devEOF) (hlt : x < INODE_NR) (hlive : ino.Live)
    (hc : ino.count = 2) (hp : ino.pipe = true) (hm : ino.mount = (T.inodeTable x).mount) :
    Booking entries (x :: x :: others) (T.setInode x ino) ∧ T.Stays (T.setInode x ino) others := by
  have hx : x ∉ T.openFiles ++ others := fun hx => (h.owned.live x).mpr hx hfree
  have hxo : x ∉ others := fun hm => hx (List.mem_append_right _ hm)
  have hlist : ∀ i, x ∉ (T.superTable i).inodeList := fun i hi => hx (h.owned.listed hi)
  have ho : Owned (T.setInode x ino) (x :: x :: (T.openFiles ++ others)) := by
    refine h.owned.outside hlist (fun z hz => by simp [hz.symm]) ?_ ?_ (fun _ => hlt)
      (fun hn => absurd List.mem_cons_self hn) (hm.trans (h.owned.bare x hx).2) (.inr hp)
    · rw [hc, List.count_cons_self, List.count_cons_self, List.count_eq_zero.mpr hx]
    · exact iff_of_true hlive List.mem_cons_self
  have hperm : (x :: x :: (T.openFiles ++ others)).Perm (T.openFiles ++ x :: x :: others) :=
    ((List.perm_middle.symm).cons x).trans List.perm_middle.symm
  refine ⟨⟨ho.perm hperm, h.files, h.bound⟩, ?_⟩
  exact (Tables.around_setInode hm).stays (Tables.core_setInode (.inl hxo))

/-- An inode is given back. -/
theorem Booking.put (h : Booking entries (x :: others) T) (hput : PutAway T x T')
    (hm : x ∉ others → (T.inodeTable x).mount = 0) :
    Booking entries others T' ∧ T.Core T' others := by
  have ho : Owned T (x :: (T.openFiles ++ others)) := h.owned.perm List.perm_middle
  obtain ⟨ho', hcore⟩ := hput.owned ho fun hx => hm fun hx' => hx (List.mem_append_right _ hx')
  have hf := hput.around.file
  refine ⟨⟨by rwa [openFiles_congr hf], fun g => by rw [hf, h.files g], h.bound⟩, fun y hy => ?_⟩
  exact hcore y (List.mem_append_right _ hy)

end Booking

/-! ## 3. A call of a process -/

/-- **In a call of the process `p`**, since the tables were `T₀`: its directories are `wd` and `rt`,
    it holds `held`, and `E` and `O` are the descriptors and the pointers of others. -/
structure Holds (T₀ : Tables) (p wd rt : Nat) (E O held : List Nat) (s : Kernel) : Prop where
  running : s.tab.running = p
  tasks : ∀ q, q ≠ p → s.tab.task q = T₀.task q
  cwd : (s.tab.task p).ipwd = wd
  root : (s.tab.task p).iroot = rt
  stays : T₀.Stays s.tab O
  booking : Booking ((s.tab.task p).entries ++ E) (held ++ O) s.tab
  plain : ∀ x ∈ held, (s.tab.inodeTable x).pipe = false

section Holds

variable {T₀ : Tables} {p wd rt : Nat} {E O held held' : List Nat} {s t : Kernel} {x f : Nat}

theorem Holds.perm (h : Holds T₀ p wd rt E O held s) (hp : held.Perm held') :
    Holds T₀ p wd rt E O held' s :=
  { h with
    booking := h.booking.perm .rfl (hp.append_right O)
    plain := fun x hx => h.plain x (hp.mem_iff.mpr hx) }

theorem Holds.congr (h : Holds T₀ p wd rt E O held s) (ht : t.tab = s.tab) :
    Holds T₀ p wd rt E O held t := by
  obtain ⟨h₁, h₂, h₃, h₄, h₅, h₆, h₇⟩ := h
  rw [← ht] at h₁ h₂ h₃ h₄ h₅ h₆ h₇
  exact ⟨h₁, h₂, h₃, h₄, h₅, h₆, h₇⟩

/-- What does not touch the tables keeps what is held. -/
theorem holds_still {α : Type} {c : Code α} (h : Obeys Still c) :
    Leads (Holds T₀ p wd rt E O held) c fun _ => Holds T₀ p wd rt E O held :=
  fun s a t hs hr => hs.congr (h s a t hr)

variable (hr : Rooted T₀ O)
include hr

theorem Holds.rooted (h : Holds T₀ p wd rt E O held s) : Rooted s.tab O := hr.stays h.stays

/-- **The rules for inodes become rules for processes**: the references `K` are held all along. -/
theorem holds_owns {α : Type} {c : Code α} {K : List Nat} {out : α → List Nat}
    (h : ∀ T kept, Rooted T kept → (wd ∈ K → rt ∈ K → T.Starts kept) →
      Leads (Owns T kept held) c fun a => Owns T kept (out a)) :
    Leads (Holds T₀ p wd rt E O (K ++ held)) c fun a => Holds T₀ p wd rt E O (K ++ out a) := by
  intro s a t hs hrun
  have hkept : ∀ x ∈ O, x ∈ s.tab.openFiles ++ (K ++ O) := fun x hx => by simp [hx]
  have hK : ∀ x ∈ K, x ∈ s.tab.openFiles ++ (K ++ O) := fun x hx => by simp [hx]
  have hperm : ∀ A : List Nat, (s.tab.openFiles ++ (K ++ A ++ O)).Perm
      (A ++ (s.tab.openFiles ++ (K ++ O))) := fun A => by
    have h₁ : (K ++ A ++ O).Perm (A ++ (K ++ O)) := by
      rw [← List.append_assoc]
      exact List.perm_append_comm.append_right O
    rw [← List.append_assoc A]
    refine (h₁.append_left _).trans ?_
    rw [← List.append_assoc]
    exact List.perm_append_comm.append_right _
  have hs₁ : Owns s.tab (s.tab.openFiles ++ (K ++ O)) held s :=
    ⟨hs.booking.owned.perm (hperm held), .refl _, .refl _ _,
      fun x hx => hs.plain x (List.mem_append_right _ hx)⟩
  have hstart : wd ∈ K → rt ∈ K → s.tab.Starts (s.tab.openFiles ++ (K ++ O)) := by
    intro hwd hrt x hx
    rw [hs.running, hs.cwd, hs.root] at hx
    have hx : x ∈ K := hx.elim (fun e => e ▸ hwd) fun e => e ▸ hrt
    exact ⟨hK x hx, hs.plain x (List.mem_append_left _ hx)⟩
  have ht := h _ _ ((hs.rooted hr).mono hkept) hstart s a t hs₁ hrun
  have htask : t.tab.task p = s.tab.task p := by rw [ht.around.task]
  refine ⟨ht.around.running.trans hs.running, fun q hq => ?_, ?_, ?_, ?_, ?_, fun x hx => ?_⟩
  · rw [ht.around.task]
    exact hs.tasks q hq
  · rw [htask, hs.cwd]
  · rw [htask, hs.root]
  · exact hs.stays.trans ((ht.around.stays ht.core).mono hkept)
  · rw [htask]
    refine ⟨?_, fun f => ?_, hs.booking.bound⟩
    · rw [openFiles_congr ht.around.file]
      exact ht.owned.perm (hperm (out a)).symm
    · rw [ht.around.file]
      exact hs.booking.files f
  · obtain hx | hx := List.mem_append.mp hx
    · obtain ⟨n, hn⟩ := ht.core x (hK x hx)
      rw [hn]
      exact hs.plain x (List.mem_append_left _ hx)
    · exact ht.plain x hx

theorem holds_iput (x : Nat) :
    Leads (Holds T₀ p wd rt E O (x :: held)) (iput x) fun _ => Holds T₀ p wd rt E O held := by
  have hput : ∀ T kept, Rooted T kept → (wd ∈ held → rt ∈ held → T.Starts kept) →
      Leads (Owns T kept [x]) (iput x) fun _ => Owns T kept [] := fun _ _ hr _ => owns_iput hr x
  have h : Leads (Holds T₀ p wd rt E O (held ++ [x])) (iput x) fun _ =>
      Holds T₀ p wd rt E O (held ++ []) := holds_owns hr hput
  simp only [List.append_nil] at h
  exact triple_pre h fun s hs => hs.perm (List.perm_append_singleton x held).symm

theorem holds_iput? (x : Option Nat) :
    Leads (Holds T₀ p wd rt E O (x.toList ++ held)) (iput? x) fun _ =>
      Holds T₀ p wd rt E O held := by
  cases x with
  | none => exact keeps_pure _
  | some x => exact holds_iput hr x

end Holds

/-! ## 4. Open files -/

section Files

variable {C : List Frame → Kernel → Prop} {s t : Kernel} {u : Unit} {f fd : Nat}

theorem runs_onFile {g : File → File} (h : Runs C (onFile f g) s u t) :
    t = { s with tab := s.tab.setFile f (g (s.tab.fileTable f)) } := by
  rw [onFile, onTables, runs_modify] at h
  exact h.symm

theorem runs_onTask {g : Task → Task} (h : Runs C (onTask g) s u t) :
    t = { s with
      tab := { s.tab with
        task := Function.update s.tab.task s.tab.running (g (s.tab.task s.tab.running)) } } := by
  rw [onTask, onTables, runs_modify] at h
  exact h.symm

theorem runs_fileOf {o : Option Nat} (h : Runs C (fileOf fd) s o t) :
    o = (s.tab.task s.tab.running).files fd ∧ s = t := by
  obtain ⟨task, s₁, h₁, h⟩ := runs_bind.mp h
  rw [runs_runningTask] at h₁
  obtain ⟨rfl, rfl⟩ := h₁
  obtain ⟨rfl, rfl⟩ := h
  exact ⟨rfl, rfl⟩

/-- A number found is in range and has the property. -/
theorem firstFree_spec {n i : Nat} {p : Nat → Bool} (h : firstFree n p = some i) :
    i < n ∧ p i = true := by
  have hm := List.mem_of_mem_drop (List.mem_of_find?_eq_some h)
  exact ⟨List.mem_range.mp hm, List.find?_some h⟩

theorem runs_taskGetFd (h : Runs C taskGetFd s fd t) :
    fd < TASK_FILE_NR ∧ (s.tab.task s.tab.running).files fd = none ∧ s = t := by
  obtain ⟨task, s₁, h₁, h⟩ := runs_bind.mp h
  rw [runs_runningTask] at h₁
  obtain ⟨rfl, rfl⟩ := h₁
  rw [runs_need] at h
  obtain ⟨hfd, rfl⟩ := h
  obtain ⟨hlt, hfree⟩ := firstFree_spec hfd
  exact ⟨hlt, by simpa using hfree, rfl⟩

theorem runs_getFile (h : Runs C getFile s f t) :
    f < FILE_NR ∧ (s.tab.fileTable f).count = 0 ∧
      t = { s with
        tab := s.tab.setFile f
          { s.tab.fileTable f with count := (s.tab.fileTable f).count + 1 } } := by
  obtain ⟨T, s₁, ⟨rfl, rfl⟩, h⟩ := runs_bind.mp h
  obtain ⟨f', s₁, h₁, h⟩ := runs_bind.mp h
  rw [runs_need] at h₁
  obtain ⟨h₁, rfl⟩ := h₁
  obtain ⟨_, s₂, h₂, rfl, rfl⟩ := runs_bind.mp h
  obtain ⟨hlt, hfree⟩ := firstFree_spec h₁
  exact ⟨hlt, by simpa using hfree, runs_onFile h₂⟩

/-- An inode is given back, if there is one. -/
theorem booking_iput? {entries others : List Nat} {x : Option Nat}
    (h : Booking entries (x.toList ++ others) s.tab) (hr : Rooted s.tab others)
    (hrun : Ends (iput? x) s u t) :
    Booking entries others t.tab ∧ s.tab.Around t.tab ∧ s.tab.Core t.tab others := by
  cases x with
  | none =>
    obtain ⟨-, rfl⟩ := hrun
    exact ⟨h, .refl _, .refl _ _⟩
  | some x =>
    have hput := iput_putAway hrun
    have hm : x ∉ others → (s.tab.inodeTable x).mount = 0 := fun hx =>
      not_not.mp fun hm => hx (hr.covered x hm)
    obtain ⟨hb, hc⟩ := h.put hput hm
    exact ⟨hb, hput.around, hc⟩

/-- **A descriptor goes.** -/
theorem booking_putFile {entries others : List Nat} (h : Booking (f :: entries) others s.tab)
    (hr : Rooted s.tab others) (hrun : Ends (putFile f) s u t) :
    Booking entries others t.tab ∧ s.tab.Stays t.tab others ∧ t.tab.task = s.tab.task ∧
      t.tab.running = s.tab.running := by
  obtain ⟨T, s₁, ⟨rfl, rfl⟩, hrun⟩ := runs_bind.mp hrun
  obtain ⟨_, s₁, h₁, hrun⟩ := runs_bind.mp hrun
  rw [runs_assert] at h₁
  obtain ⟨-, rfl⟩ := h₁
  obtain ⟨_, s₂, h₂, hrun⟩ := runs_bind.mp hrun
  obtain ⟨T, s₃, ⟨rfl, rfl⟩, hrun⟩ := runs_bind.mp hrun
  have h₂ := runs_onFile h₂
  have hclosed : Booking entries ((if (s.tab.fileTable f).count - 1 = 0 then
      (s.tab.fileTable f).inode.toList else []) ++ others) s₂.tab :=
    h.closed (by rw [h₂]; rfl) (by rw [h₂]; rfl) (by rw [h₂]; rfl)
  have hself : s₂.tab.fileTable f =
      { s.tab.fileTable f with count := (s.tab.fileTable f).count - 1 } := by
    simp [h₂, Tables.setFile]
  have hst : s.tab.Stays s₂.tab others := .of_eq (by rw [h₂]; rfl) (by rw [h₂]; rfl)
  rw [hself] at hrun
  obtain ⟨hz, hrun⟩ | ⟨hz, -, rfl⟩ := runs_ite.mp hrun
  · rw [if_pos hz] at hclosed
    obtain ⟨hb, ha, hc⟩ := booking_iput? hclosed (hr.stays hst) hrun
    exact ⟨hb, hst.trans (ha.stays hc), by rw [ha.task, h₂]; rfl, by rw [ha.running, h₂]; rfl⟩
  · rw [if_neg hz] at hclosed
    exact ⟨hclosed, hst, by rw [h₂]; rfl, by rw [h₂]; rfl⟩

end Files

/-! ## 5. The calls -/

section Calls

variable {T₀ : Tables} {p wd rt : Nat} {E O held held' : List Nat} {s t : Kernel} {fd : Nat}

/-- The descriptors of the process change. -/
theorem Holds.files {files : Nat → Option Nat} (h : Holds T₀ p wd rt E O held s)
    (hrun : t.tab.running = s.tab.running)
    (htask : t.tab.task = Function.update s.tab.task p { s.tab.task p with files := files })
    (hst : s.tab.Stays t.tab O) (hb : Booking ((t.tab.task p).entries ++ E) (held' ++ O) t.tab)
    (hplain : ∀ x ∈ held', (t.tab.inodeTable x).pipe = false) :
    Holds T₀ p wd rt E O held' t where
  running := hrun.trans h.running
  tasks q hq := by rw [htask, Function.update_of_ne hq, h.tasks q hq]
  cwd := by rw [htask, Function.update_self]; exact h.cwd
  root := by rw [htask, Function.update_self]; exact h.root
  stays := h.stays.trans hst
  booking := hb
  plain := hplain

theorem holds_sysClose (hr : Rooted T₀ O) {files : Nat → Option Nat} (fd : Nat) :
    Leads (fun s => Holds T₀ p wd rt E O held s ∧ (s.tab.task p).files = files) (sysClose fd)
      fun _ t => Holds T₀ p wd rt E O held t ∧
        (t.tab.task p).files = Function.update files fd none := by
  rintro s u t ⟨hs, hfiles⟩ h
  obtain ⟨_, s₁, h₁, h⟩ := runs_bind.mp h
  rw [runs_assert] at h₁
  obtain ⟨hfd, rfl⟩ := h₁
  have hfd : fd < TASK_FILE_NR := by simpa using hfd
  obtain ⟨o, s₂, h₂, h⟩ := runs_bind.mp h
  obtain ⟨ho, rfl⟩ := runs_fileOf h₂
  rw [hs.running] at ho
  cases o with
  | none =>
    obtain ⟨-, rfl⟩ := h
    refine ⟨hs, ?_⟩
    rw [← hfiles, ho, Function.update_eq_self]
  | some f =>
    obtain ⟨T, s₃, ⟨rfl, rfl⟩, h⟩ := runs_bind.mp h
    obtain ⟨_, s₃, h₃, h⟩ := runs_bind.mp h
    rw [runs_assert] at h₃
    obtain ⟨-, rfl⟩ := h₃
    obtain ⟨_, s₄, h₄, h⟩ := runs_bind.mp h
    have h := runs_onTask h
    have hb := hs.booking.perm ((Task.entries_clear hfd ho.symm).append_right E) .rfl
    obtain ⟨hb₄, hst, htask, hrunning⟩ := booking_putFile hb
      ((hs.rooted hr).mono fun x hx => List.mem_append_right _ hx) h₄
    have htask' : t.tab.task = Function.update s.tab.task p
        { s.tab.task p with files := Function.update (s.tab.task p).files fd none } := by
      rw [h]
      simp only [htask, hrunning, hs.running]
    have hself : t.tab.task p =
        { s.tab.task p with files := Function.update (s.tab.task p).files fd none } := by
      rw [htask', Function.update_self]
    have hst' : s.tab.Stays t.tab (held ++ O) := hst.trans (.of_eq (by rw [h]) (by rw [h]))
    refine ⟨hs.files (by rw [h]; exact hrunning) htask'
      (hst'.mono fun x hx => List.mem_append_right _ hx) ?_ fun x hx => ?_, ?_⟩
    · rw [hself]
      exact hb₄.congr (by rw [h]) (by rw [h]) (by rw [h])
    · obtain ⟨n, hn⟩ := hst'.core x (List.mem_append_left _ hx)
      rw [hn]
      exact hs.plain x hx
    · rw [hself, ← hfiles]

/-- All the descriptors are closed, one after the other. -/
theorem holds_closeAll (hr : Rooted T₀ O) {files : Nat → Option Nat} (l : List Nat) :
    Leads (fun s => Holds T₀ p wd rt E O held s ∧ (s.tab.task p).files = files) (l.forM sysClose)
      fun _ t => Holds T₀ p wd rt E O held t ∧
        ∀ i, (t.tab.task p).files i = if i ∈ l then none else files i := by
  induction l generalizing files with
  | nil => exact triple_pure fun s h => ⟨h.1, fun i => by simp [h.2]⟩
  | cons fd l ih =>
    show Leads _ (sysClose fd >>= fun _ => l.forM sysClose) _
    refine triple_bind (holds_sysClose hr fd) fun _ => triple_post ih fun _ t h => ⟨h.1, fun i => ?_⟩
    rw [h.2 i]
    by_cases e : i = fd
    · simp [e]
    · simp [e, List.mem_cons]

/-- A free descriptor is set, and whatever the tables say of files fits. -/
theorem Holds.sets {f : Nat} (h : Holds T₀ p wd rt E O held s) (hfd : fd < TASK_FILE_NR)
    (hfree : (s.tab.task p).files fd = none) (hi : t.tab.inodeTable = s.tab.inodeTable)
    (hs : t.tab.superTable = s.tab.superTable) (hrun : t.tab.running = s.tab.running)
    (htask : t.tab.task = Function.update s.tab.task p
      { s.tab.task p with files := Function.update (s.tab.task p).files fd (some f) })
    (hb : Booking (f :: ((s.tab.task p).entries ++ E)) (held' ++ O) t.tab)
    (hsub : ∀ x ∈ held', x ∈ held) : Holds T₀ p wd rt E O held' t := by
  refine h.files hrun htask (.of_eq hi hs) (hb.perm ?_ .rfl) fun x hx => ?_
  · rw [htask, Function.update_self]
    exact (Task.entries_set hfd hfree f).symm.append_right E
  · rw [hi]
    exact h.plain x (hsub x hx)

theorem holds_dupfd (fd arg : Nat) :
    Leads (Holds T₀ p wd rt E O held) (dupfd fd arg) fun _ => Holds T₀ p wd rt E O held := by
  intro s r t hs h
  obtain ⟨task, s₁, h₁, h⟩ := runs_bind.mp h
  rw [runs_runningTask, hs.running] at h₁
  obtain ⟨rfl, rfl⟩ := h₁
  obtain ⟨-, -, rfl⟩ | ⟨hfd, h⟩ := runs_ite.mp h
  · exact hs
  cases hf : (s.tab.task p).files fd with
  | none =>
    rw [hf] at h
    obtain ⟨-, rfl⟩ := h
    exact hs
  | some f =>
    rw [hf] at h
    simp only at h
    cases harg : ((List.range TASK_FILE_NR).drop arg).find? fun i =>
        ((s.tab.task p).files i).isNone with
    | none =>
      rw [harg] at h
      obtain ⟨-, rfl⟩ := h
      exact hs
    | some i =>
      rw [harg] at h
      obtain ⟨_, s₁, h₁, h⟩ := runs_bind.mp h
      obtain ⟨_, s₂, h₂, -, rfl⟩ := runs_bind.mp h
      have h₁ := runs_onTask h₁
      have h₂ := runs_onFile h₂
      have hi : i < TASK_FILE_NR :=
        List.mem_range.mp (List.mem_of_mem_drop (List.mem_of_find?_eq_some harg))
      have hm : f ∈ (s.tab.task p).entries ++ E :=
        List.mem_append_left _ (Task.mem_entries (by omega) hf)
      refine hs.sets hi (by simpa using List.find?_some harg) (by rw [h₂, h₁]; rfl)
        (by rw [h₂, h₁]; rfl) (by rw [h₂, h₁]; rfl) (by rw [h₂, h₁, hs.running]; rfl) ?_
        fun _ hx => hx
      exact hs.booking.shared (by rw [h₂, h₁]; rfl) (by rw [h₂, h₁]; rfl) hm
        (by rw [h₂, h₁]; rfl)

theorem holds_sysDup2 (hr : Rooted T₀ O) (oldfd newfd : Nat) :
    Leads (Holds T₀ p wd rt E O held) (sysDup2 oldfd newfd) fun _ =>
      Holds T₀ p wd rt E O held := by
  refine triple_bind (Q := fun _ => Holds T₀ p wd rt E O held) (fun s u t hs h => ?_) fun _ =>
    holds_dupfd oldfd newfd
  exact (holds_sysClose hr newfd s u t ⟨hs, rfl⟩ h).1

/-! ### Calls on names -/

/-- A call that looks names up may hold inodes at its end. -/
theorem holds_names (hr : Rooted T₀ O) (hwd : wd ∈ held) (hrt : rt ∈ held) {α : Type} {c : Code α}
    {out : α → List Nat}
    (h : ∀ T kept, Rooted T kept → T.Starts kept →
      Leads (Owns T kept []) c fun a => Owns T kept (out a ++ [])) :
    Leads (Holds T₀ p wd rt E O held) c fun a => Holds T₀ p wd rt E O (out a ++ held) := by
  have hc : Leads (Holds T₀ p wd rt E O (held ++ [])) c fun a =>
      Holds T₀ p wd rt E O (held ++ (out a ++ [])) :=
    holds_owns hr fun T kept hr hs => h T kept hr (hs hwd hrt)
  simp only [List.append_nil] at hc
  exact triple_post hc fun a s hs => hs.perm List.perm_append_comm

theorem holds_namei (hr : Rooted T₀ O) (hwd : wd ∈ held) (hrt : rt ∈ held)
    (pathname : List UInt8) :
    Leads (Holds T₀ p wd rt E O held) (namei pathname) fun r =>
      Holds T₀ p wd rt E O (r.toList ++ held) :=
  holds_names hr hwd hrt fun _ _ hr hs => owns_namei hr hs pathname

/-- `open` and `creat`. -/
theorem holds_sysOpen (hr : Rooted T₀ O) (hwd : wd ∈ held) (hrt : rt ∈ held)
    (filename : List UInt8) (flags mode : Nat) :
    Leads (Holds T₀ p wd rt E O held) (sysOpen filename flags mode) fun _ =>
      Holds T₀ p wd rt E O held := by
  refine triple_bind (holds_names hr hwd hrt fun _ _ hr hs =>
    owns_inodeOpen hr hs filename flags mode) fun r s a t hs h => ?_
  cases r with
  | none =>
    obtain ⟨-, rfl⟩ := h
    exact hs
  | some inode =>
    obtain ⟨fd, s₁, h₁, h⟩ := runs_bind.mp h
    obtain ⟨hfd, hnone, rfl⟩ := runs_taskGetFd h₁
    obtain ⟨f, s₂, h₂, h⟩ := runs_bind.mp h
    obtain ⟨hf, hfree, h₂⟩ := runs_getFile h₂
    obtain ⟨old, s₃, h₃, h⟩ := runs_bind.mp h
    obtain ⟨-, rfl⟩ := runs_fileOf h₃
    obtain ⟨_, s₄, h₄, h⟩ := runs_bind.mp h
    rw [runs_assert] at h₄
    obtain ⟨-, rfl⟩ := h₄
    obtain ⟨_, s₅, h₅, h⟩ := runs_bind.mp h
    obtain ⟨imode, s₆, h₆, h⟩ := runs_bind.mp h
    rw [runs_descGet] at h₆
    obtain ⟨-, rfl⟩ := h₆
    obtain ⟨size, s₇, h₇, h⟩ := runs_bind.mp h
    rw [runs_descGet] at h₇
    obtain ⟨-, rfl⟩ := h₇
    obtain ⟨_, s₈, h₈, -, rfl⟩ := runs_bind.mp h
    have h₅ := runs_onTask h₅
    have h₈ := runs_onFile h₈
    rw [hs.running] at hnone
    obtain ⟨file, hfile, hx, hc⟩ : ∃ file : File,
        s₈.tab.fileTable = Function.update s.tab.fileTable f file ∧ file.inode = some inode ∧
          file.count = 1 := by
      rw [h₈, h₅, h₂]
      exact ⟨_, Function.update_idem _ _ _, rfl, rfl⟩
    refine hs.sets hfd hnone (by rw [h₈, h₅, h₂]; rfl) (by rw [h₈, h₅, h₂]; rfl)
      (by rw [h₈, h₅, h₂]; rfl) (by rw [h₈, h₅, h₂, ← hs.running]; rfl) ?_ fun x hx =>
        List.mem_append_right _ hx
    exact Booking.opened hs.booking (by rw [h₈, h₅, h₂]; rfl) (by rw [h₈, h₅, h₂]; rfl) hfile hf
      hfree hc hx

/-- The directories of the process change. -/
theorem Holds.moves {wd' rt' : Nat} (h : Holds T₀ p wd rt E O held s)
    (ht : t.tab = { s.tab with
      task := Function.update s.tab.task p { s.tab.task p with ipwd := wd', iroot := rt' } }) :
    Holds T₀ p wd' rt' E O held t where
  running := by rw [ht]; exact h.running
  tasks q hq := by rw [ht]; exact (Function.update_of_ne hq _ _).trans (h.tasks q hq)
  cwd := by simp [ht]
  root := by simp [ht]
  stays := h.stays.trans (.of_eq (by rw [ht]) (by rw [ht]))
  booking := by
    have hself : t.tab.task p = { s.tab.task p with ipwd := wd', iroot := rt' } := by simp [ht]
    have he : (t.tab.task p).entries = (s.tab.task p).entries := by
      rw [hself]
      rfl
    rw [he]
    exact h.booking.congr (by rw [ht]) (by rw [ht]) (by rw [ht])
  plain x hx := by rw [ht]; exact h.plain x hx

/-- The process with its directories, wherever they are. -/
def Serves (T₀ : Tables) (p : Nat) (E O held : List Nat) (s : Kernel) : Prop :=
  ∃ wd rt, Holds T₀ p wd rt E O (wd :: rt :: held) s

theorem serves_sysChdir (hr : Rooted T₀ O) (pathname : List UInt8) :
    Leads (Serves T₀ p E O held) (sysChdir pathname) fun _ => Serves T₀ p E O held := by
  rintro s a t ⟨wd, rt, hs⟩ h
  obtain ⟨task, s₁, h₁, h⟩ := runs_bind.mp h
  rw [runs_runningTask, hs.running] at h₁
  obtain ⟨rfl, rfl⟩ := h₁
  obtain ⟨r, s₁, h₁, h⟩ := runs_bind.mp h
  have hs₁ := holds_namei hr (by simp) (by simp) pathname _ _ _ hs h₁
  cases r with
  | none =>
    obtain ⟨-, rfl⟩ := h
    exact ⟨wd, rt, hs₁⟩
  | some inode =>
    obtain ⟨mode, s₂, h₂, h⟩ := runs_bind.mp h
    rw [runs_descGet] at h₂
    obtain ⟨-, rfl⟩ := h₂
    obtain ⟨-, h⟩ | ⟨-, h⟩ := runs_ite.mp h
    · obtain ⟨_, s₂, h₂, -, rfl⟩ := runs_bind.mp h
      exact ⟨wd, rt, holds_iput hr inode _ _ _ hs₁ h₂⟩
    · obtain ⟨_, s₂, h₂, h⟩ := runs_bind.mp h
      obtain ⟨_, s₃, h₃, -, rfl⟩ := runs_bind.mp h
      rw [hs.cwd] at h₂
      have hs₂ := holds_iput hr wd _ _ _ (hs₁.perm (.swap wd inode _)) h₂
      have h₃ := runs_onTask h₃
      refine ⟨inode, rt, hs₂.moves ?_⟩
      rw [h₃, hs₂.running, ← hs₂.root]

theorem serves_sysChroot (hr : Rooted T₀ O) (pathname : List UInt8) :
    Leads (Serves T₀ p E O held) (sysChroot pathname) fun _ => Serves T₀ p E O held := by
  rintro s a t ⟨wd, rt, hs⟩ h
  obtain ⟨task, s₁, h₁, h⟩ := runs_bind.mp h
  rw [runs_runningTask, hs.running] at h₁
  obtain ⟨rfl, rfl⟩ := h₁
  obtain ⟨r, s₁, h₁, h⟩ := runs_bind.mp h
  have hs₁ := holds_namei hr (by simp) (by simp) pathname _ _ _ hs h₁
  cases r with
  | none =>
    obtain ⟨-, rfl⟩ := h
    exact ⟨wd, rt, hs₁⟩
  | some inode =>
    obtain ⟨mode, s₂, h₂, h⟩ := runs_bind.mp h
    rw [runs_descGet] at h₂
    obtain ⟨-, rfl⟩ := h₂
    obtain ⟨-, h⟩ | ⟨-, h⟩ := runs_ite.mp h
    · obtain ⟨_, s₂, h₂, -, rfl⟩ := runs_bind.mp h
      exact ⟨wd, rt, holds_iput hr inode _ _ _ hs₁ h₂⟩
    · obtain ⟨_, s₂, h₂, h⟩ := runs_bind.mp h
      obtain ⟨_, s₃, h₃, -, rfl⟩ := runs_bind.mp h
      rw [hs.root] at h₂
      have hperm : (inode :: wd :: rt :: held).Perm (rt :: wd :: inode :: held) :=
        (List.reverse_perm [rt, wd, inode]).append_right held
      have hs₂ := holds_iput hr rt _ _ _ (hs₁.perm hperm) h₂
      have h₃ := runs_onTask h₃
      refine ⟨wd, inode, hs₂.moves ?_⟩
      rw [h₃, hs₂.running, ← hs₂.cwd]

theorem runs_newFile {C : List Frame → Kernel → Prop} {r : Nat × Nat} (h : Runs C newFile s r t) :
    (r.1 < TASK_FILE_NR ∧ (s.tab.task s.tab.running).files r.1 = none) ∧
      (r.2 < FILE_NR ∧ (s.tab.fileTable r.2).count = 0) ∧
      t = { s with
        tab := { s.tab with
          fileTable := Function.update s.tab.fileTable r.2
            { s.tab.fileTable r.2 with count := (s.tab.fileTable r.2).count + 1 }
          task := Function.update s.tab.task s.tab.running
            { s.tab.task s.tab.running with
              files := Function.update (s.tab.task s.tab.running).files r.1 (some r.2) } } } := by
  obtain ⟨fd, s₁, h₁, h⟩ := runs_bind.mp h
  obtain ⟨hfd, hnone, rfl⟩ := runs_taskGetFd h₁
  obtain ⟨f, s₂, h₂, h⟩ := runs_bind.mp h
  obtain ⟨hf, hfree, h₂⟩ := runs_getFile h₂
  obtain ⟨_, s₃, h₃, rfl, rfl⟩ := runs_bind.mp h
  exact ⟨⟨hfd, hnone⟩, ⟨hf, hfree⟩, by rw [runs_onTask h₃, h₂]; rfl⟩

theorem holds_sysPipe :
    Leads (Holds T₀ p wd rt E O held) sysPipe fun _ => Holds T₀ p wd rt E O held := by
  intro s r t hs h
  obtain ⟨x, s₁, h₁, h⟩ := runs_bind.mp h
  obtain ⟨⟨fd₀, f₀⟩, s₂, h₂, h⟩ := runs_bind.mp h
  obtain ⟨⟨fd₁, f₁⟩, s₃, h₃, h⟩ := runs_bind.mp h
  obtain ⟨_, s₄, h₄, h⟩ := runs_bind.mp h
  obtain ⟨_, s₅, h₅, -, rfl⟩ := runs_bind.mp h
  obtain ⟨y, s₆, h₆, h₁⟩ := runs_bind.mp h₁
  obtain ⟨_, s₇, h₇, rfl, rfl⟩ := runs_bind.mp h₁
  obtain ⟨hlt, hfree, rfl⟩ := runs_getFreeInode h₆
  have h₇ := runs_onInode h₇
  obtain ⟨ino, hino⟩ : ∃ ino, ino =
      { s.tab.inodeTable y with dev := -2, count := 2, pipe := true } := ⟨_, rfl⟩
  have htab₇ : s₇.tab = s.tab.setInode y ino := by rw [h₇, hino]
  have hlive : ino.Live := by
    rw [hino]
    show (-2 : Int) ≠ devEOF
    decide
  obtain ⟨hb, hst⟩ := hs.booking.piped hfree hlt hlive (by rw [hino]) (by rw [hino]) (by rw [hino])
  obtain ⟨⟨hfd₀, hnone₀⟩, ⟨hf₀, hfree₀⟩, h₂⟩ := runs_newFile h₂
  obtain ⟨⟨hfd₁, hnone₁⟩, ⟨hf₁, hfree₁⟩, h₃⟩ := runs_newFile h₃
  have h₄ := runs_onFile h₄
  have h₅ := runs_onFile h₅
  have hrun₇ : s₇.tab.running = p := by rw [htab₇]; exact hs.running
  have hrun₂ : s₂.tab.running = p := by rw [h₂]; exact hrun₇
  have htask₇ : s₇.tab.task = s.tab.task := by rw [htab₇]; rfl
  have hfile₇ : s₇.tab.fileTable = s.tab.fileTable := by rw [htab₇]; rfl
  rw [hrun₇, htask₇] at h₂
  rw [htask₇, hrun₇] at hnone₀
  rw [hfile₇] at h₂ hfree₀
  have hself₂ : s₂.tab.task p = { s.tab.task p with
      files := Function.update (s.tab.task p).files fd₀ (some f₀) } := by simp [h₂]
  -- the second descriptor and the second file are others than the first
  rw [hrun₂] at hnone₁ h₃
  have hf : f₁ ≠ f₀ := by
    rintro rfl
    simp [h₂] at hfree₁
  have hfree₁' : (s.tab.fileTable f₁).count = 0 := by simpa [h₂, hf] using hfree₁
  obtain ⟨file₀, file₁, hfiles, hx₀, hc₀, hx₁, hc₁⟩ : ∃ file₀ file₁ : File,
      s₅.tab.fileTable = Function.update (Function.update s.tab.fileTable f₀ file₀) f₁ file₁ ∧
        file₀.inode = some y ∧ file₀.count = 1 ∧ file₁.inode = some y ∧ file₁.count = 1 := by
    refine ⟨⟨some y, 1, (s.tab.fileTable f₀).offset, O_RDONLY, (s.tab.fileTable f₀).mode⟩,
      ⟨some y, 1, (s.tab.fileTable f₁).offset, O_WRONLY, (s.tab.fileTable f₁).mode⟩,
      funext fun g => ?_, rfl, rfl, rfl, rfl⟩
    by_cases e₁ : g = f₁
    · simp [h₅, h₄, h₃, h₂, Tables.setFile, e₁, hf, hfree₁']
    · by_cases e₀ : g = f₀
      · simp [h₅, h₄, h₃, h₂, Tables.setFile, e₀, hf.symm, hfree₀]
      · simp [h₅, h₄, h₃, h₂, Tables.setFile, e₀, e₁]
  have htask : s₅.tab.task = Function.update s.tab.task p { s.tab.task p with
      files := Function.update (s₂.tab.task p).files fd₁ (some f₁) } := by
    rw [h₅, h₄, h₃]
    simp only [Tables.setFile, hself₂]
    rw [h₂]
    exact Function.update_idem _ _ _
  have hinodes : s₅.tab.inodeTable = (s.tab.setInode y ino).inodeTable := by
    rw [h₅, h₄, h₃, h₂, htab₇]
    rfl
  have hsupers : s₅.tab.superTable = s.tab.superTable := by
    rw [h₅, h₄, h₃, h₂, htab₇]
    rfl
  have hb₁ : Booking (f₀ :: ((s.tab.task p).entries ++ E)) (y :: (held ++ O))
      { s.tab.setInode y ino with fileTable := Function.update s.tab.fileTable f₀ file₀ } :=
    hb.opened rfl rfl rfl hf₀ hfree₀ hc₀ hx₀
  have hb₂ : Booking (f₁ :: f₀ :: ((s.tab.task p).entries ++ E)) (held ++ O) s₅.tab :=
    hb₁.opened hinodes hsupers hfiles hf₁ (by simpa [hf] using hfree₁') hc₁ hx₁
  have hst' : s.tab.Stays s₅.tab (held ++ O) := hst.trans (.of_eq hinodes hsupers)
  refine hs.files (by rw [h₅, h₄, h₃]; exact hrun₂.trans hs.running.symm) htask
    (hst'.mono fun x hx => List.mem_append_right _ hx) (hb₂.perm ?_ .rfl) fun x hx => ?_
  · rw [htask, Function.update_self]
    have he₀ := Task.entries_set hfd₀ hnone₀ f₀
    rw [← hself₂] at he₀
    have he₁ := (Task.entries_set hfd₁ hnone₁ f₁).trans (he₀.cons f₁)
    rw [hself₂] at he₁ ⊢
    exact (he₁.append_right E).symm
  · obtain ⟨n, hn⟩ := hst'.core x (List.mem_append_left _ hx)
    rw [hn]
    exact hs.plain x hx

end Calls

end Yuios
