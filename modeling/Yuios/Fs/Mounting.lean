/-
  File:      Yuios/Fs/Mounting.lean
  Subject:   `sys_mount` KEEPS EVERY REFERENCE COUNTED.

  * `ends_readSuper` -- `read_super` finds the super block of the device, or fills a free one.
  * `Tables.Fitted` -- the tables after a mount: one super block more, its root directory in memory,
    the directory it is mounted on covered.
  * `settled_sysMount` -- whatever `sys_mount` answers.
-/
import Yuios.Fs.Forking

namespace Yuios

open Lib Prog Code

/-! ## 1. Super blocks -/

section Super

variable {S S' : System} {i : Nat} {dev : Int} {u : Unit}

theorem ends_superCount {n : Nat} (h : Ends (superCount i) S n S') : S.superCount i = n ∧ S = S' := h

theorem ends_setSuperCount {n : Nat} (h : Ends (setSuperCount i n) S u S') :
    S' = { S with superCount := Function.update S.superCount i n } := by
  rw [Ends, setSuperCount, runs_modify] at h
  exact h.symm

theorem runs_onSuper {C : List Frame → Kernel → Prop} {s t : Kernel} {f : SuperBlock → SuperBlock}
    (h : Runs C (onSuper i f) s u t) :
    t = { s with tab := s.tab.setSuper i (f (s.tab.superTable i)) } := by
  rw [onSuper, onTables, runs_modify] at h
  exact h.symm

/-- A reference to a super block that is not the last one. -/
theorem ends_putSuper (hn : 2 ≤ S.superCount i) (h : Ends (putSuper (some i)) S u S') :
    S' = { S with superCount := Function.update S.superCount i (S.superCount i - 1) } := by
  obtain ⟨n, S₁, h₁, h⟩ := runs_bind.mp h
  obtain ⟨rfl, rfl⟩ := ends_superCount h₁
  obtain ⟨_, S₂, h₂, h⟩ := runs_bind.mp h
  obtain rfl := ends_lift_eq (obeys_check _ _) h₂
  obtain ⟨_, S₃, h₃, h⟩ := runs_bind.mp h
  have h₃ := ends_setSuperCount h₃
  obtain ⟨n, S₄, h₄, h⟩ := runs_bind.mp h
  obtain ⟨hn', rfl⟩ := ends_superCount h₄
  have hself : n = S.superCount i - 1 := by simp [← hn', h₃]
  obtain ⟨-, -, rfl⟩ | ⟨hz, -⟩ := runs_ite.mp h
  · exact h₃
  · exact absurd (by omega) hz

/-- The bitmaps are read, and nothing else happens. -/
theorem ends_bitmaps {l : List Nat} {lim : Nat} {f : Nat → Nat}
    (h : Ends (l.forM fun j => onKernel do assert (j < lim); let _ ← bread dev (f j)) S u S') :
    ∃ k, k.tab = S.kernel.tab ∧ S' = { S with kernel := k } := by
  have hloop : (l.forM fun j => onKernel do assert (j < lim); let _ ← bread dev (f j)) =
      onKernel (l.forM fun j => do assert (j < lim); let _ ← bread dev (f j)) :=
    (zoom_forM _ _ _ _).symm
  rw [hloop] at h
  obtain ⟨k, hk, rfl⟩ := ends_onKernel.mp h
  refine ⟨k, obeys_forM (R := Still) l (fun j => ?_) _ _ _ hk, rfl⟩
  exact obeys_bind (obeys_check _ _) fun _ => obeys_bind (bread_still _ _) fun _ => obeys_pure _

/-- **`read_super`**: the super block of the device, or a free one filled from block 1. -/
theorem ends_readSuper (h : Ends (readSuper dev) S i S') :
    (S.kernel.tab.getSuper dev = some i ∧
      S' = { S with superCount := Function.update S.superCount i (S.superCount i + 1) }) ∨
    (S.kernel.tab.getSuper dev = none ∧ i < SUPER_NR ∧ (S.kernel.tab.superTable i).dev = devEOF ∧
      ∃ b k, k.tab = S.kernel.tab.setSuper i ((S.kernel.tab.superTable i).read dev b) ∧
        S' = { S with kernel := k, superCount := Function.update S.superCount i 1 }) := by
  obtain ⟨T, S₁, ⟨rfl, rfl⟩, h⟩ := runs_bind.mp h
  cases hg : S.kernel.tab.getSuper dev with
  | some j =>
    simp only [hg] at h
    obtain ⟨n, S₁, h₁, h⟩ := runs_bind.mp h
    obtain ⟨rfl, rfl⟩ := ends_superCount h₁
    obtain ⟨_, S₂, h₂, rfl, rfl⟩ := runs_bind.mp h
    exact .inl ⟨rfl, ends_setSuperCount h₂⟩
  | none =>
    simp only [hg] at h
    obtain ⟨j, S₁, h₁, h⟩ := runs_bind.mp h
    obtain ⟨buf, S₂, h₂, h⟩ := runs_bind.mp h
    obtain ⟨b, S₃, h₃, h⟩ := runs_bind.mp h
    obtain ⟨_, S₄, h₄, h⟩ := runs_bind.mp h
    obtain ⟨_, S₅, h₅, h⟩ := runs_bind.mp h
    obtain ⟨_, S₆, h₆, h⟩ := runs_bind.mp h
    obtain ⟨sb, S₇, h₇, h⟩ := runs_bind.mp h
    obtain ⟨_, S₈, h₈, h⟩ := runs_bind.mp h
    obtain ⟨_, S₉, h₉, rfl, rfl⟩ := runs_bind.mp h
    obtain ⟨k₁, hk₁, rfl⟩ := ends_lift.mp h₁
    obtain ⟨T, k₀, ⟨rfl, rfl⟩, hk₁⟩ := runs_bind.mp hk₁
    rw [runs_need] at hk₁
    obtain ⟨hfree, rfl⟩ := hk₁
    obtain ⟨k₂, hk₂, rfl⟩ := ends_lift.mp h₂
    obtain rfl := ends_lift_eq (bytesOf_obeys buf) h₃
    obtain ⟨k₄, hk₄, rfl⟩ := ends_lift.mp h₄
    have h₅ := ends_setSuperCount h₅
    obtain rfl := ends_lift_eq (obeys_check _ _) h₆
    obtain rfl := ends_lift_eq (obeys_reads _) h₇
    obtain ⟨k₈, htab₈, h₈⟩ := ends_bitmaps h₈
    obtain ⟨k₉, htab₉, h₉⟩ := ends_bitmaps h₉
    have hi : j < SUPER_NR := List.mem_range.mp (List.mem_of_find?_eq_some hfree)
    have hdev : (S.kernel.tab.superTable j).dev = devEOF := by simpa using List.find?_some hfree
    have htab₂ : k₂.tab = S.kernel.tab := bread_still _ _ _ _ _ hk₂
    refine .inr ⟨rfl, hi, hdev, b, k₉, ?_, ?_⟩
    · rw [htab₉, h₈, htab₈, h₅, runs_onSuper hk₄, ← htab₂]
    · rw [h₉, h₈, h₅]

end Super

/-! ## 2. The tables after a mount -/

/-- **One super block more**: `i` is that of `dev`, its root directory is in the slot `root`, and
    it is mounted on `dir`. -/
structure Tables.Fitted (T T' : Tables) (i root dir : Nat) (dev : Int) : Prop where
  bound : i < SUPER_NR
  free : (T.superTable i).dev = devEOF
  unknown : T.getSuper dev = none
  used : dev ≠ devEOF
  super : (T'.superTable i).dev = dev ∧ (T'.superTable i).iroot = some root ∧
    (T'.superTable i).imount = some dir
  supers : ∀ j, j ≠ i → T'.superTable j = T.superTable j
  fresh : (T.inodeTable root).dev = devEOF
  rooted : (T'.inodeTable root).dev = dev ∧ (T'.inodeTable root).nr = 1 ∧
    (T'.inodeTable root).pipe = false ∧ (T'.inodeTable root).mount = 0
  covered : T'.inodeTable dir = { T.inodeTable dir with mount := dev }
  inodes : ∀ x, x ≠ root → x ≠ dir → T'.inodeTable x = T.inodeTable x

section Fitted

variable {T T' : Tables} {i root dir x : Nat} {dev : Int}

/-- An inode in use keeps all but what is mounted on it. -/
theorem Tables.Fitted.keep (h : T.Fitted T' i root dir dev) (hx : (T.inodeTable x).Live) :
    ∃ m, T'.inodeTable x = { T.inodeTable x with mount := m } := by
  have hne : x ≠ root := fun e => hx (e ▸ h.fresh)
  by_cases e : x = dir
  · exact ⟨dev, e ▸ h.covered⟩
  · exact ⟨_, h.inodes x hne e⟩

theorem Tables.Fitted.getSuper (h : T.Fitted T' i root dir dev) {dev' : Int} (hd : dev' ≠ dev)
    (he : dev' ≠ devEOF) : T'.getSuper dev' = T.getSuper dev' := by
  unfold Tables.getSuper
  congr 1
  funext j
  by_cases e : j = i
  · simp [e, h.super.1, h.free, hd.symm, he.symm]
  · rw [h.supers j e]

theorem Tables.Fitted.mounts (h : T.Fitted T' i root dir dev) :
    T'.mounts.Perm (root :: dir :: T.mounts) := by
  have hi := List.mem_range.mpr h.bound
  have h₁ := flatMap_pick List.nodup_range hi (f := fun j => (T.superTable j).refs)
    (g := fun j => (T.superTable j).refs) fun _ _ => rfl
  have h₂ := flatMap_pick List.nodup_range hi (f := fun j => (T.superTable j).refs)
    (g := fun j => (T'.superTable j).refs) fun j hj => by rw [h.supers j hj]
  have hrefs : (T.superTable i).refs = [] := if_pos h.free
  have hrefs' : (T'.superTable i).refs = [root, dir] := by
    obtain ⟨hdev, hr, hm⟩ := h.super
    rw [SuperBlock.refs, if_neg (by rw [hdev]; exact h.used), hr, hm]
    rfl
  rw [hrefs, List.nil_append] at h₁
  rw [hrefs'] at h₂
  exact h₂.trans ((h₁.symm.cons dir).cons root)

theorem Mounted.fitted (h : Mounted T) (hf : T.Fitted T' i root dir dev)
    (hlive : ∀ x ∈ T.mounts, (T.inodeTable x).Live) (hp : (T.inodeTable dir).pipe = false)
    (hnr : (T.inodeTable dir).nr ≠ 1) : Mounted T' := by
  have hold : ∀ j, j ≠ i → (T.superTable j).dev ≠ devEOF → ∀ x, (T.superTable j).iroot = some x ∨
      (T.superTable j).imount = some x → ∃ m, T'.inodeTable x = { T.inodeTable x with mount := m } :=
    fun j hj hdev x hx => hf.keep (hlive x (Tables.mem_mounts (h.bound j hdev) hdev hx))
  refine ⟨fun j hj => ?_, fun j hj => ?_, fun j hj => ?_, fun j hj => ?_, fun x hx => ?_,
    fun j hj m hm hnr' => ?_⟩
  all_goals try by_cases e : j = i
  · exact e ▸ hf.bound
  · rw [hf.supers j e] at hj
    exact h.bound j hj
  · rw [e, hf.super.1, hf.super.2.1]
    exact ⟨root, rfl, hf.rooted.1, hf.rooted.2.1, hf.rooted.2.2.1⟩
  · rw [hf.supers j e] at hj ⊢
    obtain ⟨r, hr, hdev, hnr, hp⟩ := h.roots j hj
    obtain ⟨m, hm⟩ := hold j e hj r (.inl hr)
    exact ⟨r, hr, by rw [hm]; exact ⟨hdev, hnr, hp⟩⟩
  · rw [e, hf.super.2.2]
    exact ⟨dir, rfl, by rw [hf.covered]; exact hp⟩
  · rw [hf.supers j e] at hj ⊢
    obtain ⟨m, hm, hp⟩ := h.covers j hj
    obtain ⟨m', hm'⟩ := hold j e hj m (.inr hm)
    exact ⟨m, hm, by rw [hm']; exact hp⟩
  · rw [e, hf.super.1] at hj
    exact absurd hj hf.used
  · rw [hf.supers j e] at hj ⊢
    exact h.spare j hj
  · by_cases e : x = dir
    · exact ⟨i, by rw [hf.super.1]; exact hf.used, by rw [hf.super.2.2, e]⟩
    · have e' : x ≠ root := fun e => hx (e ▸ hf.rooted.2.2.2)
      rw [hf.inodes x e' e] at hx
      obtain ⟨j, hj, hm⟩ := h.covered x hx
      have hji : j ≠ i := fun e => hj (e ▸ hf.free)
      exact ⟨j, by rw [hf.supers j hji]; exact hj, by rw [hf.supers j hji]; exact hm⟩
  · rw [e, hf.super.2.2] at hm
    obtain rfl := Option.some.inj hm
    rw [hf.covered] at hnr'
    exact absurd hnr' hnr
  · rw [hf.supers j e] at hj hm
    obtain ⟨m', hm'⟩ := hold j e hj m (.inr hm)
    rw [hm'] at hnr' ⊢
    obtain ⟨k, hk, hkm⟩ := h.rooted j hj m hm hnr'
    have hne : (T.inodeTable m).dev ≠ dev := fun e => by
      rw [e, hf.unknown] at hk
      cases hk
    have hused : (T.inodeTable m).dev ≠ devEOF :=
      hlive m (Tables.mem_mounts (h.bound j hj) hj (.inr hm))
    have hki : k ≠ i := fun e => hused (by rw [← getSuper_dev hk, e]; exact hf.free)
    exact ⟨k, (hf.getSuper hne hused).trans hk, by rw [hf.supers k hki]; exact hkm⟩

/-- A directory with one reference, besides those of the super blocks, is no root directory. -/
theorem Mounted.nr_ne_one (h : Mounted T) {refs : List Nat} (ho : Owned T (dir :: refs))
    (hm : ∀ x ∈ T.mounts, x ∈ refs) (hc : (T.inodeTable dir).count = 1)
    (hp : (T.inodeTable dir).pipe = false) : (T.inodeTable dir).nr ≠ 1 := by
  intro hnr
  have hdir : dir ∉ refs := by
    rw [ho.count dir, List.count_cons_self] at hc
    exact List.count_eq_zero.mp (by omega)
  have hlive : (T.inodeTable dir).Live := (ho.live dir).mpr List.mem_cons_self
  obtain ⟨j, hj⟩ := ho.placed.onList dir hlive hp
  have hdev := getSuper_dev (ho.placed.home j dir hj)
  have hjdev : (T.superTable j).dev ≠ devEOF := hdev ▸ hlive
  obtain ⟨r, hr, hrdev, hrnr, hrp⟩ := h.roots j hjdev
  have hrm : r ∈ refs := hm r (Tables.mem_mounts (h.bound j hjdev) hjdev (.inl hr))
  obtain ⟨k, hk⟩ := ho.placed.onList r ((ho.live r).mpr (List.mem_cons_of_mem _ hrm)) hrp
  have hkj : k = j := by
    have h₁ := ho.placed.home k r hk
    rw [hrdev, hdev, ho.placed.home j dir hj] at h₁
    exact (Option.some.inj h₁).symm
  exact hdir (ho.placed.distinct j r (hkj ▸ hk) dir hj (hrnr.trans hnr.symm) ▸ hrm)

end Fitted

/-! ## 3. `sys_mount` -/

section Mount

variable {S S' : System} {p : Nat} {k t : Kernel} {dev : Int} {E O base : List Nat}

/-- What a mount does to the tables, from the super block that is read to `iput(devinode)`. -/
theorem booking_mount {entries others : List Nat} {s : Kernel} {i root dir devi : Nat}
    {s₂ s₃ s₄ s₅ : Kernel} {b : Bytes} {u₄ u₅ u₆ : Unit}
    (hb : Booking entries (dir :: devi :: others) s.tab) (hm : Mounted s.tab)
    (hmo : ∀ x ∈ s.tab.mounts, x ∈ others) (hdev : 0 ≤ dev)
    (hnone : s.tab.getSuper dev = none) (hi : i < SUPER_NR)
    (hfree : (s.tab.superTable i).dev = devEOF)
    (hp : (s.tab.inodeTable dir).pipe = false) (hc : (s.tab.inodeTable dir).count = 1)
    (h₂ : s₂.tab = s.tab.setSuper i ((s.tab.superTable i).read dev b))
    (h₃ : Ends (iget dev 1) s₂ root s₃)
    (h₄ : Ends (onSuper i fun sb => { sb with iroot := some root, imount := some dir }) s₃ u₄ s₄)
    (h₅ : Ends (onInode dir fun d => { d with mount := dev }) s₄ u₅ s₅)
    (h₆ : Ends (iput devi) s₅ u₆ t) :
    Booking entries (root :: dir :: others) t.tab ∧ Mounted t.tab ∧
      s.tab.Fitted s₅.tab i root dir dev ∧ s₅.tab.Stays t.tab (root :: dir :: others) ∧
        t.tab.task = s.tab.task ∧ t.tab.running = s.tab.running := by
  have hused : dev ≠ devEOF := fun e => by
    rw [e] at hdev
    exact absurd hdev (by decide)
  have ho : Owned s.tab (dir :: devi :: (s.tab.openFiles ++ others)) :=
    hb.owned.perm (List.perm_middle.trans (List.perm_middle.cons dir))
  have hempty : (s.tab.superTable i).inodeList = [] := List.eq_nil_iff_forall_not_mem.mpr fun x hx =>
    (ho.lists.listed i x hx).1 (by rw [← getSuper_dev (ho.placed.home i x hx), hfree])
  -- the super block that is read has no inodes
  have hi₂ : s₂.tab.inodeTable = s.tab.inodeTable := by rw [h₂]; rfl
  have hl₂ : ∀ j, (s₂.tab.superTable j).inodeList = (s.tab.superTable j).inodeList := fun j => by
    by_cases e : j = i
    · simp [h₂, Tables.setSuper, e, SuperBlock.read]
    · simp [h₂, Tables.setSuper, e]
  have ho₂ := ho.supers hi₂ hl₂ fun j hj => by
    have hji : j ≠ i := fun e => hj (e ▸ hempty)
    obtain ⟨x, hx⟩ := List.exists_mem_of_ne_nil _ hj
    have hxdev := getSuper_dev (ho.placed.home j x hx)
    have h₁ : (s.tab.superTable i).dev ≠ (s.tab.superTable j).dev := fun e =>
      (ho.lists.listed j x hx).1 (by rw [← hxdev, ← e, hfree])
    have h₂' : ((s.tab.superTable i).read dev b).dev ≠ (s.tab.superTable j).dev := fun e => by
      have := ho.placed.home j x hx
      rw [← hxdev, ← e] at this
      exact absurd (hnone.symm.trans this) (by simp)
    rw [h₂]
    exact ⟨by simp [Tables.setSuper, hji], getSuper_setSuper h₁ h₂'⟩
  have hget : s₂.tab.getSuper dev = some i := by
    refine List.find?_range_eq_some.mpr ⟨?_, List.mem_range.mpr hi, fun j hj => ?_⟩
    · simp [h₂, Tables.setSuper, SuperBlock.read]
    · have hji : j ≠ i := by omega
      have := List.find?_eq_none.mp hnone j (List.mem_range.mpr (by omega))
      simpa [h₂, Tables.setSuper, hji] using this
  obtain ⟨hgot, -⟩ := iget_got
    (fun j x hx => ho₂.count_ne.mpr (ho₂.listed hx)) h₃
  have hnil : (s₂.tab.superTable i).inodeList = [] := (hl₂ i).trans hempty
  generalize hT₃ : s₃.tab = T₃ at hgot
  cases hgot with
  | found j _ hj hx =>
    obtain rfl := Option.some.inj (hget.symm.trans hj)
    rw [hnil] at hx
    cases hx
  | crossed j x _ _ hj hx =>
    obtain rfl := Option.some.inj (hget.symm.trans hj)
    rw [hnil] at hx
    cases hx
  | fresh j _ hj hnr hlt hfresh =>
    obtain rfl := Option.some.inj (hget.symm.trans hj)
    have hroot : root ∉ dir :: devi :: (s.tab.openFiles ++ others) := fun hx =>
      (ho₂.live root).mpr hx hfresh
    obtain ⟨hrp, hrm⟩ := ho₂.bare root hroot
    have hrd : root ≠ dir := fun e => hroot (by rw [e]; exact List.mem_cons_self)
    have hcount : (s₂.tab.inodeTable root).count + 1 = 1 := by
      rw [ho₂.count root, List.count_eq_zero.mpr hroot]
    have ho₃ : Owned s₃.tab (root :: dir :: devi :: (s.tab.openFiles ++ others)) := by
      rw [hT₃]
      exact ho₂.claim hroot hlt hget hnr rfl rfl hused hcount hrp hrm
    have h₄ := runs_onSuper h₄
    have ho₄ : Owned s₄.tab (root :: dir :: devi :: (s.tab.openFiles ++ others)) := by
      refine ho₃.supers (by rw [h₄]; rfl) (fun j => ?_) fun j _ =>
        ⟨funext fun nr => ?_, getSuper_congr (fun j => ?_) _⟩
      all_goals by_cases e : j = i
      all_goals simp [h₄, Tables.setSuper, e, inodeBlock]
    have h₅ := runs_onInode h₅
    have ho₅ : Owned s₅.tab (root :: dir :: devi :: (s.tab.openFiles ++ others)) := by
      have := ho₄.setMount (x := dir) (by simp) hused
      rw [h₅]
      exact this
    have hfit : s.tab.Fitted s₅.tab i root dir dev := by
      have hdirT : s₄.tab.inodeTable dir = s.tab.inodeTable dir := by
        simp [h₄, hT₃, Tables.claimed, Tables.setSuper, Tables.setInode, hrd.symm, hi₂]
      refine ⟨hi, hfree, hnone, hused, ?_, fun j hj => ?_, ?_, ?_, ?_, fun x hx hx' => ?_⟩
      · simp [h₅, h₄, hT₃, h₂, Tables.claimed, Tables.setSuper, Tables.setInode, SuperBlock.read]
      · simp [h₅, h₄, hT₃, h₂, Tables.claimed, Tables.setSuper, Tables.setInode, hj]
      · rw [← hi₂]
        exact hfresh
      · simp [h₅, h₄, hT₃, Tables.claimed, Tables.setSuper, Tables.setInode, hrd, hrp, hrm]
      · simp [h₅, Tables.setInode, hdirT]
      · simp [h₅, h₄, hT₃, Tables.claimed, Tables.setSuper, Tables.setInode, hx, hx', hi₂]
    have hsub : ∀ x ∈ s.tab.mounts, x ∈ devi :: (s.tab.openFiles ++ others) := fun x hx => by
      simp [hmo x hx]
    have hm₅ : Mounted s₅.tab := hm.fitted hfit
      (fun x hx => (ho.live x).mpr (List.mem_cons_of_mem _ (hsub x hx))) hp
      (hm.nr_ne_one ho hsub hc hp)
    -- `iput(devinode)` leaves the rest alone
    have hput := iput_putAway h₆
    have ho₅' : Owned s₅.tab (devi :: (s.tab.openFiles ++ (root :: dir :: others))) := by
      refine ho₅.perm ?_
      have h₁ : (root :: dir :: devi :: (s.tab.openFiles ++ others)).Perm
          (devi :: root :: dir :: (s.tab.openFiles ++ others)) :=
        ((List.Perm.swap _ _ _).cons root).trans (.swap _ _ _)
      have h₂ : (root :: dir :: (s.tab.openFiles ++ others)).Perm
          (s.tab.openFiles ++ (root :: dir :: others)) :=
        (List.perm_middle.symm.cons root).trans List.perm_middle.symm
      exact h₁.trans (h₂.cons devi)
    obtain ⟨ho₆, hcore⟩ := hput.owned ho₅' fun hx => not_not.mp fun hmnt => hx (by
      obtain ⟨j, hj, hjm⟩ := hm₅.covered devi hmnt
      have := hfit.mounts.mem_iff.mp (Tables.mem_mounts (hm₅.bound j hj) hj (.inr hjm))
      simp only [List.mem_cons] at this
      obtain rfl | rfl | h := this
      · simp
      · simp
      · simp [hmo _ h])
    have hst : s₅.tab.Stays t.tab (root :: dir :: others) :=
      hput.around.stays fun y hy => hcore y (List.mem_append_right _ hy)
    have hfile : t.tab.fileTable = s.tab.fileTable := by
      rw [hput.around.file, h₅, h₄]
      show s₃.tab.fileTable = _
      rw [hT₃]
      show s₂.tab.fileTable = _
      rw [h₂]
      rfl
    refine ⟨⟨by rwa [openFiles_congr hfile], fun f => by rw [hfile, hb.files f], hb.bound⟩,
      hm₅.stays (hst.mono fun x hx => ?_), hfit, hst, ?_, ?_⟩
    · have := hfit.mounts.mem_iff.mp hx
      simp only [List.mem_cons] at this ⊢
      exact this.imp_right (·.imp_right (hmo x))
    · rw [hput.around.task, h₅, h₄]
      show s₃.tab.task = _
      rw [hT₃]
      show s₂.tab.task = _
      rw [h₂]
      rfl
    · rw [hput.around.running, h₅, h₄]
      show s₃.tab.running = _
      rw [hT₃]
      show s₂.tab.running = _
      rw [h₂]
      rfl

theorem ends_superRollback {α : Type} {i : Option Nat} {x : Option Nat} {ret a : α} {S₀ : System}
    (h : Ends (superRollback i x ret) S₀ a S') :
    ∃ S₁, Ends (putSuper i) S₀ () S₁ ∧ ∃ k, Ends (iput? x) S₁.kernel () k ∧ ret = a ∧
      S' = { S₁ with kernel := k } := by
  obtain ⟨_, S₁, h₁, h⟩ := runs_bind.mp h
  obtain ⟨_, S₂, h₂, rfl, rfl⟩ := runs_bind.mp h
  obtain ⟨k, hk, rfl⟩ := ends_lift.mp h₂
  exact ⟨S₁, h₁, k, hk, rfl, rfl⟩

theorem settled_mountOn (hS : Settled S) (hp : p ∈ S.alive) {wd rt devi dir : Nat}
    (hbase : base = wd :: rt :: (S.iexec p).toList)
    (hs : Holds S.kernel.tab p wd rt (S.otherEntries p) (S.otherHeld p) (dir :: devi :: base) k)
    (hc : (k.tab.inodeTable dir).count = 1) (hdev : 0 ≤ dev) {a : Bool}
    (h : Ends (mountOn devi dir dev) { S with kernel := k } a S') : Settled S' := by
  have hr := hS.rooted p
  have hm : Mounted k.tab :=
    hS.mounted.stays (hs.stays.mono fun _ hx => List.mem_append_right _ hx)
  obtain ⟨i, S₁, h₁, h⟩ := runs_bind.mp h
  obtain ⟨sb, S₂, h₂, h⟩ := runs_bind.mp h
  obtain ⟨_, ⟨rfl, rfl⟩, rfl⟩ := ends_lift.mp h₂
  obtain ⟨hi, rfl⟩ | ⟨hnone, hi, hfree, b, k₁, hk₁, rfl⟩ := ends_readSuper h₁
  · -- the device is mounted already
    have hi : k.tab.getSuper dev = some i := hi
    have hused : (k.tab.superTable i).dev ≠ devEOF := by
      rw [getSuper_dev hi]
      intro e
      rw [e] at hdev
      exact absurd hdev (by decide)
    obtain ⟨m, hm, -⟩ := hm.covers i hused
    have hcount : S.superCount i ≠ 0 := hS.supers i (by
      have := hs.stays.super i
      rw [this] at hused
      exact hused)
    obtain ⟨-, h⟩ | ⟨hn, -⟩ := runs_ite.mp h
    · obtain ⟨_, S₃, h₃, h⟩ := runs_bind.mp h
      obtain ⟨S₄, h₄, k₅, hk₅, -, rfl⟩ := ends_superRollback h₃
      have h₄ := ends_putSuper (by simp; omega) h₄
      obtain ⟨_, S₆, h₆, -, rfl⟩ := runs_bind.mp h
      obtain ⟨k₇, hk₇, rfl⟩ := ends_lift.mp h₆
      rw [h₄] at hk₅
      have hs₅ := holds_iput hr devi _ _ _ (hs.perm (.swap _ _ _)) hk₅
      have hs₇ := holds_iput hr dir _ _ _ hs₅ hk₇
      have := Serves.settled hS hp ⟨wd, rt, hbase ▸ hs₇⟩
      rw [Function.update_eq_self] at this
      rw [h₄]
      simpa using this
    · have hmi : (k.tab.superTable i).imount = some m := hm
      exact absurd (by simp [hmi]) hn
  · -- a free super block is filled
    have hspare : (k₁.tab.superTable i).imount = none := by
      simp [hk₁, Tables.setSuper, SuperBlock.read, (hm.spare i hfree).2]
    obtain ⟨hn, -⟩ | ⟨-, h⟩ := runs_ite.mp h
    · rw [hspare] at hn
      cases hn
    obtain ⟨root, S₂, h₂, h⟩ := runs_bind.mp h
    obtain ⟨k₂, hk₂, rfl⟩ := ends_lift.mp h₂
    obtain ⟨_, S₃, h₃, h⟩ := runs_bind.mp h
    obtain ⟨k₃, hk₃, rfl⟩ := ends_lift.mp h₃
    obtain ⟨_, S₄, h₄, h⟩ := runs_bind.mp h
    obtain ⟨k₄, hk₄, rfl⟩ := ends_lift.mp h₄
    obtain ⟨_, S₅, h₅, -, rfl⟩ := runs_bind.mp h
    obtain ⟨t, ht, rfl⟩ := ends_lift.mp h₅
    have hmk : k.tab.mounts = S.kernel.tab.mounts := mounts_congr hs.stays
    have hmo : ∀ x ∈ k.tab.mounts, x ∈ base ++ S.otherHeld p := fun x hx => by
      rw [hmk] at hx
      exact List.mem_append_right _ (List.mem_append_right _ hx)
    have hbook : Booking ((k.tab.task p).entries ++ S.otherEntries p)
        (dir :: devi :: (base ++ S.otherHeld p)) k.tab := hs.booking
    obtain ⟨hb, hmt, hfit, hst, htask, hrunning⟩ := booking_mount hbook hm hmo hdev hnone hi hfree
      (hs.plain dir List.mem_cons_self) hc hk₁ hk₂ hk₃ hk₄ ht
    obtain ⟨S', hS'⟩ : ∃ S' : System,
        S' = { S with kernel := t, superCount := Function.update S.superCount i 1 } := ⟨_, rfl⟩
    have hkt : S'.kernel = t := by rw [hS']
    have hp' : p ∈ S'.alive := by rwa [System.alive_congr (S := S) (by rw [hS'])]
    obtain ⟨hE, hD⟩ : S'.otherEntries p = S.otherEntries p ∧ S'.otherDirs p = S.otherDirs p :=
      System.other_congr (by rw [hS']) (fun q hq => by rw [hkt, htask]; exact hs.tasks q hq)
        fun q _ => by rw [hS']
    have hself : S'.held p = base := by
      unfold System.held
      rw [hkt, htask, hs.cwd, hs.root, hS', hbase]
    have hmt' : t.tab.mounts.Perm (root :: dir :: S.kernel.tab.mounts) := by
      rw [mounts_congr hst, ← hmk]
      exact hfit.mounts
    show Settled { S with kernel := t, superCount := Function.update S.superCount i 1 }
    rw [← hS']
    have he := System.entries_perm hp'
    have hh := System.held_perm hp'
    rw [System.otherHeld, hD, hself, hkt] at hh
    refine ⟨?_, fun y hy => ?_, by rw [hkt]; exact hmt, fun j hj => ?_⟩
    · rw [hE, hkt, htask] at he
      rw [hkt]
      refine hb.perm he.symm (.trans ?_ hh.symm)
      have h₁ := (hmt'.append_left (S.otherDirs p)).append_left base
      refine .trans (List.perm_iff_count.mpr fun x => ?_) h₁.symm
      simp only [System.otherHeld, List.count_append, List.count_cons]
      omega
    · have hy : y ∈ base ++ S.otherDirs p := by
        have hy := (flatMap_pick System.nodup_alive hp' (f := S'.held) (g := S'.held)
          fun _ _ => rfl).mem_iff.mp hy
        rw [hself] at hy
        have hD : (S'.alive.erase p).flatMap S'.held = S.otherDirs p := hD
        rwa [hD] at hy
      have hyo : y ∈ base ++ S.otherHeld p := by
        unfold System.otherHeld
        rw [← List.append_assoc]
        exact List.mem_append_left _ hy
      have hpk : (k.tab.inodeTable y).pipe = false := by
        obtain hy | hy := List.mem_append.mp hy
        · exact hs.plain y (by simp [hy])
        · obtain ⟨n, hn⟩ := hs.stays.core y (List.mem_append_left _ hy)
          rw [hn]
          obtain ⟨q, hq, hy⟩ := List.mem_flatMap.mp hy
          exact hS.plain y (List.mem_flatMap.mpr ⟨q, List.mem_of_mem_erase hq, hy⟩)
      obtain ⟨m, hm⟩ := hfit.keep ((hs.booking.owned.live y).mpr (by simp [List.mem_append.mp hyo]))
      obtain ⟨n, hn⟩ := hst.core y (by simp [List.mem_append.mp hyo])
      rw [hkt, hn, hm]
      exact hpk
    · rw [hkt, hst.super j] at hj
      rw [hS']
      by_cases e : j = i
      · simp [e]
      · have hj : (k₄.tab.superTable j).dev ≠ devEOF := hj
        rw [hfit.supers j e, hs.stays.super j] at hj
        simpa [e] using hS.supers j hj

theorem settled_sysMount (hS : Settled S) (hp : p ∈ S.alive) (hrun : S.kernel.tab.running = p)
    {devname dirname : List UInt8} {a : Bool} (h : Ends (sysMount devname dirname) S a S') :
    Settled S' := by
  have hr := hS.rooted p
  obtain ⟨wd, rt, hs⟩ := hS.serves hp hrun
  obtain ⟨base, hbase⟩ : ∃ base, base = wd :: rt :: (S.iexec p).toList := ⟨_, rfl⟩
  rw [← hbase] at hs
  have hwd : wd ∈ base := by simp [hbase]
  have hrt : rt ∈ base := by simp [hbase]
  have hback : ∀ {k}, Holds S.kernel.tab p wd rt (S.otherEntries p) (S.otherHeld p) base k →
      Settled { S with kernel := k } := fun hk => by
    have := Serves.settled hS hp ⟨wd, rt, hbase ▸ hk⟩
    rwa [Function.update_eq_self] at this
  obtain ⟨r, S₁, h₁, h⟩ := runs_bind.mp h
  obtain ⟨k₁, hk₁, rfl⟩ := ends_lift.mp h₁
  have hs₁ := holds_namei hr hwd hrt devname _ _ _ hs hk₁
  cases r with
  | none =>
    obtain ⟨-, rfl⟩ := h
    exact hback hs₁
  | some devi =>
    have hfail : ∀ {b : Bool} {k : Kernel} {S'}, Holds S.kernel.tab p wd rt (S.otherEntries p)
        (S.otherHeld p) (devi :: base) k →
        Ends (superRollback none (some devi) false) { S with kernel := k } b S' →
          Settled S' := fun hk h => by
      obtain ⟨_, ⟨-, rfl⟩, k', hk', -, rfl⟩ := ends_superRollback h
      exact hback (holds_iput hr devi _ _ _ hk hk')
    obtain ⟨mode, S₂, h₂, h⟩ := runs_bind.mp h
    obtain rfl := ends_lift_eq (descGet_obeys devi _) h₂
    obtain ⟨-, h⟩ | ⟨-, h⟩ := runs_ite.mp h
    · exact hfail hs₁ h
    obtain ⟨dev, S₂, h₂, h⟩ := runs_bind.mp h
    obtain rfl := ends_lift_eq (descGet_obeys devi _) h₂
    obtain ⟨r, S₂, h₂, h⟩ := runs_bind.mp h
    obtain ⟨k₂, hk₂, rfl⟩ := ends_lift.mp h₂
    have hs₂ := holds_namei hr (List.mem_cons_of_mem _ hwd) (List.mem_cons_of_mem _ hrt) dirname
      _ _ _ hs₁ hk₂
    cases r with
    | none => exact hfail hs₂ h
    | some dir =>
      obtain ⟨dmode, S₃, h₃, h⟩ := runs_bind.mp h
      obtain rfl := ends_lift_eq (descGet_obeys dir _) h₃
      obtain ⟨d, S₃, h₃, h⟩ := runs_bind.mp h
      obtain ⟨_, ⟨rfl, rfl⟩, rfl⟩ := ends_lift.mp h₃
      obtain ⟨-, h⟩ | ⟨hok, h⟩ := runs_ite.mp h
      · obtain ⟨_, S₃, h₃, h⟩ := runs_bind.mp h
        obtain ⟨_, ⟨-, rfl⟩, k', hk', -, rfl⟩ := ends_superRollback h₃
        obtain ⟨_, S₄, h₄, -, rfl⟩ := runs_bind.mp h
        obtain ⟨k'', hk'', rfl⟩ := ends_lift.mp h₄
        have hs₃ := holds_iput hr devi _ _ _ (hs₂.perm (.swap _ _ _)) hk'
        exact hback (holds_iput hr dir _ _ _ hs₃ hk'')
      · have hc : (k₂.tab.inodeTable dir).count = 1 := by
          by_contra hn
          exact hok (.inr (.inl hn))
        exact settled_mountOn hS hp hbase hs₂ hc (Int.natCast_nonneg dev) h

end Mount

end Yuios
