/-
  File:      Yuios/Fs/Settled.lean
  Subject:   THE SYSTEM BETWEEN TWO CALLS: every reference is counted.

  * `System.entries`, `System.pointers` -- all the descriptors of live processes, and all the
    pointers to inodes: open files, directories and programs of live processes, super blocks.
  * `Mounted` -- what the super blocks say of the inodes they point to.
  * `Settled` -- the counts are those of the references, and the file systems are mounted in order.
  * `Settled.serves`, `Serves.settled` -- one process begins a call, and ends it.
-/
import Yuios.Fs.Holders

namespace Yuios

open Lib Prog Code

/-! ## 1. Kernel code in a system -/

theorem fits_kernel : Fits System.kernel fun k S => { S with kernel := k } where
  look_fit _ _ := rfl
  fit_look _ := rfl
  fit_fit _ _ _ := rfl

theorem ends_onKernel {α : Type} {c : Code α} {S S' : System} {a : α} :
    Ends (onKernel c) S a S' ↔ ∃ k, Ends c S.kernel a k ∧ S' = { S with kernel := k } :=
  runs_zoom fits_kernel

/-- Kernel code in a call is code on the kernel. -/
theorem ends_lift {α : Type} {c : Code α} {S S' : System} {a : α} :
    Ends (liftM c : Call α) S a S' ↔ ∃ k, Ends c S.kernel a k ∧ S' = { S with kernel := k } :=
  ends_onKernel

/-- Kernel code that only reads. -/
theorem ends_lift_eq {α : Type} {c : Code α} (hc : Obeys Eq c) {S S' : System} {a : α}
    (h : Ends (liftM c : Call α) S a S') : S = S' := by
  obtain ⟨k, hk, rfl⟩ := ends_lift.mp h
  have hk : S.kernel = k := hc _ _ _ hk
  rw [← hk]

theorem ends_runningTask {S S' : System} {task : Task}
    (h : Ends (liftM runningTask : Call Task) S task S') :
    S.kernel.tab.task S.kernel.tab.running = task ∧ S = S' := by
  obtain ⟨k, hk, rfl⟩ := ends_lift.mp h
  obtain ⟨rfl, rfl⟩ := runs_runningTask.mp hk
  exact ⟨rfl, rfl⟩

theorem ends_runningExec {S S' : System} {exec : Option Nat} (h : Ends runningExec S exec S') :
    S.iexec S.kernel.tab.running = exec ∧ S = S' := h

/-! ## 2. Pointers -/

/-- The live processes. -/
def System.alive (S : System) : List Nat := (List.range NR_TASKS).filter fun p => S.state p = .alive

/-- The files the descriptors of live processes point to. -/
def System.entries (S : System) : List Nat := S.alive.flatMap fun p => (S.kernel.tab.task p).entries

/-- What a process points to itself: `ipwd`, `iroot` and `iexec`. -/
def System.held (S : System) (p : Nat) : List Nat :=
  (S.kernel.tab.task p).ipwd :: (S.kernel.tab.task p).iroot :: (S.iexec p).toList

/-- What the live processes point to. -/
def System.directories (S : System) : List Nat := S.alive.flatMap S.held

/-- What a super block points to: `iroot` and `imount`. -/
def SuperBlock.refs (sb : SuperBlock) : List Nat :=
  if sb.dev = devEOF then [] else sb.iroot.toList ++ sb.imount.toList

/-- What the super blocks point to. -/
def Tables.mounts (T : Tables) : List Nat :=
  (List.range SUPER_NR).flatMap fun i => (T.superTable i).refs

/-- All the pointers to inodes. -/
def System.pointers (S : System) : List Nat :=
  S.kernel.tab.openFiles ++ (S.directories ++ S.kernel.tab.mounts)

/-- The descriptors of the other processes. -/
def System.otherEntries (S : System) (p : Nat) : List Nat :=
  (S.alive.erase p).flatMap fun q => (S.kernel.tab.task q).entries

/-- What the other processes point to. -/
def System.otherDirs (S : System) (p : Nat) : List Nat := (S.alive.erase p).flatMap S.held

/-- What the other processes and the super blocks point to. -/
def System.otherHeld (S : System) (p : Nat) : List Nat := S.otherDirs p ++ S.kernel.tab.mounts

section Pointers

variable {S S' : System} {p q : Nat}

theorem System.mem_alive : p ∈ S.alive ↔ p < NR_TASKS ∧ S.state p = .alive := by
  simp [System.alive]

theorem System.nodup_alive : S.alive.Nodup := List.nodup_range.filter _

theorem System.alive_congr (h : S'.state = S.state) : S'.alive = S.alive := by
  unfold System.alive
  rw [h]

/-- The descriptors of one process and the others'. -/
theorem System.entries_perm (hp : p ∈ S.alive) :
    S.entries.Perm ((S.kernel.tab.task p).entries ++ S.otherEntries p) :=
  flatMap_pick System.nodup_alive hp fun _ _ => rfl

/-- What one process points to, and the others. -/
theorem System.held_perm (hp : p ∈ S.alive) :
    (S.directories ++ S.kernel.tab.mounts).Perm (S.held p ++ S.otherHeld p) := by
  unfold System.otherHeld System.otherDirs
  rw [← List.append_assoc]
  exact (flatMap_pick System.nodup_alive hp fun _ _ => rfl).append_right _

theorem System.other_congr (hst : S'.state = S.state)
    (htask : ∀ q, q ≠ p → S'.kernel.tab.task q = S.kernel.tab.task q)
    (hexec : ∀ q, q ≠ p → S'.iexec q = S.iexec q) :
    S'.otherEntries p = S.otherEntries p ∧ S'.otherDirs p = S.otherDirs p := by
  have hne : ∀ q ∈ S.alive.erase p, q ≠ p := fun q hq =>
    (System.nodup_alive.mem_erase_iff.mp hq).1
  unfold System.otherEntries System.otherDirs
  rw [System.alive_congr hst]
  refine ⟨List.flatMap_congr fun q hq => by rw [htask q (hne q hq)],
    List.flatMap_congr fun q hq => ?_⟩
  unfold System.held
  rw [htask q (hne q hq), hexec q (hne q hq)]

theorem mounts_congr {T T' : Tables} {refs : List Nat} (h : T.Stays T' refs) :
    T'.mounts = T.mounts := by
  unfold Tables.mounts SuperBlock.refs
  refine List.flatMap_congr fun i _ => ?_
  rw [h.super i]

end Pointers

/-! ## 3. The file systems that are mounted -/

/-- **The file systems are mounted in order**: a used super block has its root directory and what
    it is mounted on, and nothing else is mounted on. -/
structure Mounted (T : Tables) : Prop where
  bound : ∀ i, (T.superTable i).dev ≠ devEOF → i < SUPER_NR
  roots : ∀ i, (T.superTable i).dev ≠ devEOF → ∃ r, (T.superTable i).iroot = some r ∧
    (T.inodeTable r).dev = (T.superTable i).dev ∧ (T.inodeTable r).nr = 1 ∧
      (T.inodeTable r).pipe = false
  covers : ∀ i, (T.superTable i).dev ≠ devEOF → ∃ m, (T.superTable i).imount = some m ∧
    (T.inodeTable m).pipe = false
  spare : ∀ i, (T.superTable i).dev = devEOF →
    (T.superTable i).iroot = none ∧ (T.superTable i).imount = none
  covered : ∀ x, (T.inodeTable x).mount ≠ 0 →
    ∃ i, (T.superTable i).dev ≠ devEOF ∧ (T.superTable i).imount = some x
  rooted : ∀ i, (T.superTable i).dev ≠ devEOF → ∀ m, (T.superTable i).imount = some m →
    (T.inodeTable m).nr = 1 →
      ∃ j, T.getSuper (T.inodeTable m).dev = some j ∧ (T.superTable j).imount = some m

section Mounted

variable {T T' : Tables} {refs : List Nat} {i x : Nat}

theorem Tables.mem_mounts (hlt : i < SUPER_NR) (hi : (T.superTable i).dev ≠ devEOF)
    (hx : (T.superTable i).iroot = some x ∨ (T.superTable i).imount = some x) : x ∈ T.mounts := by
  refine List.mem_flatMap.mpr ⟨i, List.mem_range.mpr hlt, ?_⟩
  rw [SuperBlock.refs, if_neg hi, List.mem_append, Option.mem_toList, Option.mem_toList]
  exact hx

theorem Mounted.byMounts (h : Mounted T) : Rooted T T.mounts where
  roots i hi y hy := by
    refine ⟨Tables.mem_mounts (h.bound i hi) hi hy, ?_⟩
    obtain ⟨r, hr, -, -, hrp⟩ := h.roots i hi
    obtain ⟨m, hm, hmp⟩ := h.covers i hi
    obtain hy | hy := hy
    · exact Option.some.inj (hr.symm.trans hy) ▸ hrp
    · exact Option.some.inj (hm.symm.trans hy) ▸ hmp
  covered x hx := by
    obtain ⟨i, hi, hm⟩ := h.covered x hx
    exact Tables.mem_mounts (h.bound i hi) hi (.inr hm)
  covers := h.rooted

theorem Mounted.stays (h : Mounted T) (hs : T.Stays T' T.mounts) : Mounted T' := by
  have hsup : ∀ i, (T'.superTable i).dev = (T.superTable i).dev ∧
      (T'.superTable i).iroot = (T.superTable i).iroot ∧
        (T'.superTable i).imount = (T.superTable i).imount := fun i => by
    rw [hs.super i]
    exact ⟨rfl, rfl, rfl⟩
  refine ⟨fun i hi => ?_, fun i hi => ?_, fun i hi => ?_, fun i hi => ?_, fun x hx => ?_,
    fun i hi m hm hnr => ?_⟩
  all_goals try rw [(hsup i).1] at hi
  · exact h.bound i hi
  · obtain ⟨r, hr, hdev, hnr, hp⟩ := h.roots i hi
    obtain ⟨n, hn⟩ := hs.core r (Tables.mem_mounts (h.bound i hi) hi (.inl hr))
    rw [(hsup i).1, (hsup i).2.1]
    exact ⟨r, hr, by rw [hn]; exact ⟨hdev, hnr, hp⟩⟩
  · obtain ⟨m, hm, hp⟩ := h.covers i hi
    obtain ⟨n, hn⟩ := hs.core m (Tables.mem_mounts (h.bound i hi) hi (.inr hm))
    rw [(hsup i).2.2]
    exact ⟨m, hm, by rw [hn]; exact hp⟩
  · rw [(hsup i).2.1, (hsup i).2.2]
    exact h.spare i hi
  · rw [hs.mount x] at hx
    obtain ⟨i, hi, hm⟩ := h.covered x hx
    exact ⟨i, by rw [(hsup i).1]; exact hi, by rw [(hsup i).2.2]; exact hm⟩
  · rw [(hsup i).2.2] at hm
    obtain ⟨n, hn⟩ := hs.core m (Tables.mem_mounts (h.bound i hi) hi (.inr hm))
    rw [hn] at hnr ⊢
    obtain ⟨j, hj, hjm⟩ := h.rooted i hi m hm hnr
    exact ⟨j, (hs.getSuper _).trans hj, by rw [(hsup j).2.2]; exact hjm⟩

end Mounted

/-! ## 4. Between two calls -/

/-- **Every reference is counted**, and the file systems are mounted in order. -/
structure Settled (S : System) : Prop where
  booking : Booking S.entries (S.directories ++ S.kernel.tab.mounts) S.kernel.tab
  plain : ∀ x ∈ S.directories, (S.kernel.tab.inodeTable x).pipe = false
  mounted : Mounted S.kernel.tab
  supers : ∀ i, (S.kernel.tab.superTable i).dev ≠ devEOF → S.superCount i ≠ 0

section Settled

variable {S : System} {p : Nat} {k : Kernel}

theorem Settled.rooted (h : Settled S) (p : Nat) : Rooted S.kernel.tab (S.otherHeld p) :=
  h.mounted.byMounts.mono fun _ hx => List.mem_append_right _ hx

/-- **A process begins a call.** -/
theorem Settled.serves (h : Settled S) (hp : p ∈ S.alive) (hrun : S.kernel.tab.running = p) :
    Serves S.kernel.tab p (S.otherEntries p) (S.otherHeld p) (S.iexec p).toList S.kernel := by
  refine ⟨_, _, hrun, fun _ _ => rfl, rfl, rfl, .refl _ _, ?_, fun x hx => ?_⟩
  · exact h.booking.perm (System.entries_perm hp) (System.held_perm hp)
  · exact h.plain x (List.mem_flatMap.mpr ⟨p, hp, hx⟩)

/-- **It has ended the call**, and `x` is its program. -/
theorem Serves.settled (hS : Settled S) (hp : p ∈ S.alive) {x : Option Nat}
    (h : Serves S.kernel.tab p (S.otherEntries p) (S.otherHeld p) x.toList k) :
    Settled { S with kernel := k, iexec := Function.update S.iexec p x } := by
  obtain ⟨wd, rt, h⟩ := h
  obtain ⟨S', hS'⟩ : ∃ S' : System,
      S' = { S with kernel := k, iexec := Function.update S.iexec p x } := ⟨_, rfl⟩
  have hk : S'.kernel = k := by rw [hS']
  have hm : S'.kernel.tab.mounts = S.kernel.tab.mounts := by rw [hk]; exact mounts_congr h.stays
  have hp' : p ∈ S'.alive := by rwa [System.alive_congr (S := S) (by rw [hS'])]
  obtain ⟨hE, hD⟩ : S'.otherEntries p = S.otherEntries p ∧ S'.otherDirs p = S.otherDirs p :=
    System.other_congr (by rw [hS']) (fun q hq => by rw [hk]; exact h.tasks q hq)
      fun q hq => by rw [hS']; exact Function.update_of_ne hq _ _
  have hO : S'.otherHeld p = S.otherHeld p := by rw [System.otherHeld, hD, hm]; rfl
  have hself : S'.held p = wd :: rt :: x.toList := by
    unfold System.held
    rw [hk, h.cwd, h.root, hS']
    simp
  rw [← hS']
  refine ⟨?_, fun y hy => ?_, ?_, ?_⟩
  · have he := System.entries_perm hp'
    have hh := System.held_perm hp'
    rw [hE, hk] at he
    rw [hO, hself] at hh
    rw [hk]
    exact h.booking.perm he.symm (hk ▸ hh.symm)
  · rw [hk]
    have hy : y ∈ S'.held p ++ S'.otherHeld p :=
      (System.held_perm hp').mem_iff.mp (List.mem_append_left _ hy)
    rw [hself, hO] at hy
    obtain hy | hy := List.mem_append.mp hy
    · exact h.plain y hy
    · obtain ⟨n, hn⟩ := h.stays.core y hy
      rw [hn]
      obtain hy | hy := List.mem_append.mp hy
      · refine hS.plain y ?_
        obtain ⟨q, hq, hy⟩ := List.mem_flatMap.mp hy
        exact List.mem_flatMap.mpr ⟨q, List.mem_of_mem_erase hq, hy⟩
      · obtain ⟨i, hi, hy⟩ := List.mem_flatMap.mp hy
        unfold SuperBlock.refs at hy
        split at hy
        · cases hy
        · rename_i hdev
          rw [List.mem_append, Option.mem_toList, Option.mem_toList] at hy
          exact (hS.mounted.byMounts.roots i hdev y hy).2
  · rw [hk]
    exact hS.mounted.stays (h.stays.mono fun _ hx => List.mem_append_right _ hx)
  · intro i hi
    rw [hk, h.stays.super i] at hi
    rw [hS']
    exact hS.supers i hi

/-- Kernel code that serves a process keeps the books. -/
theorem Settled.serve (hS : Settled S) (hp : p ∈ S.alive) (hrun : S.kernel.tab.running = p)
    {α : Type} {c : Code α} {a : α} {S' : System}
    (hc : ∀ T₀ E O held, Rooted T₀ O →
      Leads (Serves T₀ p E O held) c fun _ => Serves T₀ p E O held)
    (h : Ends (onKernel c) S a S') : Settled S' := by
  obtain ⟨k, hk, rfl⟩ := ends_onKernel.mp h
  have hs := hc _ _ _ _ (hS.rooted p) _ _ _ (hS.serves hp hrun) hk
  have := Serves.settled hS hp hs
  rwa [Function.update_eq_self] at this

end Settled

end Yuios
