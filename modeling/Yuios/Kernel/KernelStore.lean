/-
  File:      Yuios/Kernel/KernelStore.lean
  Subject:   STORES IN KERNEL MODE through a pointer of the user: the buffer of `sys_read`, the status
             of `task_waitpid`, the argument block of `copy_argv_envp`.

  The boot code and `enable_page` leave `CR0.WP` clear, so the processor does not look at the `write`
  that `copy_pde` has cleared, and `page_fault` is not called.

  * `Lone` -- no other page names the frame, or the word is there already.
  * **`kernelStore_lone`** -- the other process reads what it read before exactly if this holds.
  * `kernelStore_leaks` -- a page is mapped, the process forks, and the kernel stores for the parent.
-/
import Yuios.Kernel.Cow

namespace Yuios.Paging

open Lib Relation

/-- **Process `p'` does not map the frame of the page that `p` has at `v`**, or has the word `w` in it. -/
def Lone (s : State) (p p' v : Nat) (w : Word) : Prop :=
  Space.mapped ⟨s.mem, s.pde p⟩ v = true → ∀ v', UserAddr v' →
    Space.mapped ⟨s.mem, s.pde p'⟩ v' = true →
    (Space.entry ⟨s.mem, s.pde p'⟩ v').index = (Space.entry ⟨s.mem, s.pde p⟩ v).index →
    s.mem.frame (Space.entry ⟨s.mem, s.pde p⟩ v).index (WIDX v) = w

section KernelStore

variable {s s' : State} {p p' v v' : Nat} {q : Proc} {w : Word}

/-- The word of `v` in the page of `v'`. -/
def inPage (v v' : Nat) : Nat := PAGE (IDX v') + v % PAGE_SIZE

theorem inPage_user (h : UserAddr v') : UserAddr (inPage v v') := by
  unfold UserAddr USER_EXEC_ADDR KERNEL_MEMORY_SIZE SELF_MAP at *
  unfold inPage PAGE IDX PAGE_SIZE
  omega

theorem inPage_didx (v v' : Nat) : DIDX (inPage v v') = DIDX v' := by
  unfold inPage PAGE IDX PAGE_SIZE DIDX
  omega

theorem inPage_tidx (v v' : Nat) : TIDX (inPage v v') = TIDX v' := by
  unfold inPage PAGE IDX PAGE_SIZE TIDX
  omega

theorem inPage_widx (v v' : Nat) : WIDX (inPage v v') = WIDX v := by
  unfold inPage PAGE IDX PAGE_SIZE WIDX
  omega

theorem entry_inPage (S : Space) (v v' : Nat) : S.entry (inPage v v') = S.entry v' := by
  unfold Space.entry
  rw [inPage_didx, inPage_tidx]

theorem mapped_inPage (S : Space) (v v' : Nat) : S.mapped (inPage v v') = S.mapped v' := by
  unfold Space.mapped
  rw [entry_inPage, inPage_didx]

/-- A store to a page changes no table. -/
theorem put_frame {A : Finset Nat} {S : Space} {T : Nat} (hf : Fits A S) (hv : UserAddr v)
    (hmap : S.mapped v = true) (hT : T ∈ A ∪ tables S.pde FIRST_SLOT LAST_SLOT) :
    (S.put v w).frame T = S.mem.frame T := by
  rw [Space.mapped, Bool.and_eq_true] at hmap
  have hK := (hf.counted.entry (table_mem hv hmap.1) (tidx_lt v) (target_present hmap.2)).2
  exact Function.update_of_ne (by rintro rfl; exact hK hT) _ _

/-- What another process reads after the store: the same entry, of the changed frames. -/
theorem read_put (hs : Held s) (hp : s.procs p = some q) (hne : p' ≠ p) (hv : UserAddr v)
    (hmap : Space.mapped ⟨s.mem, q.pde⟩ v = true) (hv' : UserAddr v') :
    (s.setProc p (Space.put ⟨s.mem, q.pde⟩ v w) q).read p' v' =
      if Space.mapped ⟨s.mem, s.pde p'⟩ v' then
        some ((Space.put ⟨s.mem, q.pde⟩ v w).frame (Space.entry ⟨s.mem, s.pde p'⟩ v').index (WIDX v'))
      else none := by
  have hpde : (s.setProc p (Space.put ⟨s.mem, q.pde⟩ v w) q).pde p' = s.pde p' :=
    congrArg (fun o => Option.elim o (fun _ => Word.zero) Proc.pde) (Function.update_of_ne hne _ _)
  unfold State.read Space.read
  rw [hpde]
  by_cases hd : (s.pde p' (DIDX v')).present = true
  · have hT := tables_others hs hne (mem_tables_of hv'.slot.1 hv'.slot.2 hd)
    have he : Space.entry ⟨Space.put ⟨s.mem, q.pde⟩ v w, s.pde p'⟩ v'
        = Space.entry ⟨s.mem, s.pde p'⟩ v' :=
      congrFun (put_frame (hs.fits hp) hv hmap (Finset.mem_union_left _ hT)) _
    have hm : Space.mapped ⟨Space.put ⟨s.mem, q.pde⟩ v w, s.pde p'⟩ v'
        = Space.mapped ⟨s.mem, s.pde p'⟩ v' := by rw [Space.mapped, Space.mapped, he]
    show (if Space.mapped ⟨Space.put ⟨s.mem, q.pde⟩ v w, s.pde p'⟩ v' then some
      ((Space.put ⟨s.mem, q.pde⟩ v w).frame
        (Space.entry ⟨Space.put ⟨s.mem, q.pde⟩ v w, s.pde p'⟩ v').index (WIDX v')) else none) = _
    rw [hm, he]
  · simp [Space.mapped, hd]

/-- **A store in kernel mode**: the other process reads what it read before exactly if the page is
    not there yet, or its frame is not the other's, or has the word. -/
theorem kernelStore_lone {pages : Nat} (h : Kept pages s) (hv : UserAddr v) (hne : p' ≠ p)
    (ha : act s (.kernelStore p v w) = .ok s') :
    (∀ v', UserAddr v' → s'.read p' v' = s.read p' v') ↔ Lone s p p' v w := by
  have hs := kept_held h
  obtain ⟨c, hc, -⟩ | ⟨q, hp, ha⟩ := act_run ha
  · cases hc
  have hp : s.procs p = some q := hp
  have ha : run s p q (.kernelStore p v w) = .ok s' := ha
  obtain ⟨o, ho, ha⟩ := ok_of_bind ha
  have hf := hs.fits hp
  unfold Lone
  rw [pde_some hp]
  by_cases hmap : Space.mapped ⟨s.mem, q.pde⟩ v = true
  · -- the store goes through, whatever `write` is
    rw [kernelStore_user hv, if_pos hmap] at ho
    cases ho
    cases ha
    refine ⟨fun hread _ v' hv' hmap' hidx => ?_, fun hl v' hv' => ?_⟩
    · have hw := hread (inPage v v') (inPage_user hv')
      rw [read_put hs hp hne hv hmap (inPage_user hv'), mapped_inPage, entry_inPage, inPage_widx,
        if_pos hmap', hidx, State.read, Space.read, mapped_inPage, entry_inPage, inPage_widx,
        if_pos hmap', hidx] at hw
      exact (Option.some.inj hw).symm.trans (setWord_self _ _ _ _)
    · rw [read_put hs hp hne hv hmap hv', State.read, Space.read]
      split
      · next hmap' =>
          by_cases hidx : (Space.entry ⟨s.mem, s.pde p'⟩ v').index = (Space.entry ⟨s.mem, q.pde⟩ v).index
              ∧ WIDX v' = WIDX v
          · rw [hidx.1, hidx.2, hl hmap v' hv' hmap' hidx.1]
            exact congrArg some (setWord_self _ _ _ _)
          · exact congrArg some (setWord_ne hidx)
      · rfl
  · refine ⟨fun _ h => absurd h hmap, fun _ v' hv' => ?_⟩
    cases o with
    | none =>
      obtain ⟨m₁, hm, ha⟩ := ok_of_bind ha
      cases ha
      exact read_congr (Function.update_of_ne hne _ _) hv' fun g _ =>
        congrFun (freePde_counted hf hm).2 g
    | some r =>
      cases ha
      refine read_congr (Function.update_of_ne hne _ _) hv' fun g hg => ?_
      obtain ⟨hm, -⟩ | hst := kernelStore_cases admits_good (hs.sane p q hp) hv ho
      · exact Moves.keeps hm hf g (hg.mono (tables_others hs hne))
      · exact absurd hst.mapped hmap

end KernelStore

/-- A page is mapped, the process forks, and stores to the page, which is copied. -/
def parting : List Action :=
  [.start 1, .mmap 1 USER_MMAP_ADDR 4096 ⟨true, false, true⟩, .fork 1 2, .userStore 1 USER_MMAP_ADDR .zero]

theorem kernelStore_lone_parting : ∃ s s', Kept 4400 s ∧
    act s (.kernelStore 1 USER_MMAP_ADDR (entryInit 7)) = .ok s' ∧
    ((∀ v', UserAddr v' → s'.read 2 v' = s.read 2 v') ↔ Lone s 1 2 USER_MMAP_ADDR (entryInit 7)) := by
  have hrun : (actAll (fun _ a => Proper a) (bootState 4400) parting).map (fun s =>
      (act s (.kernelStore 1 USER_MMAP_ADDR (entryInit 7))).isOk) = some true := by decide +kernel
  obtain ⟨s, hs, he⟩ := Option.map_eq_some_iff.mp hrun
  have hkept : Kept 4400 s := (Run.boot (boot_bootState (by decide) (by decide))).all hs
  cases ha : act s (.kernelStore 1 USER_MMAP_ADDR (entryInit 7)) with
  | error e =>
    rw [ha] at he
    cases he
  | ok s' => exact ⟨s, s', hkept, ha, kernelStore_lone hkept ⟨by decide, by decide⟩ (by decide) ha⟩

/-- **After `task_fork` a store of the kernel for one process is seen by the other.** -/
theorem kernelStore_leaks : ∃ s s', Kept 4400 s ∧
    act s (.kernelStore 1 USER_MMAP_ADDR (entryInit 7)) = .ok s' ∧
    s.read 2 USER_MMAP_ADDR = some .zero ∧ s'.read 2 USER_MMAP_ADDR = some (entryInit 7) := by
  have hread : (actAll (fun _ a => Proper a) (bootState 4400) (parting.take 3)).map (fun s =>
      (s.read 2 USER_MMAP_ADDR, (act s (.kernelStore 1 USER_MMAP_ADDR (entryInit 7))).toOption.map
        fun s => s.read 2 USER_MMAP_ADDR))
      = some (some .zero, some (some (entryInit 7))) := by decide +kernel
  obtain ⟨s, hs, he⟩ := Option.map_eq_some_iff.mp hread
  rw [Prod.mk.injEq] at he
  obtain ⟨h1, h2⟩ := he
  have hkept : Kept 4400 s := (Run.boot (boot_bootState (by decide) (by decide))).all hs
  cases ha : act s (.kernelStore 1 USER_MMAP_ADDR (entryInit 7)) with
  | error e =>
    rw [ha] at h2
    cases h2
  | ok s₁ =>
    rw [ha] at h2
    exact ⟨s, s₁, hkept, ha, h1, Option.some.inj h2⟩

end Yuios.Paging
