/-
  File:      Yuios/Fs/Forking.lean
  Subject:   PROCESSES COME AND GO: `task_fork`, `task_exit` and `sys_execve` keep every reference
             counted.

  A child begins with what its parent points to: every inode and every open file is counted once
  more. A process that ends is no holder any more from its first step on; what it held is given
  back inode by inode and descriptor by descriptor.
-/
import Yuios.Fs.Settled

namespace Yuios

open Lib Prog Code

section Processes

variable {S S' : System} {p : Nat}

/-! ## 1. `sys_execve` -/

theorem settled_sysExecve (hS : Settled S) (hp : p ∈ S.alive) (hrun : S.kernel.tab.running = p)
    {im : Execve.Image} {pages argvk stale : Bytes} {filename : Execve.CString} {argv envp : Execve.Strings}
    {a : Option (Nat × Nat) × Execve.Image}
    (h : Ends (Execve.sysExecve im pages argvk stale filename argv envp) S a S') : Settled S' := by
  have hr := hS.rooted p
  obtain ⟨wd, rt, hs⟩ := hS.serves hp hrun
  obtain ⟨r, S₁, h₁, h⟩ := runs_bind.mp h
  obtain ⟨k₁, hk₁, rfl⟩ := ends_lift.mp h₁
  have hs₁ := holds_namei hr (by simp) (by simp) filename _ _ _ hs hk₁
  have hback : ∀ {k}, Holds S.kernel.tab p wd rt (S.otherEntries p) (S.otherHeld p)
      (wd :: rt :: (S.iexec p).toList) k → Settled { S with kernel := k } := fun hk => by
    have := Serves.settled hS hp ⟨wd, rt, hk⟩
    rwa [Function.update_eq_self] at this
  cases r with
  | none =>
    obtain ⟨-, rfl⟩ := h
    exact hback hs₁
  | some inode =>
    obtain ⟨mode, S₂, h₂, h⟩ := runs_bind.mp h
    obtain rfl := ends_lift_eq (descGet_obeys inode _) h₂
    obtain ⟨ok, S₃, h₃, h⟩ := runs_bind.mp h
    obtain rfl := ends_lift_eq (permission_obeys inode _) h₃
    have hput : ∀ {ret : Option (Nat × Nat) × Execve.Image} {k : Kernel} {S'},
        Holds S.kernel.tab p wd rt (S.otherEntries p) (S.otherHeld p)
          (inode :: wd :: rt :: (S.iexec p).toList) k →
        Ends (do liftM (iput inode); return ret : Call (Option (Nat × Nat) × Execve.Image))
          { S with kernel := k } a S' → Settled S' := fun hk h => by
      obtain ⟨_, S₄, h₄, -, rfl⟩ := runs_bind.mp h
      obtain ⟨k₄, hk₄, rfl⟩ := ends_lift.mp h₄
      exact hback (holds_iput hr inode _ _ _ hk hk₄)
    obtain ⟨-, h⟩ | ⟨-, h⟩ := runs_ite.mp h
    · exact hput hs₁ h
    · -- the arguments and the heap are the caller's own
      obtain ⟨⟨top, im₁⟩, S₄, h₄, h⟩ := runs_bind.mp h
      obtain ⟨k₄, hk₄, rfl⟩ := ends_lift.mp h₄
      obtain ⟨-, rfl⟩ := runs_lift.mp hk₄
      obtain ⟨im₂, S₅, h₅, h⟩ := runs_bind.mp h
      obtain ⟨k₅, hk₅, rfl⟩ := ends_lift.mp h₅
      obtain ⟨-, rfl⟩ := runs_lift.mp hk₅
      obtain ⟨⟨r, im₃⟩, S₆, h₆, h⟩ := runs_bind.mp h
      obtain ⟨k₆, hk₆, rfl⟩ := ends_lift.mp h₆
      have hs₆ := holds_still (loadProgram_still inode im₂) _ _ _ hs₁ hk₆
      cases r with
      | none => exact hput hs₆ h
      | some entry =>
        obtain ⟨old, S₇, ⟨rfl, rfl⟩, h⟩ := runs_bind.mp h
        obtain ⟨_, S₈, h₈, h⟩ := runs_bind.mp h
        obtain ⟨k₈, hk₈, rfl⟩ := ends_lift.mp h₈
        obtain ⟨_, S₉, h₉, -, rfl⟩ := runs_bind.mp h
        rw [runs_modify] at h₉
        have hperm : ([inode, wd, rt] ++ (S.iexec p).toList).Perm
            ((S.iexec p).toList ++ [wd, rt, inode]) :=
          List.perm_append_comm.trans (.append_left _ (List.perm_append_singleton inode [wd, rt]).symm)
        have hs₈ := holds_iput? hr (S.iexec p) _ _ _ (hs₆.perm hperm) (by
          rw [← hs₆.running]
          exact hk₈)
        have := Serves.settled hS hp (x := some inode) ⟨wd, rt, hs₈⟩
        rw [← h₉]
        rw [← hs₈.running] at this
        exact this

end Processes

/-! ## 2. `task_fork` -/

/-- Counts have changed, and nothing else has. -/
structure Counted (S S' : System) : Prop where
  state : S'.state = S.state
  iexec : S'.iexec = S.iexec
  superCount : S'.superCount = S.superCount
  task : S'.kernel.tab.task = S.kernel.tab.task
  stays : ∀ refs, S.kernel.tab.Stays S'.kernel.tab refs

section Fork

variable {S S' S'' : System} {E O : List Nat} {u : Unit} {p : Nat}

theorem Counted.refl (S : System) : Counted S S := ⟨rfl, rfl, rfl, rfl, fun _ => .refl _ _⟩

theorem Counted.trans (h : Counted S S') (h' : Counted S' S'') : Counted S S'' :=
  ⟨h'.state.trans h.state, h'.iexec.trans h.iexec, h'.superCount.trans h.superCount,
    h'.task.trans h.task, fun refs => (h.stays refs).trans (h'.stays refs)⟩

/-- An inode is counted once more. -/
theorem booking_count {x : Nat} (hb : Booking E O S.kernel.tab) (hx : x ∈ O)
    (h : Ends (onKernel (onInode x fun i => { i with count := i.count + 1 })) S u S') :
    Booking E (x :: O) S'.kernel.tab ∧ Counted S S' := by
  obtain ⟨k, hk, rfl⟩ := ends_onKernel.mp h
  rw [runs_onInode hk]
  exact ⟨hb.take hx, rfl, rfl, rfl, rfl, fun refs => Tables.stays_count _ _ _ refs⟩

/-- So are the files of the descriptors `l`. -/
theorem booking_share {files : Nat → Option Nat} {l : List Nat} (hb : Booking E O S.kernel.tab)
    (hm : ∀ fd ∈ l, ∀ f, files fd = some f → f ∈ E)
    (h : Ends (l.forM fun fd => (files fd).forM fun f =>
      onKernel (onFile f fun file => { file with count := file.count + 1 })) S u S') :
    Booking ((l.flatMap fun fd => (files fd).toList) ++ E) O S'.kernel.tab ∧ Counted S S' := by
  induction l generalizing S E with
  | nil =>
    obtain ⟨-, rfl⟩ := h
    exact ⟨hb, .refl S⟩
  | cons fd l ih =>
    obtain ⟨_, S₁, h₁, h⟩ := runs_bind.mp h
    cases hf : files fd with
    | none =>
      simp only [hf] at h₁
      obtain ⟨-, rfl⟩ := h₁
      rw [List.flatMap_cons, hf]
      exact ih hb (fun fd hfd => hm fd (List.mem_cons_of_mem _ hfd)) h
    | some f =>
      simp only [hf] at h₁
      obtain ⟨k, hk, rfl⟩ := ends_onKernel.mp h₁
      have hk := runs_onFile hk
      have hfE : f ∈ E := hm fd List.mem_cons_self f hf
      have hb₁ : Booking (f :: E) O k.tab :=
        hb.shared (by rw [hk]; rfl) (by rw [hk]; rfl) hfE (by rw [hk]; rfl)
      obtain ⟨hb₂, hc⟩ := ih hb₁
        (fun fd hfd f hf => List.mem_cons_of_mem _ (hm fd (List.mem_cons_of_mem _ hfd) f hf)) h
      have hc₁ : Counted S { S with kernel := k } := ⟨rfl, rfl, rfl, by rw [hk]; rfl,
        fun refs => .of_eq (by rw [hk]; rfl) (by rw [hk]; rfl)⟩
      refine ⟨hb₂.perm ?_ .rfl, hc₁.trans hc⟩
      rw [List.flatMap_cons, hf]
      exact List.perm_middle

theorem settled_taskFork (hS : Settled S) (hp : p ∈ S.alive) (hrun : S.kernel.tab.running = p)
    {child : Nat} (h : Ends taskFork S child S') : Settled S' := by
  obtain ⟨c, S₁, h₁, h⟩ := runs_bind.mp h
  obtain ⟨task, S₂, h₂, h⟩ := runs_bind.mp h
  obtain ⟨exec, S₃, h₃, h⟩ := runs_bind.mp h
  obtain ⟨_, S₄, h₄, h⟩ := runs_bind.mp h
  obtain ⟨_, S₅, h₅, h⟩ := runs_bind.mp h
  obtain ⟨_, S₆, h₆, h⟩ := runs_bind.mp h
  obtain ⟨_, S₇, h₇, h⟩ := runs_bind.mp h
  obtain ⟨_, S₈, h₈, -, rfl⟩ := runs_bind.mp h
  obtain ⟨_, S₉, ⟨rfl, rfl⟩, h₁⟩ := runs_bind.mp h₁
  rw [runs_need] at h₁
  obtain ⟨hc, rfl⟩ := h₁
  obtain ⟨htask, rfl⟩ := ends_runningTask h₂
  obtain ⟨hexec, rfl⟩ := ends_runningExec h₃
  rw [hrun] at htask hexec
  rw [runs_modify] at h₄
  have hcn : c < NR_TASKS := List.mem_range.mp (List.mem_of_find?_eq_some hc)
  have hcs : S.state c = .free := by simpa using List.find?_some hc
  have hpc : p ≠ c := fun e => by
    have := (System.mem_alive.mp hp).2
    rw [e, hcs] at this
    cases this
  have hheld : ∀ x ∈ S.held p, x ∈ S.directories := fun x hx => List.mem_flatMap.mpr ⟨p, hp, hx⟩
  have hwd : task.ipwd ∈ S.directories := hheld _ (by simp [System.held, htask])
  have hrt : task.iroot ∈ S.directories := hheld _ (by simp [System.held, htask])
  -- the child is a holder now, and what it holds is counted piece by piece
  have hb₄ : Booking S.entries (S.directories ++ S.kernel.tab.mounts) S₄.kernel.tab :=
    hS.booking.congr (by rw [← h₄]) (by rw [← h₄]) (by rw [← h₄])
  obtain ⟨hb₅, hc₅⟩ := booking_count hb₄ (List.mem_append_left _ hwd) h₅
  obtain ⟨hb₆, hc₆⟩ := booking_count hb₅
    (List.mem_cons_of_mem _ (List.mem_append_left _ hrt)) h₆
  obtain ⟨hb₇, hc₇⟩ : Booking S.entries (exec.toList ++ (task.iroot :: task.ipwd ::
      (S.directories ++ S.kernel.tab.mounts))) S₇.kernel.tab ∧ Counted S₆ S₇ := by
    cases exec with
    | none =>
      obtain ⟨-, rfl⟩ := h₇
      exact ⟨hb₆, .refl _⟩
    | some x =>
      refine booking_count hb₆ ?_ h₇
      have hx : x ∈ S.directories := hheld x (by simp [System.held, hexec])
      simp [hx]
  obtain ⟨hb₈, hc₈⟩ := booking_share hb₇ (fun fd hfd f hf =>
    List.mem_flatMap.mpr ⟨p, hp, Task.mem_entries (List.mem_range.mp hfd) (htask ▸ hf)⟩) h₈
  have hcount := ((hc₅.trans hc₆).trans hc₇).trans hc₈
  have hst : ∀ refs, S.kernel.tab.Stays S₈.kernel.tab refs := fun refs =>
    (Tables.Stays.of_eq (by rw [← h₄]) (by rw [← h₄])).trans (hcount.stays refs)
  have hstate : S₈.state = Function.update S.state c .alive := by rw [hcount.state, ← h₄]
  have hiexec : S₈.iexec = Function.update S.iexec c exec := by rw [hcount.iexec, ← h₄]
  have htasks : S₈.kernel.tab.task = Function.update S.kernel.tab.task c task := by
    rw [hcount.task, ← h₄]
  have halive : S₈.alive.Perm (c :: S.alive) := by
    unfold System.alive
    rw [hstate]
    exact filter_come List.nodup_range (List.mem_range.mpr hcn)
      (fun b hb => by rw [Function.update_of_ne hb]) (by simp [hcs]) (by simp)
  have hne : ∀ q ∈ S.alive, q ≠ c := fun q hq e => by
    have := (System.mem_alive.mp hq).2
    rw [e, hcs] at this
    cases this
  have hentries : S₈.entries.Perm (task.entries ++ S.entries) := by
    refine (halive.flatMap_right _).trans ?_
    rw [List.flatMap_cons, htasks, Function.update_self]
    refine (List.Perm.refl _).append (List.Perm.of_eq (List.flatMap_congr fun q hq => ?_))
    rw [Function.update_of_ne (hne q hq)]
  have hdirs : S₈.directories.Perm
      (exec.toList ++ (task.iroot :: task.ipwd :: S.directories)) := by
    refine (halive.flatMap_right _).trans ?_
    rw [List.flatMap_cons]
    have hself : S₈.held c = task.ipwd :: task.iroot :: exec.toList := by
      unfold System.held
      rw [htasks, hiexec, Function.update_self, Function.update_self]
    have hother : S.alive.flatMap S₈.held = S.directories := List.flatMap_congr fun q hq => by
      unfold System.held
      rw [htasks, hiexec, Function.update_of_ne (hne q hq), Function.update_of_ne (hne q hq)]
    rw [hself, hother]
    have hswap : ([task.iroot, task.ipwd] ++ exec.toList).Perm
        (exec.toList ++ [task.iroot, task.ipwd]) := List.perm_append_comm
    have := ((List.Perm.swap _ _ _).trans hswap).append_right S.directories
    rwa [List.append_assoc] at this
  refine ⟨hb₈.perm hentries.symm ?_, fun x hx => ?_, hS.mounted.stays (hst _), fun i hi => ?_⟩
  · rw [mounts_congr (hst [])]
    have := hdirs.symm.append_right S.kernel.tab.mounts
    simpa using this
  · have hx : x ∈ S.directories := by
      have := hdirs.mem_iff.mp hx
      simp only [List.mem_append, List.mem_cons, Option.mem_toList] at this
      obtain hx | rfl | rfl | hx := this
      · exact hheld x (by simp [System.held, hexec, hx])
      · exact hrt
      · exact hwd
      · exact hx
    obtain ⟨n, hn⟩ := (hst [x]).core x List.mem_cons_self
    rw [hn]
    exact hS.plain x hx
  · rw [(hst []).super i] at hi
    rw [hcount.superCount, ← h₄]
    exact hS.supers i hi

end Fork

/-! ## 3. `task_exit` -/

theorem settled_taskExit {S S' : System} {p : Nat} (hS : Settled S) (hp : p ∈ S.alive)
    (hrun : S.kernel.tab.running = p) {u : Unit} (h : Ends taskExit S u S') : Settled S' := by
  have hr := hS.rooted p
  obtain ⟨_, S₁, h₁, h⟩ := runs_bind.mp h
  obtain ⟨task, S₂, h₂, h⟩ := runs_bind.mp h
  obtain ⟨exec, S₃, h₃, h⟩ := runs_bind.mp h
  obtain ⟨_, S₄, h₄, h⟩ := runs_bind.mp h
  obtain ⟨_, S₅, h₅, h⟩ := runs_bind.mp h
  obtain ⟨_, S₆, h₆, h⟩ := runs_bind.mp h
  rw [runs_modify] at h₁
  obtain ⟨htask, rfl⟩ := ends_runningTask h₂
  obtain ⟨hexec, rfl⟩ := ends_runningExec h₃
  obtain ⟨k₄, hk₄, rfl⟩ := ends_lift.mp h₄
  obtain ⟨k₅, hk₅, rfl⟩ := ends_lift.mp h₅
  obtain ⟨k₆, hk₆, rfl⟩ := ends_lift.mp h₆
  have hloop : ((List.range TASK_FILE_NR).forM fun fd => onKernel (sysClose fd)) =
      onKernel ((List.range TASK_FILE_NR).forM sysClose) := (zoom_forM _ _ _ _).symm
  rw [hloop] at h
  obtain ⟨k, hk, rfl⟩ := ends_onKernel.mp h
  have hkernel : S₁.kernel = S.kernel := by rw [← h₁]
  rw [hkernel, hrun] at htask hexec
  rw [hkernel] at hk₄
  have hexec : exec = S.iexec p := by rw [← hexec, ← h₁]
  obtain ⟨wd, rt, hs⟩ := hS.serves hp hrun
  obtain rfl : task.ipwd = wd := by rw [← htask, hs.cwd]
  obtain rfl : task.iroot = rt := by rw [← htask, hs.root]
  have hs₅ := holds_iput hr _ _ _ _ (holds_iput hr _ _ _ _ hs hk₄) hk₅
  rw [← List.append_nil (S.iexec p).toList] at hs₅
  have hs₆ := holds_iput? hr (S.iexec p) _ _ _ hs₅ (hexec ▸ hk₆)
  obtain ⟨hs', hfiles⟩ := holds_closeAll hr _ _ _ _ ⟨hs₆, rfl⟩ hk
  have hnil : (k.tab.task p).entries = [] := Task.entries_nil fun fd hfd => by
    rw [hfiles fd, if_pos (List.mem_range.mpr hfd)]
  -- the others are as they were
  obtain ⟨S', hS'⟩ : ∃ S' : System, S' = { S₁ with kernel := k } := ⟨_, rfl⟩
  have hk' : S'.kernel = k := by rw [hS']
  have hstate : S'.state = Function.update S.state p .died := by rw [hS', ← h₁, hrun]
  have hiexec : S'.iexec = S.iexec := by rw [hS', ← h₁]
  have hmounts : S'.kernel.tab.mounts = S.kernel.tab.mounts := by
    rw [hk']
    exact mounts_congr hs'.stays
  have halive : S'.alive.Perm (S.alive.erase p) := by
    unfold System.alive
    rw [hstate]
    exact filter_go List.nodup_range (fun b hb => by rw [Function.update_of_ne hb]) (by simp)
  have hne : ∀ q ∈ S.alive.erase p, q ≠ p := fun q hq =>
    (System.nodup_alive.mem_erase_iff.mp hq).1
  have hentries : S'.entries.Perm (S.otherEntries p) := by
    refine (halive.flatMap_right _).trans (List.Perm.of_eq (List.flatMap_congr fun q hq => ?_))
    rw [hk', hs'.tasks q (hne q hq)]
  have hdirs : S'.directories.Perm ((S.alive.erase p).flatMap S.held) := by
    refine (halive.flatMap_right _).trans (List.Perm.of_eq (List.flatMap_congr fun q hq => ?_))
    unfold System.held
    rw [hk', hs'.tasks q (hne q hq), hiexec]
  have hb := hs'.booking
  rw [hnil, List.nil_append, List.nil_append] at hb
  show Settled { S₁ with kernel := k }
  rw [← hS']
  refine ⟨?_, fun x hx => ?_, ?_, fun i hi => ?_⟩
  · rw [hmounts, hk']
    exact hb.perm hentries.symm (hdirs.symm.append_right _)
  · have hx := hdirs.mem_iff.mp hx
    obtain ⟨n, hn⟩ := hs'.stays.core x (List.mem_append_left _ hx)
    rw [hk', hn]
    obtain ⟨q, hq, hx⟩ := List.mem_flatMap.mp hx
    exact hS.plain x (List.mem_flatMap.mpr ⟨q, List.mem_of_mem_erase hq, hx⟩)
  · rw [hk']
    exact hS.mounted.stays (hs'.stays.mono fun _ hx => List.mem_append_right _ hx)
  · rw [hk', hs'.stays.super i] at hi
    have hcount : S'.superCount = S.superCount := by rw [hS', ← h₁]
    rw [hcount]
    exact hS.supers i hi

end Yuios
