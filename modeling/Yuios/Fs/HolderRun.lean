/-
  File:      Yuios/Fs/HolderRun.lean
  Subject:   EVERY REFERENCE IS COUNTED, in every run of the calls of processes.

  * `SysCall` -- the calls on files, directories and processes; `Turns` -- one process after the
    other makes one whole call.
  * `settled_call` -- every call but `sys_umount` keeps the system settled.
  * `references_counted` -- so the counts are the numbers of references in every state reached, and
    a slot is free exactly when nobody refers to it.
-/
import Yuios.Fs.Mounting
import Yuios.Fs.Sample

namespace Yuios

open Lib Prog Code

/-! ## 1. Runs -/

/-- A call of a process. -/
inductive SysCall where
  | fork
  | exit
  | chdir (pathname : List UInt8)
  | chroot (pathname : List UInt8)
  | open (filename : List UInt8) (flags mode : Nat)
  | creat (filename : List UInt8) (mode : Nat)
  | close (fd : Nat)
  | dup (fd : Nat)
  | dup2 (oldfd newfd : Nat)
  | pipe
  | execve (im : Execve.Image) (pages argvk stale : Bytes) (filename : Execve.CString) (argv envp : Execve.Strings)
  | mkdir (pathname : List UInt8) (mode : Nat)
  | rmdir (pathname : List UInt8)
  | link (oldname newname : List UInt8)
  | unlink (filename : List UInt8)
  | mknod (filename : List UInt8) (mode dev : Nat)
  | stat (filename : List UInt8)
  | mount (devname dirname : List UInt8)
  | umount (target : List UInt8)

/-- Run `c` for its effect. -/
def forEffect {α : Type} (c : Call α) : Call Unit := do
  let _ ← c
  return ()

def SysCall.code : SysCall → Call Unit
  | .fork => forEffect taskFork
  | .exit => taskExit
  | .chdir pathname => forEffect (onKernel (sysChdir pathname))
  | .chroot pathname => forEffect (onKernel (sysChroot pathname))
  | .open filename flags mode => forEffect (onKernel (sysOpen filename flags mode))
  | .creat filename mode => forEffect (onKernel (sysCreat filename mode))
  | .close fd => onKernel (sysClose fd)
  | .dup fd => forEffect (onKernel (sysDup fd))
  | .dup2 oldfd newfd => forEffect (onKernel (sysDup2 oldfd newfd))
  | .pipe => forEffect (onKernel sysPipe)
  | .execve im pages argvk stale filename argv envp =>
    forEffect (Execve.sysExecve im pages argvk stale filename argv envp)
  | .mkdir pathname mode => forEffect (onKernel (sysMkdir pathname mode))
  | .rmdir pathname => forEffect (onKernel (sysRmdir pathname))
  | .link oldname newname => forEffect (onKernel (sysLink oldname newname))
  | .unlink filename => forEffect (onKernel (sysUnlink filename))
  | .mknod filename mode dev => forEffect (onKernel (sysMknod filename mode dev))
  | .stat filename => forEffect (onKernel (sysStat filename))
  | .mount devname dirname => forEffect (sysMount devname dirname)
  | .umount target => forEffect (sysUmount target)

/-- The system with `p` as the running process. -/
def System.turn (S : System) (p : Nat) : System :=
  { S with kernel := { S.kernel with tab := { S.kernel.tab with running := p } } }

/-- **Runs**: one live process after the other makes a call, from its beginning to its end. `Ok` is
    what the calls meet, on the call and the state before it. -/
inductive Turns (Ok : SysCall → System → Prop) : System → System → Prop where
  | start (S : System) : Turns Ok S S
  | step {S₀ S S' : System} (h : Turns Ok S₀ S) (p : Nat) (hp : p ∈ S.alive) (c : SysCall)
      (hok : Ok c (S.turn p)) (hc : Ends c.code (S.turn p) () S') : Turns Ok S₀ S'

/-- What every call keeps, a run keeps. -/
theorem turns_keep {Ok : SysCall → System → Prop} {I : System → Prop}
    (hI : ∀ S p c S', I S → p ∈ S.alive → Ok c (S.turn p) → Ends c.code (S.turn p) () S' → I S')
    {S S' : System} (h : Turns Ok S S') (hS : I S) : I S' := by
  induction h with
  | start => exact hS
  | step _ p hp c hok hc ih => exact hI _ p c _ ih hp hok hc

/-! ## 2. The calls -/

section Calls

variable {S S' : System} {p : Nat}

/-- It does not matter whose turn it is. -/
theorem Settled.turn (h : Settled S) (p : Nat) : Settled (S.turn p) where
  booking := h.booking.congr rfl rfl rfl
  plain := h.plain
  mounted := h.mounted.stays (.of_eq rfl rfl)
  supers := h.supers

theorem ends_forEffect {α : Type} {c : Call α} {u : Unit} (h : Ends (forEffect c) S u S') :
    ∃ a, Ends c S a S' := by
  obtain ⟨a, S₁, h₁, -, rfl⟩ := runs_bind.mp h
  exact ⟨a, h₁⟩

/-- What holds whatever the directories are, holds of a process with its directories. -/
theorem serves_holds {α : Type} {c : Code α} {T₀ : Tables} {E O held : List Nat}
    (h : ∀ wd rt, Leads (Holds T₀ p wd rt E O (wd :: rt :: held)) c fun _ =>
      Holds T₀ p wd rt E O (wd :: rt :: held)) :
    Leads (Serves T₀ p E O held) c fun _ => Serves T₀ p E O held := by
  rintro s a t ⟨wd, rt, hs⟩ hrun
  exact ⟨wd, rt, h wd rt s a t hs hrun⟩

/-- A call on names holds nothing of its own at its end. -/
theorem serves_names {α : Type} {c : Code α} {T₀ : Tables} {E O held : List Nat}
    (hr : Rooted T₀ O) (h : ∀ T kept, Rooted T kept → T.Starts kept →
      Leads (Owns T kept []) c fun _ => Owns T kept []) :
    Leads (Serves T₀ p E O held) c fun _ => Serves T₀ p E O held := by
  refine serves_holds fun wd rt => ?_
  have hc : Leads (Holds T₀ p wd rt E O (wd :: rt :: held)) c fun _ =>
      Holds T₀ p wd rt E O ([] ++ (wd :: rt :: held)) := holds_names hr (by simp) (by simp) h
  exact hc

/-- **Every call but `sys_umount` keeps the system settled.** -/
theorem settled_call (hS : Settled S) (hp : p ∈ S.alive) {c : SysCall}
    (hc : ∀ target, c ≠ .umount target) (h : Ends c.code (S.turn p) () S') : Settled S' := by
  have hS := hS.turn p
  have hp : p ∈ (S.turn p).alive := hp
  have hrun : (S.turn p).kernel.tab.running = p := rfl
  have serve : ∀ {α : Type} {c : Code α},
      (∀ T₀ E O held, Rooted T₀ O → Leads (Serves T₀ p E O held) c fun _ => Serves T₀ p E O held) →
        Ends (forEffect (onKernel c)) (S.turn p) () S' → Settled S' := fun hc h => by
    obtain ⟨a, h⟩ := ends_forEffect h
    exact hS.serve hp hrun hc h
  cases c with
  | fork =>
    obtain ⟨c, h⟩ := ends_forEffect h
    exact settled_taskFork hS hp hrun h
  | exit => exact settled_taskExit hS hp hrun h
  | chdir pathname => exact serve (fun _ _ _ _ hr => serves_sysChdir hr pathname) h
  | chroot pathname => exact serve (fun _ _ _ _ hr => serves_sysChroot hr pathname) h
  | «open» filename flags mode =>
    exact serve (fun _ _ _ _ hr => serves_holds fun _ _ =>
      holds_sysOpen hr (by simp) (by simp) filename flags mode) h
  | creat filename mode =>
    exact serve (fun _ _ _ _ hr => serves_holds fun _ _ =>
      holds_sysOpen hr (by simp) (by simp) filename _ mode) h
  | close fd =>
    refine hS.serve hp hrun (fun _ _ _ _ hr => serves_holds fun _ _ s u t hs h => ?_) h
    exact (holds_sysClose hr fd s u t ⟨hs, rfl⟩ h).1
  | dup fd => exact serve (fun _ _ _ _ _ => serves_holds fun _ _ => holds_dupfd fd 0) h
  | dup2 oldfd newfd =>
    exact serve (fun _ _ _ _ hr => serves_holds fun _ _ => holds_sysDup2 hr oldfd newfd) h
  | pipe => exact serve (fun _ _ _ _ _ => serves_holds fun _ _ => holds_sysPipe) h
  | execve im pages argvk stale filename argv envp =>
    obtain ⟨a, h⟩ := ends_forEffect h
    exact settled_sysExecve hS hp hrun h
  | mkdir pathname mode =>
    exact serve (fun _ _ _ _ hr => serves_names hr fun _ _ hr hs =>
      owns_sysMkdir hr hs pathname mode) h
  | rmdir pathname =>
    exact serve (fun _ _ _ _ hr => serves_names hr fun _ _ hr hs => owns_sysRmdir hr hs pathname) h
  | link oldname newname =>
    exact serve (fun _ _ _ _ hr => serves_names hr fun _ _ hr hs =>
      owns_sysLink hr hs oldname newname) h
  | unlink filename =>
    exact serve (fun _ _ _ _ hr => serves_names hr fun _ _ hr hs => owns_sysUnlink hr hs filename) h
  | mknod filename mode dev =>
    exact serve (fun _ _ _ _ hr => serves_names hr fun _ _ hr hs =>
      owns_sysMknod hr hs filename mode dev) h
  | stat filename =>
    exact serve (fun _ _ _ _ hr => serves_names hr fun _ _ hr hs => owns_sysStat hr hs filename) h
  | mount devname dirname =>
    obtain ⟨a, h⟩ := ends_forEffect h
    exact settled_sysMount hS hp hrun h
  | umount target => exact absurd rfl (hc target)

end Calls

/-! ## 3. Counts and references -/

/-- No call of the run is `sys_umount`. -/
def NoUmount (c : SysCall) (_ : System) : Prop := ∀ target, c ≠ .umount target

/-- **Every reference is counted**: in every state reached, a file is counted once for each
    descriptor of a live process that points to it, an inode in use once for each open file,
    directory or program of a live process and super block that refers to it; and a slot is free
    exactly when nothing refers to it. -/
theorem references_counted {S₀ S : System} (h₀ : Settled S₀) (h : Turns NoUmount S₀ S) :
    (∀ f, (S.kernel.tab.fileTable f).count = S.entries.count f) ∧
      (∀ x, (S.kernel.tab.inodeTable x).Live →
        (S.kernel.tab.inodeTable x).count = S.pointers.count x) ∧
      (∀ f, (S.kernel.tab.fileTable f).count = 0 ↔ f ∉ S.entries) ∧
      ∀ x, (S.kernel.tab.inodeTable x).Live ↔ x ∈ S.pointers := by
  have hS : Settled S := turns_keep (fun _ _ _ _ hS hp hok hc => settled_call hS hp hok hc) h h₀
  refine ⟨hS.booking.files, fun x _ => hS.booking.owned.count x, fun f => ?_,
    hS.booking.owned.live⟩
  rw [← not_iff_not, not_not]
  exact hS.booking.count_ne

namespace Sample

/-- The kernel with super blocks that have never been used. -/
def tidyKernel : Kernel :=
  { fresh with
    tab := { fresh.tab with
      superTable := fun i =>
        if i = 0 then superBlock
        else { superBlock with dev := devEOF, inodeList := [], iroot := none, imount := none } } }

/-- One process, in the root directory. -/
def system : System where
  kernel := tidyKernel
  superCount i := if i = 0 then 1 else 0
  root := 0
  state p := if p = 0 then .alive else .free
  iexec _ := none

theorem system_owned : Owned system.kernel.tab [0, 0, 0, 0] := by
  have hx : ∀ x, x ≠ 0 → system.kernel.tab.inodeTable x = ⟨devEOF, 0, ⟨devEOF, 0⟩, 0, 0, 0, false⟩ :=
    fun x hx => if_neg hx
  have hlive : (system.kernel.tab.inodeTable 0).Live := by
    show (system.kernel.tab.inodeTable 0).dev ≠ devEOF
    decide
  have hl : ∀ i x, x ∈ (system.kernel.tab.superTable i).inodeList → i = 0 ∧ x = 0 := fun i x h => by
    by_cases e : i = 0
    · subst e
      exact ⟨rfl, List.mem_singleton.mp h⟩
    · simp [system, tidyKernel, e] at h
  refine ⟨fun x => ?_, fun x => ?_, fun x h => ?_, fun x h => ?_, fun x => ?_,
    ⟨fun i x h => ?_, fun i => ?_, fun i j x hi hj => (hl i x hi).1.trans (hl j x hj).1.symm⟩,
    ⟨fun i x h => ?_, fun x hlive' hp => ?_, fun i x h y h' _ => ?_, fun i x h => ?_⟩⟩
  · by_cases e : x = 0
    · subst e
      rfl
    · rw [hx x e]
      simp [Ne.symm e]
  · by_cases e : x = 0
    · subst e
      exact iff_of_true hlive (by decide)
    · rw [hx x e]
      exact iff_of_false (fun h => h rfl) (by simp [e])
  · have : x = 0 := by simpa using h
    rw [this]
    decide
  · rw [hx x (by simpa using h)]
    exact ⟨rfl, rfl⟩
  · by_cases e : x = 0
    · subst e
      decide
    · rw [hx x e]
      decide
  · rw [(hl i x h).2]
    exact ⟨hlive, rfl⟩
  · by_cases e : i = 0
    · subst e
      exact List.nodup_cons.mpr ⟨List.not_mem_nil, List.nodup_nil⟩
    · simp [system, tidyKernel, e]
  · rw [(hl i x h).1, (hl i x h).2]
    decide
  · by_cases e : x = 0
    · exact ⟨0, by rw [e]; exact List.mem_singleton.mpr rfl⟩
    · rw [hx x e] at hlive'
      exact absurd rfl hlive'
  · rw [(hl i x h).2, (hl i y h').2]
  · rw [(hl i x h).1, (hl i x h).2]
    exact ⟨rfl, rfl⟩

theorem system_mounted : Mounted system.kernel.tab := by
  have hi : ∀ i, (system.kernel.tab.superTable i).dev ≠ devEOF → i = 0 := fun i h => by
    by_contra e
    simp [system, tidyKernel, e] at h
  refine ⟨fun i h => ?_, fun i h => ?_, fun i h => ?_, fun i h => ?_, fun x h => ?_,
    fun i h m hm _ => ?_⟩
  · rw [hi i h]
    decide
  · rw [hi i h]
    exact ⟨0, rfl, rfl, rfl, rfl⟩
  · rw [hi i h]
    exact ⟨0, rfl, rfl⟩
  · by_cases e : i = 0
    · subst e
      exact absurd h (by decide)
    · simp [system, tidyKernel, e]
  · by_cases e : x = 0
    · exact ⟨0, by decide, by rw [e]; rfl⟩
    · have h0 : (system.kernel.tab.inodeTable x).mount = 0 := by
        simp [system, tidyKernel, fresh, kernel, inodeTable, e]
      exact absurd h0 h
  · rw [hi i h] at hm
    obtain rfl : 0 = m := Option.some.inj hm
    exact ⟨0, by decide, rfl⟩

theorem system_settled : Settled system where
  booking :=
    { owned := by
        have hfiles : system.kernel.tab.openFiles = [] := by decide
        have hdirs : system.directories ++ system.kernel.tab.mounts = [0, 0, 0, 0] := by
          decide
        rw [hfiles, hdirs]
        exact system_owned
      files := fun f => by
        have : system.entries = [] := by decide
        rw [this]
        rfl
      bound := fun f hf => by
        have : system.entries = [] := by decide
        rw [this] at hf
        cases hf }
  plain x hx := by
    have : system.directories = [0, 0] := by decide
    rw [this] at hx
    have : x = 0 := by simpa using hx
    rw [this]
    rfl
  mounted := system_mounted
  supers i h := by
    by_cases e : i = 0
    · subst e
      decide
    · simp [system, tidyKernel, e] at h

end Sample

/-- A process creates a file and forks: parent and child share the open file. -/
theorem references_counted_fork : Settled Sample.system ∧ ∃ S, Turns NoUmount Sample.system S ∧
    (S.kernel.tab.fileTable 3).count = 2 ∧ S.entries.count 3 = 2 ∧
      (S.kernel.tab.inodeTable 1).count = 1 ∧ S.pointers.count 1 = 1 := by
  obtain ⟨_, S₁, h₁, hq₁⟩ := ends_of_run
    (p := (SysCall.open Sample.fileA O_CREAT 0o644).code) (s := Sample.system.turn 0)
    (q := fun _ S => S.alive == [0] && match run SysCall.fork.code (S.turn 0) with
      | .ok r => (r.2.kernel.tab.fileTable 3).count == 2 &&
          (r.2.kernel.tab.inodeTable 1).count == 1 && (r.2.kernel.tab.inodeTable 1).dev == 1
      | .error _ => false) (by decide +kernel)
  obtain ⟨hp, hq₁⟩ := (Bool.and_eq_true _ _).mp hq₁
  cases hr : run SysCall.fork.code (S₁.turn 0) with
  | error e =>
    rw [hr] at hq₁
    cases hq₁
  | ok r =>
  obtain ⟨_, S₂⟩ := r
  rw [hr] at hq₁
  simp only [Bool.and_eq_true, beq_iff_eq] at hq₁
  obtain ⟨⟨hf, hi⟩, hdev⟩ := hq₁
  have h₂ : Ends SysCall.fork.code (S₁.turn 0) () S₂ := ends_iff.mpr hr
  have hrun : Turns NoUmount Sample.system S₂ :=
    ((Turns.start _).step 0 (by decide) (.open Sample.fileA O_CREAT 0o644) (fun _ => nofun) h₁).step
      0 (by rw [eq_of_beq hp]; exact List.mem_singleton.mpr rfl) .fork (fun _ => nofun) h₂
  obtain ⟨hfiles, hinodes, -⟩ := references_counted Sample.system_settled hrun
  have hlive : (S₂.kernel.tab.inodeTable 1).Live := by
    show (S₂.kernel.tab.inodeTable 1).dev ≠ devEOF
    rw [hdev]
    decide
  exact ⟨Sample.system_settled, S₂, hrun, hf, by rw [← hfiles, hf], hi, by rw [← hinodes 1 hlive, hi]⟩

end Yuios
