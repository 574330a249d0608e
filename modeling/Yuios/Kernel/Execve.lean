/-
  File:      Yuios/Kernel/Execve.lean
  Subject:   A FAILED `sys_execve`: what is left of the caller when `kernel/execve.c` answers `EOF`.

  * `loadElf_brk` -- `load_elf` leaves `brk` as it is, refused or not.
  * `Executable` -- the file is there, is regular, and the caller may execute it: past these tests the
    call overwrites the caller before it has seen the file's first byte.
  * **`execve_fails`** -- for which failures the caller can go on.
-/
import Yuios.Fs.Access
import Yuios.Fs.Content
import Yuios.Fs.Creation
import Yuios.Fs.Forking
import Yuios.Fs.HolderRun

namespace Yuios.Execve

open Lib Prog Code

/-! ## 1. What is left of the address space -/

section Brk

variable {m m' : Paging.Mem} {q q' : Paging.Proc} {ph : Paging.Phdr} {im im' : Image} {s t : Kernel}
  {inode ptr addr n idx len offset v : Nat} {present write : Bool}

theorem pageFault_brk (h : Paging.pageFault m q v present write = .ok (some (m', q'))) : q'.brk = q.brk := by
  unfold Paging.pageFault at h
  split at h
  · cases h
  · split at h
    · obtain ⟨-, h⟩ := Kernel.of_assert h
      obtain ⟨S, -, h⟩ := ok_of_bind h
      obtain ⟨-, h⟩ := Kernel.of_assert h
      obtain ⟨-, h⟩ := Kernel.of_assert h
      obtain ⟨-, h⟩ := Kernel.of_assert h
      obtain ⟨-, h⟩ := Kernel.of_assert h
      split at h
      · cases h
        rfl
      · obtain ⟨⟨mem, paddr⟩, -, h⟩ := ok_of_bind h
        cases h
        rfl
    · split at h
      · obtain ⟨S, -, h⟩ := ok_of_bind h
        cases h
        rfl
      · cases h

theorem touchPages_brk (h : touchPages n idx im = .ok im') : im'.proc.brk = im.proc.brk := by
  induction n generalizing idx im with
  | zero =>
    cases h
    rfl
  | succ n ih =>
    obtain ⟨im₁, h₁, h⟩ := ok_of_bind h
    refine (ih h).trans ?_
    unfold touchPage at h₁
    dsimp only at h₁
    split at h₁
    · cases h₁
      rfl
    · split at h₁
      · cases h₁
      · cases h₁
      · next hfault =>
          cases h₁
          exact pageFault_brk hfault

theorem touch_brk (h : touch im addr n = .ok im') : im'.proc.brk = im.proc.brk := by
  unfold touch at h
  split at h
  · cases h
    rfl
  · exact touchPages_brk h

theorem readTo_brk {r : Option Nat} (h : Ends (readTo inode im addr len offset) s (r, im') t) :
    im'.proc.brk = im.proc.brk := by
  obtain ⟨⟨k, buf⟩, s₁, -, h⟩ := runs_bind.mp h
  obtain ⟨im₁, s₂, h₂, h⟩ := runs_bind.mp h
  obtain ⟨htouch, rfl⟩ := runs_lift.mp h₂
  obtain ⟨e, -⟩ := runs_pure.mp h
  obtain ⟨-, rfl⟩ := Prod.mk.inj e
  have hbrk := touch_brk htouch
  exact hbrk

theorem clear_brk (h : clear im addr n = .ok im') : im'.proc.brk = im.proc.brk := by
  obtain ⟨im₁, htouch, h⟩ := ok_of_bind h
  cases h
  have hbrk := touch_brk htouch
  exact hbrk

theorem linkSegment_brk (h : Paging.loadSegment m q ptr ph = .ok (m', q')) : q'.brk = q.brk := by
  obtain ⟨-, h⟩ := Kernel.of_assert h
  obtain ⟨-, h⟩ := Kernel.of_assert h
  obtain ⟨space, -, h⟩ := ok_of_bind h
  cases h
  rfl

theorem endSegment_brk (h : Paging.endSegment m q ph = .ok (m', q')) : q'.brk = q.brk := by
  obtain ⟨space, -, h⟩ := ok_of_bind h
  cases h
  rfl

theorem loadSegment_brk (h : Ends (loadSegment inode im ptr) s im' t) : im'.proc.brk = im.proc.brk := by
  obtain ⟨im₁, s₁, h₁, h⟩ := runs_bind.mp h
  obtain ⟨htouch, rfl⟩ := runs_lift.mp h₁
  obtain ⟨⟨mem, proc⟩, s₂, h₂, h⟩ := runs_bind.mp h
  obtain ⟨hlink, rfl⟩ := runs_lift.mp h₂
  obtain ⟨⟨k, im₂⟩, s₃, h₃, h⟩ := runs_bind.mp h
  obtain ⟨im₃, s₄, h₄, h⟩ := runs_bind.mp h
  obtain ⟨hclear, rfl⟩ := runs_lift.mp h₄
  obtain ⟨⟨mem', proc'⟩, s₅, h₅, h⟩ := runs_bind.mp h
  obtain ⟨hprotect, rfl⟩ := runs_lift.mp h₅
  obtain ⟨rfl, -⟩ := runs_pure.mp h
  have hrest : im₃.proc.brk = im₂.proc.brk := by
    split at hclear
    · exact clear_brk hclear
    · cases hclear
      rfl
  calc proc'.brk = im₃.proc.brk := endSegment_brk hprotect
    _ = im₂.proc.brk := hrest
    _ = proc.brk := readTo_brk h₃
    _ = im₁.proc.brk := linkSegment_brk hlink
    _ = im.proc.brk := touch_brk htouch

theorem loadSegments_brk {fuel i : Nat} (h : Ends (loadSegments inode fuel im i ptr) s im' t) :
    im'.proc.brk = im.proc.brk := by
  induction fuel generalizing im i ptr s with
  | zero => exact h.elim
  | succ fuel ih =>
    obtain ⟨-, h⟩ | ⟨-, h⟩ := runs_ite.mp h
    · obtain ⟨rfl, -⟩ := runs_pure.mp h
      rfl
    · obtain ⟨im₁, s₁, h₁, h⟩ := runs_bind.mp h
      obtain ⟨htouch, rfl⟩ := runs_lift.mp h₁
      obtain ⟨-, h⟩ | ⟨-, h⟩ := runs_ite.mp h
      · exact (ih h).trans (touch_brk htouch)
      · obtain ⟨im₂, s₂, h₂, h⟩ := runs_bind.mp h
        exact (ih h).trans ((loadSegment_brk h₂).trans (touch_brk htouch))

/-- **`load_elf` leaves `brk` as it is**, whether it refuses the file or not. -/
theorem loadElf_brk {r : Option Nat} (h : Ends (loadElf inode im) s (r, im') t) : im'.proc.brk = im.proc.brk := by
  obtain ⟨S, s₁, h₁, h⟩ := runs_bind.mp h
  obtain ⟨-, rfl⟩ := runs_lift.mp h₁
  obtain ⟨⟨k, im₁⟩, s₂, h₂, h⟩ := runs_bind.mp h
  obtain ⟨_, s₃, -, h⟩ := runs_bind.mp h
  have hbrk₁ := readTo_brk h₂
  rw [show (im.setSpace S).proc.brk = im.proc.brk from rfl] at hbrk₁
  obtain ⟨-, h⟩ | ⟨-, h⟩ := runs_ite.mp h
  · obtain ⟨e, -⟩ := runs_pure.mp h
    obtain ⟨-, rfl⟩ := Prod.mk.inj e
    exact hbrk₁
  · obtain ⟨⟨k, im₂⟩, s₄, h₄, h⟩ := runs_bind.mp h
    obtain ⟨im₃, s₅, h₅, h⟩ := runs_bind.mp h
    obtain ⟨e, -⟩ := runs_pure.mp h
    obtain ⟨-, rfl⟩ := Prod.mk.inj e
    exact (loadSegments_brk h₅).trans ((readTo_brk h₄).trans hbrk₁)

/-- So does a program that is refused. -/
theorem loadProgram_brk (h : Ends (loadProgram inode im) s (none, im') t) : im'.proc.brk = im.proc.brk := by
  obtain ⟨⟨r, im₁⟩, s₁, h₁, h⟩ := runs_bind.mp h
  cases r with
  | none =>
    obtain ⟨e, -⟩ := runs_pure.mp h
    obtain ⟨-, rfl⟩ := Prod.mk.inj e
    exact loadElf_brk h₁
  | some entry =>
    obtain ⟨⟨mem, proc, _⟩, s₂, -, h⟩ := runs_bind.mp h
    obtain ⟨e, -⟩ := runs_pure.mp h
    cases (Prod.mk.inj e).1

end Brk

section Sees

variable {s t : Kernel}

/-- The descriptors and the files they name are the same. -/
structure SameFiles (s t : Kernel) : Prop extends SameTask s t where
  fileTable : t.tab.fileTable = s.tab.fileTable

instance : Steady SameFiles where
  refl _ := ⟨⟨rfl, rfl⟩, rfl⟩
  trans h h' := ⟨Steady.trans h.toSameTask h'.toSameTask, h'.fileTable.trans h.fileTable⟩

theorem sameFiles_of_same {α : Type} {p : Code α} (h : Obeys Same p) : Obeys SameFiles p := by
  intro s a t hr
  have hs := h s a t hr
  exact ⟨⟨by rw [hs.tab], by rw [hs.tab]⟩, by rw [hs.tab]⟩

theorem walks_sameFiles : Walks SameFiles :=
  Reading.walks ⟨fun dev block => sameFiles_of_same (bread_same dev block),
    fun k => sameFiles_of_same (bwrite_same k), fun k => sameFiles_of_same (brelse_same k),
    fun k => sameFiles_of_same (hold_same k 1)⟩
    (fun _ _ => obeys_modify fun _ => ⟨⟨rfl, rfl⟩, rfl⟩)
    fun _ _ => obeys_modify fun _ => ⟨⟨rfl, rfl⟩, rfl⟩

theorem sameFiles_of_still {α : Type} {p : Code α} (h : Obeys Still p) : Obeys SameFiles p := by
  intro s a t hr
  have hs : t.tab = s.tab := h s a t hr
  exact ⟨⟨by rw [hs], by rw [hs]⟩, by rw [hs]⟩

end Sees

/-! ## 2. A call that fails -/

section Fails

variable {S S' : System} {im im' : Image} {pages argvk stale : Bytes} {filename : CString}
  {argv envp : Strings}

/-- **The caller may execute the file**: past these tests there is no way back. -/
def Executable (s : Kernel) (filename : CString) : Prop :=
  ∃ x t, Ends (namei filename) s (some x) t ∧ ISFILE (t.desc x .mode) = true ∧ t.permits x P_EXEC = true

/-- **The caller is as before.** -/
structure Unchanged (S S' : System) (im im' : Image) : Prop where
  image : im' = im
  files : SameFiles S.kernel S'.kernel

/-- The heap of a caller that has one is freed. -/
theorem freeHeap_brk (hbrk : Paging.USER_EXEC_ADDR < im.proc.brk) (h : freeHeap im stale = .ok im') :
    im'.proc.brk = Paging.USER_EXEC_ADDR := by
  obtain ⟨⟨mem, proc, r⟩, h₁, h⟩ := ok_of_bind h
  obtain rfl := Except.ok.inj h
  obtain ⟨-, h₁⟩ := Kernel.of_assert h₁
  obtain ⟨-, h₁⟩ := Kernel.of_assert h₁
  rw [if_pos (show Paging.USER_EXEC_ADDR < im.proc.brk from hbrk)] at h₁
  obtain ⟨space, -, h₁⟩ := ok_of_bind h₁
  cases h₁
  rfl

theorem copyArgs_brk {top : Nat} (h : copyArgs im pages argvk filename argv envp = .ok (top, im')) :
    im'.proc.brk = im.proc.brk := by
  obtain ⟨⟨t, memory⟩, -, h⟩ := ok_of_bind h
  obtain ⟨space, -, h⟩ := ok_of_bind h
  cases h
  rfl

/-- A call that fails has ended before the tests or behind them. -/
theorem fails_cases (h : Ends (sysExecve im pages argvk stale filename argv envp) S (none, im') S') :
    SameFiles S.kernel S'.kernel ∧
      ((¬ Executable S.kernel filename ∧ im' = im) ∨
        (Executable S.kernel filename ∧ (Paging.USER_EXEC_ADDR < im.proc.brk →
          im'.proc.brk = Paging.USER_EXEC_ADDR))) := by
  obtain ⟨r, S₁, h₁, h⟩ := runs_bind.mp h
  obtain ⟨k₁, hk₁, rfl⟩ := ends_lift.mp h₁
  have hf₁ := walks_sameFiles.namei filename _ _ _ hk₁
  cases r with
  | none =>
    obtain ⟨e, rfl⟩ := runs_pure.mp h
    obtain ⟨-, rfl⟩ := Prod.mk.inj e
    refine ⟨hf₁, .inl ⟨?_, rfl⟩⟩
    rintro ⟨x, t, hx, -, -⟩
    cases (ends_unique hk₁ hx).1
  | some inode =>
    obtain ⟨mode, S₂, h₂, h⟩ := runs_bind.mp h
    obtain ⟨k₂, hk₂, rfl⟩ := ends_lift.mp h₂
    obtain ⟨rfl, rfl⟩ := runs_descGet.mp hk₂
    obtain ⟨ok, S₃, h₃, h⟩ := runs_bind.mp h
    obtain ⟨k₃, hk₃, rfl⟩ := ends_lift.mp h₃
    obtain ⟨rfl, rfl⟩ := runs_permission hk₃
    have hput {k k' : Kernel} {u : Unit} (hk : Ends (iput inode) k u k') : SameFiles k k' :=
      walks_sameFiles.iput inode _ _ _ hk
    obtain ⟨hno, h⟩ | ⟨hyes, h⟩ := runs_ite.mp h
    · obtain ⟨_, S₄, h₄, h⟩ := runs_bind.mp h
      obtain ⟨k₄, hk₄, rfl⟩ := ends_lift.mp h₄
      obtain ⟨e, rfl⟩ := runs_pure.mp h
      obtain ⟨-, rfl⟩ := Prod.mk.inj e
      refine ⟨Steady.trans hf₁ (hput hk₄), .inl ⟨?_, rfl⟩⟩
      rintro ⟨x, t, hx, hfile, hok⟩
      obtain ⟨e, rfl⟩ := ends_unique hk₁ hx
      obtain rfl := Option.some.inj e
      rw [hfile, hok] at hno
      simp at hno
    · obtain ⟨⟨top, im₁⟩, S₄, h₄, h⟩ := runs_bind.mp h
      obtain ⟨k₄, hk₄, rfl⟩ := ends_lift.mp h₄
      obtain ⟨hargs, rfl⟩ := runs_lift.mp hk₄
      obtain ⟨im₂, S₅, h₅, h⟩ := runs_bind.mp h
      obtain ⟨k₅, hk₅, rfl⟩ := ends_lift.mp h₅
      obtain ⟨hfree, rfl⟩ := runs_lift.mp hk₅
      obtain ⟨⟨entry, im₃⟩, S₆, h₆, h⟩ := runs_bind.mp h
      obtain ⟨k₆, hk₆, rfl⟩ := ends_lift.mp h₆
      have hf₆ := sameFiles_of_still (loadProgram_still inode im₂) _ _ _ hk₆
      have hexec : Executable S.kernel filename := by
        rw [not_or, Bool.not_eq_true, Bool.not_eq_true, Bool.not_eq_false', Bool.not_eq_false'] at hyes
        exact ⟨inode, _, hk₁, hyes.1, hyes.2⟩
      cases entry with
      | none =>
        obtain ⟨_, S₇, h₇, h⟩ := runs_bind.mp h
        obtain ⟨k₇, hk₇, rfl⟩ := ends_lift.mp h₇
        obtain ⟨e, rfl⟩ := runs_pure.mp h
        obtain ⟨-, rfl⟩ := Prod.mk.inj e
        refine ⟨Steady.trans hf₁ (Steady.trans hf₆ (hput hk₇)), .inr ⟨hexec, fun hb => ?_⟩⟩
        rw [loadProgram_brk hk₆]
        refine freeHeap_brk ?_ hfree
        rw [copyArgs_brk hargs]
        exact hb
      | some entry =>
        -- a program that is loaded does not come back
        obtain ⟨old, S₇, h₇, h⟩ := runs_bind.mp h
        obtain ⟨_, S₈, h₈, h⟩ := runs_bind.mp h
        obtain ⟨_, S₉, h₉, h⟩ := runs_bind.mp h
        obtain ⟨e, -⟩ := runs_pure.mp h
        cases (Prod.mk.inj e).1

/-- **When a failed `sys_execve` leaves its caller as it was**: when the file is not there, is not regular
    or may not be executed; and for a caller that has a program in memory, only then. -/
theorem execve_fails (h : Ends (sysExecve im pages argvk stale filename argv envp) S (none, im') S') :
    (¬ Executable S.kernel filename → Unchanged S S' im im') ∧
      (Paging.USER_EXEC_ADDR < im.proc.brk →
        (Unchanged S S' im im' ↔ ¬ Executable S.kernel filename)) := by
  obtain ⟨hfiles, hcases⟩ := fails_cases h
  have hkept (hno : ¬ Executable S.kernel filename) : Unchanged S S' im im' := by
    rcases hcases with ⟨-, rfl⟩ | ⟨hyes, -⟩
    · exact ⟨rfl, hfiles⟩
    · exact absurd hyes hno
  refine ⟨hkept, fun hb => ⟨fun hun => ?_, hkept⟩⟩
  rcases hcases with ⟨hno, -⟩ | ⟨-, hbrk⟩
  · exact hno
  · have := hbrk hb
    rw [hun.image] at this
    exact absurd this.symm (Nat.ne_of_lt hb)

/-- A process with one page of program. -/
def caller : Image where
  name := fun _ => 0
  memory := fun _ => 0
  mem := ⟨16, 1, 12, fun _ => 0, fun _ _ => .zero⟩
  proc := { Paging.taskToUserMode with
    brk := Paging.USER_EXEC_ADDR + Paging.PAGE_SIZE, end_ := Paging.USER_EXEC_ADDR + Paging.PAGE_SIZE }

/-- The volume has one file, `a`, and that is no program. -/
def system : System := { Sample.system with kernel := Sample.kernelData }

/-- The file `b` is not there. -/
theorem execve_fails_missing : ∃ S' im',
    Ends (sysExecve caller (fun _ => 0) (fun _ => 0) (fun _ => 0) [47, 98] none none) system (none, im') S' ∧
      (Unchanged system S' caller im' ↔ ¬ Executable system.kernel [47, 98]) := by
  obtain ⟨⟨r, im'⟩, S', h, hq⟩ := ends_of_run
    (p := sysExecve caller (fun _ => 0) (fun _ => 0) (fun _ => 0) [47, 98] none none) (s := system)
    (q := fun r _ => r.1.isNone) (by decide +kernel)
  obtain rfl := Option.isNone_iff_eq_none.mp hq
  exact ⟨S', im', h, (execve_fails h).2 (by decide)⟩

/-- **The file `a` has no header**: the caller is overwritten all the same. -/
theorem execve_overwrites : ¬ ∀ (S S' : System) (im im' : Image) (pages argvk stale : Bytes)
    (filename : CString) (argv envp : Strings),
    Ends (sysExecve im pages argvk stale filename argv envp) S (none, im') S' → Unchanged S S' im im' := by
  intro h
  obtain ⟨⟨r, im'⟩, S', hr, hq⟩ := ends_of_run
    (p := sysExecve caller (fun _ => 0) (fun _ => 0) (fun _ => 0) Sample.fileA none none) (s := system)
    (q := fun r _ => r.1.isNone && r.2.proc.brk == Paging.USER_EXEC_ADDR) (by decide +kernel)
  rw [Bool.and_eq_true, beq_iff_eq] at hq
  obtain rfl := Option.isNone_iff_eq_none.mp hq.1
  have := h system S' caller im' _ _ _ _ _ _ hr
  rw [this.image] at hq
  exact absurd hq.2 (by decide)

end Fails

end Yuios.Execve
