/-
  File:      Yuios/Fs/Dup.lean
  Subject:   A DESCRIPTOR MADE ANOTHER ONE: `sys_dup2` of `fs/file.c`, a close and a search.

  * `BetweenCalls` -- what holds between two calls: references are counted, an open file has its inode, an
    inode in memory holds its block, and the root directory is in slot 0.
  * `sysClose_ends` -- so closing comes to its end, also where the last reference to a file and to its
    inode goes.
  * `DupRight` -- the new descriptor is the old one's file, and the counts follow the entries gained and
    lost; without an old one nothing changes.
  * **`sysDup2_right_iff`** -- that is so exactly when the close takes nothing that is needed.
-/
import Yuios.Fs.Components
import Yuios.Fs.HolderRun

namespace Yuios

open Lib Prog Code

/-! ## 1. What is said of the call -/

/-- **Between two calls.** -/
structure BetweenCalls (S : System) : Prop extends Settled S where
  opened : ∀ f ∈ S.entries, (S.kernel.tab.fileTable f).inode.isSome = true
  backed : ∀ k, (S.kernel.tab.owners k : Int) ≤ (S.kernel.cache.buf k).count
  first : 0 ∈ S.kernel.tab.mounts

/-- **`dup2` does what is said of it** for the process `p`. -/
def DupRight (p old new : Nat) (s : Kernel) (r : Option Nat) (t : Kernel) : Prop :=
  match (s.tab.task p).files old with
  | some f =>
    r = some new ∧ (t.tab.task p).files = Function.update (s.tab.task p).files new (some f) ∧
      ∀ g, (t.tab.fileTable g).count + ((s.tab.task p).files new).toList.count g =
        (s.tab.fileTable g).count + [f].count g
  | none =>
    r = none ∧ (t.tab.task p).files = (s.tab.task p).files ∧
      ∀ g, (t.tab.fileTable g).count = (s.tab.fileTable g).count

/-- **The close takes nothing that is needed**: not the old descriptor, and nothing when there is none. -/
def Spares (p old new : Nat) (s : Kernel) : Prop :=
  ((s.tab.task p).files old).isSome = true ∧ old ≠ new ∨
    (s.tab.task p).files old = none ∧ (s.tab.task p).files new = none

/-! ## 2. Closing comes to its end -/

section Close

variable {full : Prop} {s : Kernel} {x f : Nat} {refs entries others : List Nat}

/-- `iput` of a pipe. -/
theorem settles_iput_pipe (ho : Owned s.tab (x :: refs)) (hp : (s.tab.inodeTable x).pipe = true)
    (h0 : 0 ∈ refs) : Settles full (iput x) s := by
  have hcount := ho.count x
  rw [List.count_cons_self] at hcount
  refine settles_inodeAt ?_
  rw [if_pos hp]
  refine settles_onInode (settles_inodeAt ?_)
  obtain ⟨s₁, hs₁⟩ : ∃ s₁, s₁ = s.setInode x
      { s.tab.inodeTable x with count := (s.tab.inodeTable x).count - 1 } := ⟨_, rfl⟩
  have hself : s₁.tab.inodeTable x =
      { s.tab.inodeTable x with count := (s.tab.inodeTable x).count - 1 } := by
    rw [hs₁]
    exact Function.update_self ..
  rw [← hs₁, hself]
  by_cases hz : (s.tab.inodeTable x).count - 1 = 0
  · rw [if_neg (not_not.mpr hz)]
    have hx0 : x ≠ 0 := by
      rintro rfl
      have := List.count_pos_iff.mpr h0
      omega
    refine settles_onInode (settles_assert (by simpa using hx0) (settles_inodeAt (settles_assert ?_
      settles_modify)))
    have hzero :
        ((s₁.setInode x { s₁.tab.inodeTable x with pipe := false }).tab.inodeTable x).count = 0 := by
      rw [hself]
      simpa [Kernel.setInode, Tables.setInode] using hz
    simpa using hzero
  · rw [if_pos hz]
    exact settles_of_ends ⟨rfl, rfl⟩

/-- **`put_file`**: the last descriptor gives the inode back. -/
theorem settles_putFile (h : Booking (f :: entries) others s.tab)
    (hx : (s.tab.fileTable f).inode.isSome = true) (h0 : 0 ∈ others)
    (hb : ∀ k, (s.tab.owners k : Int) ≤ (s.cache.buf k).count) : Settles full (putFile f) s := by
  have hpos : 0 < (s.tab.fileTable f).count :=
    Nat.pos_of_ne_zero (h.count_ne.mpr List.mem_cons_self)
  refine settles_then (runs_reads.mpr ⟨rfl, rfl⟩) (settles_assert (by simpa using hpos) ?_)
  obtain ⟨file, hfile⟩ : ∃ file, file =
      { s.tab.fileTable f with count := (s.tab.fileTable f).count - 1 } := ⟨_, rfl⟩
  obtain ⟨s₁, hs₁⟩ : ∃ s₁ : Kernel, s₁ = { s with tab := s.tab.setFile f file } := ⟨_, rfl⟩
  refine settles_then (a := ()) (t := s₁) (by rw [hs₁, hfile]; exact ⟨rfl, rfl⟩) ?_
  refine settles_then (runs_reads.mpr ⟨rfl, rfl⟩) ?_
  have hself : s₁.tab.fileTable f = file := by
    rw [hs₁]
    exact Function.update_self ..
  rw [hself]
  by_cases hz : file.count = 0
  · rw [if_pos hz]
    obtain ⟨x, hx⟩ := Option.isSome_iff_exists.mp hx
    have hinode : file.inode = some x := by rw [hfile]; exact hx
    have hclosed : Booking entries ((if (s.tab.fileTable f).count - 1 = 0 then
        (s.tab.fileTable f).inode.toList else []) ++ others) s₁.tab :=
      h.closed (by rw [hs₁]; rfl) (by rw [hs₁]; rfl) (by rw [hs₁, hfile]; rfl)
    rw [if_pos (by rw [hfile] at hz; exact hz), hx] at hclosed
    have ho : Owned s₁.tab (x :: (s₁.tab.openFiles ++ others)) := hclosed.owned.perm List.perm_middle
    have hb₁ : ∀ k, (s₁.tab.owners k : Int) ≤ (s₁.cache.buf k).count := by
      rw [hs₁]
      exact hb
    rw [hinode]
    show Settles full (iput x) s₁
    by_cases hp : (s₁.tab.inodeTable x).pipe = true
    · exact settles_iput_pipe ho hp (List.mem_append_right _ h0)
    · exact settles_iput ho (Bool.eq_false_iff.mpr hp) (List.mem_append_right _ h0) hb₁
  · rw [if_neg hz]
    exact settles_of_ends ⟨rfl, rfl⟩

end Close

section Calls

variable {S : System} {s t : Kernel} {p fd old new f : Nat}

theorem System.mem_entries (hp : p ∈ S.alive) (hfd : fd < TASK_FILE_NR)
    (hf : (S.kernel.tab.task p).files fd = some f) : f ∈ S.entries :=
  List.mem_flatMap.mpr ⟨p, hp, Task.mem_entries hfd hf⟩

/-- **`sys_close` comes to its end.** -/
theorem sysClose_ends (hS : BetweenCalls S) (hp : p ∈ S.alive) (hrun : S.kernel.tab.running = p)
    (hfd : fd < TASK_FILE_NR) : ∃ t, Ends (sysClose fd) S.kernel () t := by
  have h : Settles False (sysClose fd) S.kernel := by
    refine settles_assert (by simpa using hfd) ?_
    refine settles_then (a := (S.kernel.tab.task p).files fd) (t := S.kernel)
      (runs_bind.mpr ⟨_, _, runs_runningTask.mpr ⟨rfl, rfl⟩, by rw [hrun], rfl⟩) ?_
    cases hf : (S.kernel.tab.task p).files fd with
    | none => exact settles_of_ends ⟨rfl, rfl⟩
    | some f =>
      have hm := System.mem_entries hp hfd hf
      refine settles_then (runs_reads.mpr ⟨rfl, rfl⟩) (settles_assert (hS.opened f hm) ?_)
      refine settles_bind ?_ fun _ _ _ => settles_modify
      exact settles_putFile (hS.booking.perm (List.perm_cons_erase hm) .rfl) (hS.opened f hm)
        (List.mem_append_right _ hS.first) hS.backed
  rcases h with ⟨_, t, ht⟩ | ⟨hfalse, -⟩
  · exact ⟨t, ht⟩
  · exact hfalse.elim

/-! ## 3. The search -/

/-- The first free descriptor from a free one on is this one. -/
theorem find_free {files : Nat → Option Nat} (hnew : new < TASK_FILE_NR) (hfree : files new = none) :
    (((List.range TASK_FILE_NR).drop new).find? fun i => (files i).isNone) = some new := by
  rw [List.drop_eq_getElem_cons (by simpa using hnew), List.getElem_range]
  exact List.find?_cons_of_pos (by simp [hfree])

theorem dupfd_then {r : Option Nat} (hrun : s.tab.running = p) (hold : old < TASK_FILE_NR)
    (h : Ends (match (s.tab.task p).files old with
      | none => return none
      | some f =>
        match ((List.range TASK_FILE_NR).drop new).find? fun i => ((s.tab.task p).files i).isNone with
        | none => return none
        | some arg => do
          onTask fun t => { t with files := Function.update t.files arg (some f) }
          onFile f fun file => { file with count := file.count + 1 }
          return some arg : Code (Option Nat)) s r t) : Ends (dupfd old new) s r t := by
  refine runs_bind.mpr ⟨s.tab.task p, s, runs_runningTask.mpr ⟨by rw [hrun], rfl⟩, ?_⟩
  exact runs_ite.mpr (.inr ⟨Nat.not_le.mpr hold, h⟩)

/-- `dupfd` of a descriptor that is open, to a free one. -/
theorem dupfd_open (hrun : s.tab.running = p) (hold : old < TASK_FILE_NR) (hnew : new < TASK_FILE_NR)
    (hf : (s.tab.task p).files old = some f) (hfree : (s.tab.task p).files new = none) :
    ∃ t, Ends (dupfd old new) s (some new) t ∧
      (t.tab.task p).files = Function.update (s.tab.task p).files new (some f) := by
  obtain ⟨t, ht⟩ : ∃ t, Ends (do
      onTask fun t => { t with files := Function.update t.files new (some f) }
      onFile f fun file => { file with count := file.count + 1 }
      return some new : Code (Option Nat)) s (some new) t := ⟨_, rfl, rfl⟩
  refine ⟨t, dupfd_then hrun hold ?_, ?_⟩
  · rw [hf, find_free hnew hfree]
    exact ht
  · obtain ⟨_, s₁, h₁, ht⟩ := runs_bind.mp ht
    obtain ⟨_, s₂, h₂, -, rfl⟩ := runs_bind.mp ht
    rw [runs_onFile h₂, runs_onTask h₁, hrun]
    simp [Tables.setFile]

/-- `dupfd` of a descriptor that is not open. -/
theorem dupfd_closed (hrun : s.tab.running = p) (hold : old < TASK_FILE_NR)
    (hf : (s.tab.task p).files old = none) : Ends (dupfd old new) s none s :=
  dupfd_then hrun hold (by rw [hf]; exact ⟨rfl, rfl⟩)

/-! ## 4. The call -/

/-- What the call does: it closes, and sets the descriptor where the old one is still there. -/
theorem sysDup2_runs (hS : BetweenCalls S) (hp : p ∈ S.alive) (hrun : S.kernel.tab.running = p)
    (hold : old < TASK_FILE_NR) (hnew : new < TASK_FILE_NR) :
    ∃ r t, Ends (sysDup2 old new) S.kernel r t ∧
      match Function.update (S.kernel.tab.task p).files new none old with
      | some f => r = some new ∧
          (t.tab.task p).files = Function.update (S.kernel.tab.task p).files new (some f)
      | none => r = none ∧ (t.tab.task p).files = Function.update (S.kernel.tab.task p).files new none := by
  obtain ⟨s₁, h₁⟩ := sysClose_ends hS hp hrun hnew
  obtain ⟨wd, rt, hs⟩ := hS.serves hp hrun
  obtain ⟨hs₁, hfiles⟩ := holds_sysClose (hS.rooted p) new _ _ _ ⟨hs, rfl⟩ h₁
  have hfree : (s₁.tab.task p).files new = none := by rw [hfiles, Function.update_self]
  cases hf : Function.update (S.kernel.tab.task p).files new none old with
  | none =>
    have hd : Ends (dupfd old new) s₁ none s₁ := dupfd_closed hs₁.running hold (by rw [hfiles, hf])
    exact ⟨none, s₁, runs_bind.mpr ⟨(), s₁, h₁, hd⟩, rfl, hfiles⟩
  | some f =>
    obtain ⟨t, hd, ht⟩ := dupfd_open hs₁.running hold hnew (by rw [hfiles, hf]) hfree
    refine ⟨some new, t, runs_bind.mpr ⟨(), s₁, h₁, hd⟩, rfl, ?_⟩
    rw [ht, hfiles, Function.update_idem]

/-- The counts after the call are the entries after it. -/
theorem sysDup2_counts (hS : BetweenCalls S) (hp : p ∈ S.alive) (hrun : S.kernel.tab.running = p)
    {r : Option Nat} (h : Ends (sysDup2 old new) S.kernel r t) (hnew : new < TASK_FILE_NR)
    {o : Option Nat} (hfiles : (t.tab.task p).files = Function.update (S.kernel.tab.task p).files new o)
    (g : Nat) : (t.tab.fileTable g).count + ((S.kernel.tab.task p).files new).toList.count g =
      (S.kernel.tab.fileTable g).count + o.toList.count g := by
  obtain ⟨wd, rt, hs⟩ := hS.serves hp hrun
  have ht := holds_sysDup2 (hS.rooted p) old new _ _ _ hs h
  obtain ⟨R, hR⟩ := entries_pick hnew (S.kernel.tab.task p)
  have h₁ := (hR _ fun _ _ => rfl).count_eq g
  have h₂ := (hR (t.tab.task p) fun i hi => by rw [hfiles, Function.update_of_ne hi]).count_eq g
  rw [hfiles, Function.update_self, List.count_append] at h₂
  rw [List.count_append] at h₁
  rw [ht.booking.files g, hs.booking.files g, List.count_append, List.count_append, h₁, h₂]
  omega

/-- **When `sys_dup2` does what is said of it**: exactly when the close takes neither the old descriptor
    nor, where that is not open, anything at all. -/
theorem sysDup2_right_iff (hS : BetweenCalls S) (hp : p ∈ S.alive) (hrun : S.kernel.tab.running = p)
    (hold : old < TASK_FILE_NR) (hnew : new < TASK_FILE_NR) :
    ∃ r t, Ends (sysDup2 old new) S.kernel r t ∧
      (DupRight p old new S.kernel r t ↔ Spares p old new S.kernel) := by
  obtain ⟨r, t, h, hafter⟩ := sysDup2_runs hS hp hrun hold hnew
  refine ⟨r, t, h, ?_⟩
  have hcount := fun o => sysDup2_counts (o := o) hS hp hrun h hnew
  unfold DupRight Spares
  cases hf : (S.kernel.tab.task p).files old with
  | none =>
    have hold' : Function.update (S.kernel.tab.task p).files new none old = none := by
      by_cases e : old = new
      · rw [e, Function.update_self]
      · rw [Function.update_of_ne e, hf]
    rw [hold'] at hafter
    obtain ⟨hr, hfiles⟩ := hafter
    have hfree : (t.tab.task p).files = (S.kernel.tab.task p).files ↔
        (S.kernel.tab.task p).files new = none := by
      rw [hfiles]
      exact Function.update_eq_self_iff.trans eq_comm
    constructor
    · exact fun hd => .inr ⟨rfl, hfree.mp hd.2.1⟩
    · rintro (⟨hd, -⟩ | ⟨-, hd⟩)
      · cases hd
      · refine ⟨hr, hfree.mpr hd, fun g => ?_⟩
        have := hcount none hfiles g
        rw [hd] at this
        exact this
  | some f =>
    by_cases e : old = new
    · rw [e, Function.update_self] at hafter
      refine iff_of_false (fun hd => ?_) fun hd => ?_
      · rw [hafter.1] at hd
        cases hd.1
      · rcases hd with ⟨-, hd⟩ | ⟨hd, -⟩
        · exact hd e
        · cases hd
    · rw [Function.update_of_ne e, hf] at hafter
      obtain ⟨hr, hfiles⟩ := hafter
      exact iff_of_true ⟨hr, hfiles, hcount (some f) hfiles⟩ (.inl ⟨rfl, e⟩)

end Calls

namespace Sample

/-- The process has made a pipe: descriptors 3 and 4. -/
def piped : System :=
  match run SysCall.pipe.code (system.turn 0) with
  | .ok r => r.2.turn 0
  | .error _ => system

theorem piped_settled : Settled piped := by
  obtain ⟨S, hrun⟩ : ∃ S, run SysCall.pipe.code (system.turn 0) = .ok ((), S) := ⟨_, rfl⟩
  have hpiped : piped = S.turn 0 := by
    unfold piped
    rw [hrun]
  rw [hpiped]
  exact (settled_call (c := .pipe) system_settled (by decide) (fun _ => nofun) (ends_iff.mpr hrun)).turn 0

/-- The slots behind the root directory and the pipe are free. -/
theorem piped_spare {x : Nat} (hx : x ≠ 0 ∧ x ≠ 1) : (piped.kernel.tab.inodeTable x).dev = devEOF := by
  have hlist : piped.kernel.tab.openFiles ++ (piped.directories ++ piped.kernel.tab.mounts) =
      [1, 1, 0, 0, 0, 0] := by decide
  have hlive := piped_settled.booking.owned.live x
  have hout : x ∉ [1, 1, 0, 0, 0, 0] := by simp [hx.1, hx.2]
  exact not_not.mp fun hl => hout (hlist ▸ hlive.mp hl)

theorem piped_betweenCalls : BetweenCalls piped where
  toSettled := piped_settled
  opened := by
    have hlist : piped.entries = [3, 4] := by decide
    rw [hlist]
    decide
  backed k := by
    by_cases hk : k = ⟨dev, 4⟩
    · rw [hk]
      decide
    · have hnone : piped.kernel.tab.owners k = 0 := by
        refine List.countP_eq_zero.mpr fun x _ ho => ?_
        unfold Inode.owns at ho
        simp only [Bool.and_eq_true, decide_eq_true_eq, bne_iff_ne, Bool.not_eq_true'] at ho
        by_cases h0 : x = 0
        · have hbuf : (piped.kernel.tab.inodeTable 0).buf = ⟨dev, 4⟩ := by decide
          exact hk (ho.2.symm.trans (h0 ▸ hbuf))
        · by_cases h1 : x = 1
          · have hpipe : (piped.kernel.tab.inodeTable 1).pipe = true := by decide
            exact absurd (h1 ▸ ho.1.2) (by rw [hpipe]; decide)
          · exact ho.1.1 (piped_spare ⟨h0, h1⟩)
      have hcount : (piped.kernel.cache.buf k).count = 0 := if_neg hk
      rw [hnone, hcount]
      rfl
  first := by decide

end Sample

/-- The pipe's reading end becomes descriptor 4, whose file goes with its last descriptor. -/
theorem sysDup2_right_pipe : BetweenCalls Sample.piped ∧ Spares 0 3 4 Sample.piped.kernel ∧
    ∃ r t, Ends (sysDup2 3 4) Sample.piped.kernel r t ∧
      (DupRight 0 3 4 Sample.piped.kernel r t ↔ Spares 0 3 4 Sample.piped.kernel) :=
  ⟨Sample.piped_betweenCalls, .inl ⟨by decide, by decide⟩,
    sysDup2_right_iff Sample.piped_betweenCalls (by decide) (by decide) (by decide)
      (by decide)⟩

/-- Descriptor 5 is not open: `dup2` of it to descriptor 3 answers `EOF`, and descriptor 3 is closed. -/
theorem sysDup2_right_not_always : ¬∀ (S : System) (p old new : Nat), BetweenCalls S → p ∈ S.alive →
    S.kernel.tab.running = p → old < TASK_FILE_NR → new < TASK_FILE_NR →
      ∃ r t, Ends (sysDup2 old new) S.kernel r t ∧ DupRight p old new S.kernel r t := by
  intro h
  obtain ⟨r, t, hrun, hd⟩ := h Sample.piped 0 5 3 Sample.piped_betweenCalls (by decide)
    (by decide) (by decide) (by decide)
  obtain ⟨r', t', hrun', hq⟩ := ends_of_run (p := sysDup2 5 3) (s := Sample.piped.kernel)
    (q := fun _ t => ((t.tab.task 0).files 3).isNone) (by decide)
  obtain ⟨rfl, rfl⟩ := ends_unique hrun hrun'
  have h5 : (Sample.piped.kernel.tab.task 0).files 5 = none := by decide
  have h3 : (Sample.piped.kernel.tab.task 0).files 3 = some 3 := by decide
  unfold DupRight at hd
  rw [h5] at hd
  rw [hd.2.1, h3] at hq
  cases hq

end Yuios
