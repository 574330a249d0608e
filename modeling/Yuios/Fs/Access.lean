/-
  File:      Yuios/Fs/Access.lean
  Subject:   WHAT AN OPEN FILE GRANTS: the access mode `inode_open` checks, the one `sys_open` puts
             into the file table, and the tests of `sys_read` and `sys_write`.

  * `Kernel.permits` -- `permission` read off the descriptor.
  * `openFind`, `openFinish` -- `inode_open` before and after it has the inode (`inodeOpen_eq`).
  * `Granted` -- the access a descriptor grants is the access that was checked.
  * `granted_iff` -- exactly when it is: `inode_open` turns read-only truncation into writing for
    itself, and leaves early for a path that ends in a separator.
-/
import Yuios.Fs.Transfer
import Yuios.Fs.Lookup
import Yuios.Fs.Sample

namespace Yuios

open Lib Prog Code

variable {s t : Kernel} {C : List Frame → Kernel → Prop}

/-! ## 1. Permissions -/

/-- The three bits of the mode that are the running task's. -/
def Kernel.modeFor (s : Kernel) (x : Nat) : Nat :=
  let task := s.tab.task s.tab.running
  let mode := s.desc x .mode
  if task.uid = s.desc x .uid then mode >>> 6 else if task.gid = s.desc x .gid then mode >>> 3 else mode

/-- `permission`, read off the descriptor. -/
def Kernel.permits (s : Kernel) (x mask : Nat) : Bool :=
  if s.desc x .nlinks = 0 then false
  else if (s.tab.task s.tab.running).uid = 0 then true
  else s.modeFor x &&& mask &&& 7 == mask

theorem runs_permission {x mask : Nat} {ok : Bool} (h : Runs C (permission x mask) s ok t) :
    ok = s.permits x mask ∧ s = t := by
  obtain ⟨mode, s₁, h₁, h⟩ := runs_bind.mp h
  obtain ⟨rfl, rfl⟩ := runs_descGet.mp h₁
  obtain ⟨nlinks, s₂, h₂, h⟩ := runs_bind.mp h
  obtain ⟨rfl, rfl⟩ := runs_descGet.mp h₂
  unfold Kernel.permits
  obtain ⟨hl, h⟩ | ⟨hl, h⟩ := runs_ite.mp h
  · obtain ⟨rfl, rfl⟩ := runs_pure.mp h
    simp [hl]
  · obtain ⟨task, s₃, h₃, h⟩ := runs_bind.mp h
    obtain ⟨rfl, rfl⟩ := runs_runningTask.mp h₃
    obtain ⟨hu, h⟩ | ⟨hu, h⟩ := runs_ite.mp h
    · obtain ⟨rfl, rfl⟩ := runs_pure.mp h
      simp [hl, hu]
    · obtain ⟨uid, s₄, h₄, h⟩ := runs_bind.mp h
      obtain ⟨rfl, rfl⟩ := runs_descGet.mp h₄
      obtain ⟨gid, s₅, h₅, h⟩ := runs_bind.mp h
      obtain ⟨rfl, rfl⟩ := runs_descGet.mp h₅
      obtain ⟨rfl, rfl⟩ := runs_pure.mp h
      simp [hl, hu, Kernel.modeFor]

/-- Who may do more may do less. -/
theorem permits_of_subset {x mask mask' : Nat} (hm : mask &&& mask' = mask')
    (h : s.permits x mask = true) : s.permits x mask' = true := by
  unfold Kernel.permits at h ⊢
  by_cases hl : s.desc x .nlinks = 0
  · simp [hl] at h
  · by_cases hu : (s.tab.task s.tab.running).uid = 0
    · simp [hl, hu]
    · simp only [hl, hu, if_false, beq_iff_eq] at h ⊢
      calc s.modeFor x &&& mask' &&& 7 = s.modeFor x &&& (mask &&& mask') &&& 7 := by rw [hm]
        _ = (s.modeFor x &&& mask &&& 7) &&& mask' := by
          rw [← Nat.and_assoc, Nat.and_assoc, Nat.and_comm mask' 7, ← Nat.and_assoc]
        _ = mask' := by rw [h, hm]

/-- An access mode that is not read-only asks for write permission. -/
theorem accMode_write {flag : Nat} (h : flag % 4 ≠ O_RDONLY) :
    accMode flag &&& P_WRITE = P_WRITE := by
  have h4 : flag % 4 < 4 := Nat.mod_lt _ (by decide)
  unfold accMode
  generalize flag % 4 = m at h h4 ⊢
  match m, h, h4 with
  | 1, _, _ => rfl
  | 2, _, _ => rfl
  | 3, _, _ => rfl

/-- An access mode that is not write-only asks for read permission. -/
theorem accMode_read {flag : Nat} (h : flag % 4 ≠ O_WRONLY) : accMode flag &&& P_READ = P_READ := by
  have h4 : flag % 4 < 4 := Nat.mod_lt _ (by decide)
  unfold accMode
  generalize flag % 4 = m at h h4 ⊢
  match m, h, h4 with
  | 0, _, _ => rfl
  | 2, _, _ => rfl
  | 3, _, _ => rfl

/-! ## 2. `inode_open` in two parts -/

/-- The flags `inode_open` checks: read-only truncation asks for writing, too. -/
def adjustFlag (flag : Nat) : Nat :=
  if flag &&& O_TRUNC ≠ 0 ∧ flag % 4 = O_RDONLY then flag ||| O_RDWR else flag

/-- `inode_open` up to `makeup`: the directory itself for a path without a last component, or else
    the inode with the directory and the buffer that are released later. -/
def openFind (pathname : List UInt8) (flag mode : Nat) :
    Code (Option (Nat × Option (Nat × Key))) := do
  match ← named pathname with
  | none => return none
  | some (dir, next) =>
    if next = [] then
      return some (dir, none)
    else
      let (dir, r) ← findEntry dir next
      match r with
      | some (buf, entry, _) =>
        let d ← inodeAt dir
        let nr ← dentryNr buf entry
        let inode ← iget d.dev nr
        return some (inode, some (dir, buf))
      | none =>
        if adjustFlag flag &&& O_CREAT = 0 then
          rollback none dir none
        else
          let ok ← permission dir P_WRITE
          if !ok then
            rollback none dir none
          else
            let (buf, inode) ← openCreate dir next mode
            return some (inode, some (dir, buf))

/-- `inode_open` from there on. -/
def openFinish (flag : Nat) : Option (Nat × Option (Nat × Key)) → Code (Option Nat)
  | none => return none
  | some (inode, none) => return some inode
  | some (inode, some (dir, buf)) => openMakeup dir buf inode (adjustFlag flag)

theorem inodeOpen_eq (pathname : List UInt8) (flag mode : Nat) :
    inodeOpen pathname flag mode = openFind pathname flag mode >>= openFinish flag := by
  unfold inodeOpen openFind
  rw [bind_assoc]
  refine congrArg _ (funext fun r => ?_)
  cases r with
  | none => rfl
  | some r =>
    obtain ⟨dir, next⟩ := r
    dsimp only
    by_cases hn : next = []
    · simp [hn, openFinish]
    · simp only [hn, if_false, bind_assoc]
      refine congrArg _ (funext fun q => ?_)
      obtain ⟨dir, q⟩ := q
      cases q with
      | some q =>
        obtain ⟨buf, entry, rest⟩ := q
        simp only [bind_assoc, pure_bind]
        rfl
      | none =>
        have hadj : (if flag &&& O_TRUNC ≠ 0 ∧ flag % 4 = O_RDONLY then flag ||| O_RDWR
          else flag) = adjustFlag flag := rfl
        dsimp only
        rw [hadj]
        by_cases hc : adjustFlag flag &&& O_CREAT = 0
        · rw [if_pos hc, if_pos hc]
          simp only [rollback, bind_assoc, pure_bind]
          rfl
        · rw [if_neg hc, if_neg hc]
          simp only [bind_assoc]
          refine congrArg _ (funext fun ok => ?_)
          cases ok with
          | false =>
            simp only [Bool.not_false, if_true, rollback, bind_assoc, pure_bind]
            rfl
          | true =>
            simp only [Bool.not_true, Bool.false_eq_true, if_false, bind_assoc, pure_bind]
            rfl

/-! ## 3. What `inode_open` finds -/

/-- The path ends in a separator: it names the directory itself. -/
def trailing (pathname : List UInt8) : Bool := (pathname.getLast?.map isSeparator).getD false

theorem afterLastSep_cons {c : UInt8} {cs : List UInt8} :
    afterLastSep (c :: cs) = some [] ↔ trailing (c :: cs) = true := by
  induction cs generalizing c with
  | nil =>
    cases hc : isSeparator c <;> simp [afterLastSep, trailing, hc]
  | cons d ds ih =>
    have htrail : trailing (c :: d :: ds) = trailing (d :: ds) := rfl
    rw [htrail, ← ih]
    conv_lhs => rw [afterLastSep]
    cases h : afterLastSep (d :: ds) with
    | some r => rfl
    | none =>
      cases isSeparator c <;> simp

theorem namedLoop_right {right : List UInt8} {fuel inode : Nat} {left : List UInt8} {dir : Nat}
    {next : List UInt8} (h : Ends (namedLoop right fuel inode left) s (some (dir, next)) t) :
    next = right ∧ ISDIR (t.desc dir .mode) = true := by
  induction fuel generalizing inode left s with
  | zero => exact h.elim
  | succ fuel ih =>
    obtain ⟨⟨d, r⟩, s₁, -, h⟩ := runs_bind.mp h
    cases r with
    | none =>
      obtain ⟨_, s₂, -, h⟩ := runs_bind.mp h
      cases (runs_pure.mp h).1
    | some e =>
      obtain ⟨k, entry, rest⟩ := e
      obtain ⟨ino, s₂, -, h⟩ := runs_bind.mp h
      obtain ⟨_, s₃, -, h⟩ := runs_bind.mp h
      obtain ⟨nr, s₄, -, h⟩ := runs_bind.mp h
      obtain ⟨y, s₅, -, h⟩ := runs_bind.mp h
      obtain ⟨ok, s₆, h₆, h⟩ := runs_bind.mp h
      obtain ⟨hok, h⟩ | ⟨hok, h⟩ := runs_ite.mp h
      · obtain ⟨hr, h⟩ | ⟨hr, h⟩ := runs_ite.mp h
        · obtain ⟨_, s₇, h₇, h⟩ := runs_bind.mp h
          obtain ⟨e, rfl⟩ := runs_pure.mp h
          obtain ⟨rfl, rfl⟩ := Prod.mk.inj (Option.some.inj e)
          refine ⟨hr.symm, ?_⟩
          have hsame := brelse_same k _ _ _ h₇
          obtain ⟨rfl, he⟩ := searchable_enters h₆
          have hdir : ISDIR (s₅.desc y .mode) = true := by
            rw [hok] at he
            have he := he.symm
            unfold Inode.enters at he
            rw [Bool.and_eq_true, Bool.and_eq_true] at he
            exact he.1.1
          unfold Kernel.desc at hdir ⊢
          rw [hsame.tab, hsame.views]
          exact hdir
        · exact ih h
      · obtain ⟨_, s₇, -, h⟩ := runs_bind.mp h
        obtain ⟨_, s₈, -, h⟩ := runs_bind.mp h
        cases (runs_pure.mp h).1

/-- The running task's root is a directory: `sys_chroot` sees to it. -/
def Kernel.rooted (s : Kernel) : Prop := ISDIR (s.desc (s.tab.task s.tab.running).iroot .mode) = true

/-- `named` leaves no last component exactly for a path that ends in a separator, and then it
    answers a directory. -/
theorem named_next (hroot : s.rooted) {pathname : List UInt8} {dir : Nat} {next : List UInt8}
    (h : Ends (named pathname) s (some (dir, next)) t) :
    (next = [] ↔ trailing pathname = true) ∧ (next = [] → ISDIR (t.desc dir .mode) = true) := by
  obtain ⟨task, s₁, h₁, h⟩ := runs_bind.mp h
  obtain ⟨rfl, rfl⟩ := runs_runningTask.mp h₁
  cases pathname with
  | nil => cases (runs_pure.mp h).1
  | cons c cs =>
    dsimp only at h
    obtain ⟨_, s₂, h₂, h⟩ := runs_bind.mp h
    have hcount := runs_onInode h₂
    obtain ⟨left, hleft⟩ : ∃ left, left = if isSeparator c then cs else c :: cs := ⟨_, rfl⟩
    rw [← hleft] at h
    cases left with
    | nil =>
      obtain ⟨e, rfl⟩ := runs_pure.mp h
      obtain ⟨rfl, rfl⟩ := Prod.mk.inj (Option.some.inj e)
      cases hc : isSeparator c with
      | false => simp [hc] at hleft
      | true =>
        obtain rfl : [] = cs := by simpa [hc] using hleft
        refine ⟨by simp [trailing, hc], fun _ => ?_⟩
        unfold Kernel.rooted Kernel.desc at hroot
        rw [hcount]
        simpa [Kernel.desc, hc, Tables.setInode] using hroot
    | cons d ds =>
      have htrail : trailing (c :: cs) = trailing (d :: ds) := by
        cases hc : isSeparator c with
        | false => rw [show d :: ds = c :: cs by simpa [hc] using hleft]
        | true =>
          obtain rfl : d :: ds = cs := by simpa [hc] using hleft
          rfl
      rw [htrail]
      dsimp only at h
      cases hr : afterLastSep (d :: ds) with
      | none =>
        rw [hr] at h
        obtain ⟨e, rfl⟩ := runs_pure.mp h
        obtain ⟨rfl, rfl⟩ := Prod.mk.inj (Option.some.inj e)
        have : ¬ trailing (d :: ds) = true := fun ht => by
          rw [afterLastSep_cons.mpr ht] at hr
          cases hr
        exact ⟨⟨fun hn => absurd hn (List.cons_ne_nil d ds), fun ht => absurd ht this⟩,
          fun hn => absurd hn (List.cons_ne_nil d ds)⟩
      | some right =>
        rw [hr] at h
        obtain ⟨rfl, hdir⟩ := namedLoop_right h
        refine ⟨?_, fun _ => hdir⟩
        rw [← afterLastSep_cons, hr, Option.some.injEq]

/-- Whether `inode_open` checks what it finds is a matter of the path. -/
theorem openFind_how (hroot : s.rooted) {pathname : List UInt8} {flag mode x : Nat}
    {how : Option (Nat × Key)} (h : Ends (openFind pathname flag mode) s (some (x, how)) t) :
    (how = none ↔ trailing pathname = true) ∧ (how = none → ISDIR (t.desc x .mode) = true) := by
  obtain ⟨r, s₁, h₁, h⟩ := runs_bind.mp h
  cases r with
  | none => cases (runs_pure.mp h).1
  | some r =>
    obtain ⟨dir, next⟩ := r
    obtain ⟨hnext, hdir⟩ := named_next hroot h₁
    obtain ⟨hn, h⟩ | ⟨hn, h⟩ := runs_ite.mp h
    · obtain ⟨e, rfl⟩ := runs_pure.mp h
      obtain ⟨rfl, rfl⟩ := Prod.mk.inj (Option.some.inj e)
      exact ⟨⟨fun _ => hnext.mp hn, fun _ => rfl⟩, fun _ => hdir hn⟩
    · have hsome : ∃ d, how = some d := by
        obtain ⟨⟨d, q⟩, s₂, -, h⟩ := runs_bind.mp h
        cases q with
        | some q =>
          obtain ⟨_, s₃, -, h⟩ := runs_bind.mp h
          obtain ⟨_, s₄, -, h⟩ := runs_bind.mp h
          obtain ⟨_, s₅, -, h⟩ := runs_bind.mp h
          exact ⟨_, (Prod.mk.inj (Option.some.inj (runs_pure.mp h).1)).2.symm⟩
        | none =>
          have hback : ∀ {u}, ¬ Ends (rollback none d none : Code (Option (Nat × Option (Nat × Key))))
              u (some (x, how)) t := fun h => by
            obtain ⟨_, s₃, -, h⟩ := runs_bind.mp h
            obtain ⟨_, s₄, -, h⟩ := runs_bind.mp h
            cases (runs_pure.mp h).1
          obtain ⟨-, h⟩ | ⟨-, h⟩ := runs_ite.mp h
          · exact absurd h hback
          · obtain ⟨ok, s₃, -, h⟩ := runs_bind.mp h
            obtain ⟨-, h⟩ | ⟨-, h⟩ := runs_ite.mp h
            · exact absurd h hback
            · obtain ⟨_, s₄, -, h⟩ := runs_bind.mp h
              exact ⟨_, (Prod.mk.inj (Option.some.inj (runs_pure.mp h).1)).2.symm⟩
      obtain ⟨d, rfl⟩ := hsome
      exact ⟨⟨nofun, fun ht => absurd (hnext.mpr ht) hn⟩, nofun⟩

/-- Past `makeup` the inode is the one found, and the adjusted access mode was permitted. -/
theorem openMakeup_checked {dir x y flag : Nat} {buf : Key}
    (h : Ends (openMakeup dir buf x flag) s (some y) t) :
    y = x ∧ s.permits x (accMode flag) = true ∧
      (flag % 4 ≠ O_RDONLY → ISDIR (s.desc x .mode) = false) := by
  obtain ⟨ok, s₁, h₁, h⟩ := runs_bind.mp h
  obtain ⟨rfl, rfl⟩ := runs_permission h₁
  obtain ⟨mode, s₂, h₂, h⟩ := runs_bind.mp h
  obtain ⟨rfl, rfl⟩ := runs_descGet.mp h₂
  obtain ⟨-, h⟩ | ⟨hc, h⟩ := runs_ite.mp h
  · obtain ⟨_, s₃, -, h⟩ := runs_bind.mp h
    obtain ⟨_, s₄, -, h⟩ := runs_bind.mp h
    obtain ⟨_, s₅, -, h⟩ := runs_bind.mp h
    cases (runs_pure.mp h).1
  · obtain ⟨_, s₃, -, h⟩ := runs_bind.mp h
    obtain ⟨_, s₄, -, h⟩ := runs_bind.mp h
    obtain ⟨_, s₅, -, h⟩ := runs_bind.mp h
    obtain ⟨hok, hdir⟩ := not_or.mp hc
    refine ⟨(Option.some.inj (runs_pure.mp h).1).symm, by simpa using hok, fun hf => ?_⟩
    exact Bool.eq_false_iff.mpr fun hd => hdir ⟨hd, hf⟩

/-! ## 4. What `sys_open` puts into the table -/

/-- The descriptor's file: the inode found, and the flags as they were given. -/
theorem sysOpen_file {pathname : List UInt8} {flags mode fd : Nat}
    (h : Ends (sysOpen pathname flags mode) s (some fd) t) :
    ∃ r u v x f, Ends (openFind pathname flags mode) s r u ∧ Ends (openFinish flags r) u (some x) v ∧
      (t.tab.task t.tab.running).files fd = some f ∧ (t.tab.fileTable f).inode = some x ∧
      (t.tab.fileTable f).flags = flags := by
  obtain ⟨r, v, hv, h⟩ := runs_bind.mp h
  rw [inodeOpen_eq] at hv
  obtain ⟨q, u, hu, hv⟩ := runs_bind.mp hv
  cases r with
  | none => cases (runs_pure.mp h).1
  | some x =>
    obtain ⟨fd', s₁, -, h⟩ := runs_bind.mp h
    obtain ⟨f, s₂, -, h⟩ := runs_bind.mp h
    obtain ⟨old, s₃, -, h⟩ := runs_bind.mp h
    obtain ⟨_, s₄, -, h⟩ := runs_bind.mp h
    obtain ⟨_, s₅, h₅, h⟩ := runs_bind.mp h
    obtain ⟨imode, s₆, h₆, h⟩ := runs_bind.mp h
    obtain ⟨-, rfl⟩ := runs_descGet.mp h₆
    obtain ⟨size, s₇, h₇, h⟩ := runs_bind.mp h
    obtain ⟨-, rfl⟩ := runs_descGet.mp h₇
    obtain ⟨_, s₈, h₈, h⟩ := runs_bind.mp h
    obtain ⟨e, rfl⟩ := runs_pure.mp h
    obtain rfl := Option.some.inj e
    have h₅ := runs_modify.mp h₅
    have h₈ := runs_modify.mp h₈
    refine ⟨q, u, v, x, f, hu, hv, ?_, ?_, ?_⟩ <;> rw [← h₈, ← h₅] <;> simp [Tables.setFile]

/-! ## 5. The access that was checked -/

/-- **The access a descriptor grants is the access that was checked**: `u` is the state in which the
    inode `x` was found, `file` what the descriptor stands for, `flags` what it was opened with. -/
structure Granted (u : Kernel) (x : Nat) (file : File) (flags : Nat) : Prop where
  write : file.writable = true → u.permits x P_WRITE = true ∧ ISDIR (u.desc x .mode) = false
  read : file.readable = true → u.permits x P_READ = true
  required : flags % 4 = O_WRONLY ∨ flags % 4 = O_RDWR ∨ flags &&& O_TRUNC ≠ 0 →
    file.writable = true

/-- When it is: the flags do not ask to truncate without asking to write; and a path that ends in a
    separator is opened for reading only, by a task that may read the directory. -/
def Sincere (u : Kernel) (x : Nat) (pathname : List UInt8) (flags : Nat) : Prop :=
  (flags &&& O_TRUNC ≠ 0 → flags % 4 ≠ O_RDONLY) ∧
    (trailing pathname = true → flags % 4 = O_RDONLY ∧ u.permits x P_READ = true)

theorem writable_iff {file : File} {flags : Nat} (hf : file.flags = flags) :
    file.writable = true ↔ flags % 4 ≠ O_RDONLY := by
  have h : flags &&& O_ACCMODE = flags % 4 := Nat.and_two_pow_sub_one_eq_mod flags 2
  rw [File.writable, hf, h, bne_iff_ne]

theorem readable_iff {file : File} {flags : Nat} (hf : file.flags = flags) :
    file.readable = true ↔ flags % 4 ≠ O_WRONLY := by
  have h : flags &&& O_ACCMODE = flags % 4 := Nat.and_two_pow_sub_one_eq_mod flags 2
  rw [File.readable, hf, h, bne_iff_ne]

/-- A directory that was not checked. -/
theorem granted_trailing {u : Kernel} {x : Nat} {file : File} {flags : Nat}
    (hf : file.flags = flags) (hdir : ISDIR (u.desc x .mode) = true) :
    Granted u x file flags ↔
      (flags &&& O_TRUNC ≠ 0 → flags % 4 ≠ O_RDONLY) ∧ flags % 4 = O_RDONLY ∧
        u.permits x P_READ = true := by
  constructor
  · intro h
    have h0 : flags % 4 = O_RDONLY := by
      by_contra hne
      have := (h.write ((writable_iff hf).mpr hne)).2
      rw [hdir] at this
      cases this
    refine ⟨fun ht => (writable_iff hf).mp (h.required (.inr (.inr ht))), h0, h.read ?_⟩
    rw [readable_iff hf, h0]
    decide
  · rintro ⟨ht, h0, hr⟩
    refine ⟨fun hw => absurd h0 ((writable_iff hf).mp hw), fun _ => hr, fun hreq => ?_⟩
    rcases hreq with h1 | h2 | h3
    · rw [h0] at h1
      cases h1
    · rw [h0] at h2
      cases h2
    · exact absurd h0 (ht h3)

/-- An inode whose permissions were checked against the adjusted flags. -/
theorem granted_checked {u : Kernel} {x : Nat} {file : File} {flags : Nat}
    (hf : file.flags = flags) (hp : u.permits x (accMode (adjustFlag flags)) = true)
    (hd : adjustFlag flags % 4 ≠ O_RDONLY → ISDIR (u.desc x .mode) = false) :
    Granted u x file flags ↔ (flags &&& O_TRUNC ≠ 0 → flags % 4 ≠ O_RDONLY) := by
  constructor
  · exact fun h ht => (writable_iff hf).mp (h.required (.inr (.inr ht)))
  · intro ht
    have hadj : adjustFlag flags = flags := if_neg fun h => ht h.1 h.2
    rw [hadj] at hp hd
    refine ⟨fun hw => ?_, fun hr => ?_, fun hreq => (writable_iff hf).mpr ?_⟩
    · have h0 := (writable_iff hf).mp hw
      exact ⟨permits_of_subset (accMode_write h0) hp, hd h0⟩
    · exact permits_of_subset (accMode_read ((readable_iff hf).mp hr)) hp
    · rcases hreq with h1 | h2 | h3
      · rw [h1]
        decide
      · rw [h2]
        decide
      · exact ht h3

/-- **A descriptor that `sys_open` returns**: the access it grants is the access that was checked if
    and only if the call was sincere. -/
theorem granted_iff (hroot : s.rooted) {pathname : List UInt8} {flags mode fd : Nat}
    (h : Ends (sysOpen pathname flags mode) s (some fd) t) :
    ∃ x how u f, Ends (openFind pathname flags mode) s (some (x, how)) u ∧
      (t.tab.task t.tab.running).files fd = some f ∧ (t.tab.fileTable f).inode = some x ∧
      (Granted u x (t.tab.fileTable f) flags ↔ Sincere u x pathname flags) := by
  obtain ⟨r, u, v, y, f, hfind, hfin, hfd, hinode, hflags⟩ := sysOpen_file h
  cases r with
  | none => cases (runs_pure.mp hfin).1
  | some r =>
    obtain ⟨x, how⟩ := r
    obtain ⟨htrail, hdir⟩ := openFind_how hroot hfind
    cases how with
    | none =>
      obtain rfl : x = y := Option.some.inj (runs_pure.mp hfin).1
      refine ⟨x, none, u, f, hfind, hfd, hinode, ?_⟩
      rw [granted_trailing hflags (hdir rfl)]
      exact and_congr_right fun _ => ⟨fun h _ => h, fun h => h (htrail.mp rfl)⟩
    | some d =>
      obtain ⟨rfl, hp, hd⟩ := openMakeup_checked hfin
      refine ⟨y, some d, u, f, hfind, hfd, hinode, ?_⟩
      rw [granted_checked hflags hp hd]
      refine ⟨fun h => ⟨h, fun ht => ?_⟩, fun h => h.1⟩
      cases htrail.mpr ht

/-- A file opened for reading and writing. -/
theorem granted_iff_readWrite : ∃ (x f : Nat) (u t : Kernel),
    (t.tab.task t.tab.running).files 3 = some f ∧
      Granted u x (t.tab.fileTable f) (O_CREAT ||| O_RDWR) := by
  have hrun : ∃ a t, Ends (sysOpen Sample.fileA (O_CREAT ||| O_RDWR) 0o644) Sample.fresh a t ∧
      (a == some 3) = true := ends_of_run (q := fun a _ => a == some 3) (by decide +kernel)
  obtain ⟨a, t, h, ha⟩ := hrun
  obtain rfl := beq_iff_eq.mp ha
  have hroot : Sample.fresh.rooted := by
    unfold Kernel.rooted
    decide
  obtain ⟨x, how, u, f, -, hfd, -, hg⟩ := granted_iff hroot h
  exact ⟨x, f, u, t, hfd, hg.mpr ⟨fun _ => by decide, fun ht => absurd ht (by decide)⟩⟩

/-- `sys_creat` asks for truncation, has write permission checked, and returns a descriptor that
    `sys_write` refuses. -/
theorem granted_not_always : ¬ ∀ (s t : Kernel) (pathname : List UInt8) (flags mode fd : Nat),
    s.rooted → Ends (sysOpen pathname flags mode) s (some fd) t →
      ∃ x how u f, Ends (openFind pathname flags mode) s (some (x, how)) u ∧
        (t.tab.task t.tab.running).files fd = some f ∧ Granted u x (t.tab.fileTable f) flags := by
  intro hall
  have hrun : ∃ a t, Ends (sysCreat Sample.fileA 0o644) Sample.fresh a t ∧
      (a == some 3) = true := ends_of_run (q := fun a _ => a == some 3) (by decide +kernel)
  obtain ⟨a, t, h, ha⟩ := hrun
  obtain rfl := beq_iff_eq.mp ha
  have hroot : Sample.fresh.rooted := by
    unfold Kernel.rooted
    decide
  obtain ⟨x, how, u, f, -, hfd, hg⟩ := hall _ _ _ _ _ _ hroot h
  obtain ⟨-, -, -, -, f', -, -, hfd', -, hflags⟩ := sysOpen_file h
  obtain rfl := Option.some.inj (hfd.symm.trans hfd')
  have hw := (writable_iff hflags).mp (hg.required (.inr (.inr (by decide))))
  exact hw (by decide)

end Yuios
