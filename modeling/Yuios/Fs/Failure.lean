/-
  File:      Yuios/Fs/Failure.lean
  Subject:   WHAT A CALL LEAVES BEHIND THAT ANSWERS `EOF`.

  * `sysMkdir_fails`, ... -- every way to `EOF` comes before the first change, but for one:
    `inode_open` creates a file and then checks the access to it.
  * `failed_call` -- when that way is taken, and what it leaves.
-/
import Yuios.Fs.Access
import Yuios.Fs.Creation

namespace Yuios

open Lib Prog Code

variable {s t : Kernel} {C : List Frame → Kernel → Prop}

/-! ## 1. Calls on names -/

theorem never_success : Never false (pure true : Code Bool) := never_pure nofun

theorem never_eof : Never true (pure false : Code Bool) := never_pure nofun

theorem never_rollback (buf : Option Key) (dir : Nat) : Never true (rollback buf dir false) :=
  never_bind fun _ => never_bind fun _ => never_eof

/-- The shape of the calls on one name: `named`, the tests, `find_entry`, and the rest. -/
def onName (pathname : List UInt8)
    (rest : Nat → List UInt8 → Option (Key × Nat × List UInt8) → Code Bool) : Code Bool := do
  match ← named pathname with
  | none => return false
  | some (dir, next) =>
    if next = [] then
      rollback none dir false
    else
      let ok ← permission dir P_WRITE
      if !ok then
        rollback none dir false
      else
        let (dir, r) ← findEntry dir next
        rest dir next r

theorem onName_fails {pathname : List UInt8}
    {rest : Nat → List UInt8 → Option (Key × Nat × List UInt8) → Code Bool}
    (hrest : ∀ dir next r, Answers Unmoved false (rest dir next r)) :
    Answers Unmoved false (onName pathname rest) := by
  refine answers_bind (walks_unmoved.named pathname) fun r => ?_
  cases r with
  | none => exact (obeys_pure _).answers
  | some r =>
    obtain ⟨dir, next⟩ := r
    have hback : Answers Unmoved false (rollback none dir false) :=
      (walks_unmoved.rollback none dir false).answers
    refine answers_ite (fun _ => hback) fun _ => ?_
    refine answers_bind (permission_obeys dir _) fun ok => answers_ite (fun _ => hback) fun _ => ?_
    exact answers_bind (walks_unmoved.findEntry dir next) fun ⟨dir, r⟩ => hrest dir next r

theorem onName_done {pathname : List UInt8}
    {rest : Nat → List UInt8 → Option (Key × Nat × List UInt8) → Code Bool}
    (h : Ends (onName pathname rest) s true t) :
    ∃ dir next u d r v, Ends (named pathname) s (some (dir, next)) u ∧ next ≠ [] ∧
      u.permits dir P_WRITE = true ∧ Ends (findEntry dir next) u (d, r) v ∧
      Ends (rest d next r) v true t := by
  obtain ⟨r, u, h₁, h⟩ := runs_bind.mp h
  cases r with
  | none => cases (runs_pure.mp h).1
  | some r =>
    obtain ⟨dir, next⟩ := r
    obtain ⟨-, h⟩ | ⟨hn, h⟩ := runs_ite.mp h
    · exact absurd h (never_rollback _ _ _ _)
    · obtain ⟨ok, u', h₂, h⟩ := runs_bind.mp h
      obtain ⟨rfl, rfl⟩ := runs_permission h₂
      obtain ⟨-, h⟩ | ⟨hp, h⟩ := runs_ite.mp h
      · exact absurd h (never_rollback _ _ _ _)
      · obtain ⟨⟨d, r⟩, v, h₃, h⟩ := runs_bind.mp h
        exact ⟨dir, next, u, d, r, v, h₁, hn, by simpa using hp, h₃, h⟩

/-- The entry of a name that must not exist yet. -/
theorem sysMkdir_eq (pathname : List UInt8) (mode : Nat) : sysMkdir pathname mode =
    onName pathname fun dir next r =>
      match r with
      | some (ebuf, _) => rollback (some ebuf) dir false
      | none => do
        mkdirIn dir next mode
        return true := rfl

theorem sysMknod_eq (filename : List UInt8) (mode dev : Nat) : sysMknod filename mode dev =
    onName filename fun dir next r =>
      match r with
      | some (buf, _) => rollback (some buf) dir false
      | none => do
        let (buf, inode) ← mknodIn dir next mode dev
        brelse buf
        iput inode
        iput dir
        return true := rfl

/-- `sys_rmdir` past `find_entry`. -/
def rmdirEntry (dir : Nat) (ebuf : Key) (entry : Nat) : Code Bool := do
  let d ← inodeAt dir
  let nr ← dentryNr ebuf entry
  let inode ← iget d.dev nr
  let mode ← descGet inode .mode
  let task ← runningTask
  let dmode ← descGet dir .mode
  let uid ← descGet inode .uid
  let d ← inodeAt dir
  let ino ← inodeAt inode
  if inode = dir ∨ !ISDIR mode ∨ (dmode &&& ISVTX ≠ 0 ∧ task.uid ≠ uid) ∨
      d.dev ≠ ino.dev ∨ ino.count > 1 then
    iput inode
    iput dir
    brelse ebuf
    return false
  else
    let empty ← isEmpty inode
    if !empty then
      iput inode
      iput dir
      brelse ebuf
      return false
    else
      rmdirIn dir inode ebuf entry
      iput inode
      iput dir
      brelse ebuf
      return true

theorem sysRmdir_eq (pathname : List UInt8) : sysRmdir pathname =
    onName pathname fun dir _ r =>
      match r with
      | none => rollback none dir false
      | some (ebuf, entry, _) => rmdirEntry dir ebuf entry := rfl

/-- `sys_unlink` past `find_entry`. -/
def unlinkEntry (dir : Nat) (buf : Key) (entry : Nat) : Code Bool := do
  let d ← inodeAt dir
  let nr ← dentryNr buf entry
  let inode ← iget d.dev nr
  let mode ← descGet inode .mode
  let task ← runningTask
  let uid ← descGet inode .uid
  if ISDIR mode ∨ (mode &&& ISVTX ≠ 0 ∧ task.uid ≠ uid) then
    brelse buf
    iput inode
    iput dir
    return false
  else
    unlinkIn inode buf entry
    brelse buf
    iput inode
    iput dir
    return true

theorem sysUnlink_eq (filename : List UInt8) : sysUnlink filename =
    onName filename fun dir _ r =>
      match r with
      | none => rollback none dir false
      | some (buf, entry, _) => unlinkEntry dir buf entry := rfl

theorem sysMkdir_fails (pathname : List UInt8) (mode : Nat) :
    Answers Unmoved false (sysMkdir pathname mode) := by
  rw [sysMkdir_eq]
  refine onName_fails fun dir next r => ?_
  cases r with
  | some e => exact (walks_unmoved.rollback _ _ _).answers
  | none => exact Never.answers <| never_bind fun _ => never_success

theorem sysMknod_fails (filename : List UInt8) (mode dev : Nat) :
    Answers Unmoved false (sysMknod filename mode dev) := by
  rw [sysMknod_eq]
  refine onName_fails fun dir next r => ?_
  cases r with
  | some e => exact (walks_unmoved.rollback _ _ _).answers
  | none =>
    exact Never.answers <| never_bind fun _ => never_bind fun _ => never_bind fun _ =>
      never_bind fun _ => never_success

theorem sysRmdir_fails (pathname : List UInt8) : Answers Unmoved false (sysRmdir pathname) := by
  rw [sysRmdir_eq]
  refine onName_fails fun dir next r => ?_
  cases r with
  | none => exact (walks_unmoved.rollback _ _ _).answers
  | some e =>
    obtain ⟨ebuf, entry, _⟩ := e
    have hlast : ∀ inode, Answers Unmoved false (do
        iput inode
        iput dir
        brelse ebuf
        return false) := fun inode =>
      Obeys.answers <| obeys_bind (walks_unmoved.iput _) fun _ =>
        obeys_bind (walks_unmoved.iput _) fun _ =>
          obeys_bind (walks_unmoved.brelse _) fun _ => obeys_pure _
    refine answers_bind (inodeAt_obeys dir) fun _ => answers_bind (dentryNr_obeys _ _) fun nr =>
      answers_bind (walks_unmoved.iget _ nr) fun inode => answers_bind (descGet_obeys _ _) fun _ =>
        answers_bind runningTask_obeys fun _ => answers_bind (descGet_obeys _ _) fun _ =>
          answers_bind (descGet_obeys _ _) fun _ => answers_bind (inodeAt_obeys _) fun _ =>
            answers_bind (inodeAt_obeys _) fun _ => answers_ite (fun _ => hlast _) fun _ => ?_
    refine answers_bind (walks_unmoved.isEmpty _) fun empty => answers_ite (fun _ => hlast _) fun _ => ?_
    exact Never.answers <| never_bind fun _ => never_bind fun _ => never_bind fun _ =>
      never_bind fun _ => never_success

theorem sysUnlink_fails (filename : List UInt8) : Answers Unmoved false (sysUnlink filename) := by
  rw [sysUnlink_eq]
  refine onName_fails fun dir next r => ?_
  cases r with
  | none => exact (walks_unmoved.rollback _ _ _).answers
  | some e =>
    obtain ⟨buf, entry, _⟩ := e
    refine answers_bind (inodeAt_obeys dir) fun _ => answers_bind (dentryNr_obeys _ _) fun nr =>
      answers_bind (walks_unmoved.iget _ nr) fun inode => answers_bind (descGet_obeys _ _) fun _ =>
        answers_bind runningTask_obeys fun _ => answers_bind (descGet_obeys _ _) fun _ =>
          answers_ite (fun _ => ?_) fun _ => ?_
    · exact answers_bind (walks_unmoved.brelse _) fun _ =>
        answers_bind (walks_unmoved.iput _) fun _ =>
          answers_bind (walks_unmoved.iput _) fun _ => (obeys_pure _).answers
    · exact Never.answers <| never_bind fun _ => never_bind fun _ => never_bind fun _ =>
        never_bind fun _ => never_success

theorem sysLink_fails (oldname newname : List UInt8) :
    Answers Unmoved false (sysLink oldname newname) := by
  have hback : ∀ dir, Answers Unmoved false (rollback none dir false) :=
    fun dir => (walks_unmoved.rollback none dir false).answers
  refine answers_bind (walks_unmoved.namei oldname) fun r => ?_
  cases r with
  | none => exact (obeys_pure _).answers
  | some inode =>
    refine answers_bind (descGet_obeys _ _) fun _ => answers_ite (fun _ => hback _) fun _ => ?_
    refine answers_bind (walks_unmoved.named newname) fun r => ?_
    cases r with
    | none => exact hback _
    | some r =>
      obtain ⟨dir, next⟩ := r
      refine answers_bind (inodeAt_obeys _) fun _ => answers_bind (inodeAt_obeys _) fun _ =>
        answers_ite (fun _ => answers_bind (walks_unmoved.iput _) fun _ => hback _) fun _ => ?_
      refine answers_bind (permission_obeys dir _) fun ok =>
        answers_ite (fun _ => answers_bind (walks_unmoved.iput _) fun _ => hback _) fun _ => ?_
      refine answers_bind (walks_unmoved.findEntry dir next) fun ⟨dir, r⟩ => ?_
      cases r with
      | some e =>
        exact answers_bind (walks_unmoved.brelse _) fun _ =>
          answers_bind (walks_unmoved.iput _) fun _ =>
            answers_bind (walks_unmoved.iput _) fun _ => (obeys_pure _).answers
      | none =>
        exact Never.answers <| never_bind fun _ => never_bind fun _ => never_bind fun _ => never_bind fun _ =>
          never_success

/-! ## 2. Opening -/

/-- The path names nothing yet, and its directory `dir` may be written; `u` is the state after the
    lookup. -/
structure Vacant (s : Kernel) (pathname : List UInt8) (dir : Nat) (next : List UInt8)
    (u : Kernel) : Prop where
  looked : ∃ d v, Ends (named pathname) s (some (d, next)) v ∧ Ends (findEntry d next) v (dir, none) u
  name : next ≠ []
  writable : u.permits dir P_WRITE = true

/-- The mode `inode_open` gives a new file. -/
def Task.newMode (task : Task) (mode : Nat) : Nat :=
  (mode &&& (0o777 &&& (0o777 ^^^ (task.umask &&& 0o777)))) ||| IFREG

/-- `permission` on a file the task has just created, whose descriptor has 16 bits for the user
    and 8 for the group. -/
def Task.mayUseNew (task : Task) (mode mask : Nat) : Bool :=
  let m := task.newMode mode
  let m := if task.uid = task.uid % 65536 then m >>> 6 else if task.gid = task.gid % 256 then m >>> 3 else m
  task.uid == 0 || m &&& mask &&& 7 == mask

/-- The call creates the file, and the mode it gives it denies the access it asks for. -/
def Kernel.refusesNew (s : Kernel) (pathname : List UInt8) (flags mode : Nat) : Prop :=
  (∃ dir next u, Vacant s pathname dir next u) ∧ flags &&& O_CREAT ≠ 0 ∧
    (s.tab.task s.tab.running).mayUseNew mode (accMode (adjustFlag flags)) = false

theorem adjustFlag_creat (flag : Nat) : adjustFlag flag &&& O_CREAT = flag &&& O_CREAT := by
  unfold adjustFlag
  split
  · rw [Nat.and_or_distrib_right]
    exact Nat.or_zero _
  · rfl

theorem Vacant.unmoved {pathname : List UInt8} {dir : Nat} {next : List UInt8} {u : Kernel}
    (h : Vacant s pathname dir next u) : Unmoved s u := by
  obtain ⟨d, v, h₁, h₂⟩ := h.looked
  exact Steady.trans (walks_unmoved.named _ _ _ _ h₁) (walks_unmoved.findEntry _ _ _ _ _ h₂)

/-- There is one lookup. -/
theorem Vacant.unique {pathname : List UInt8} {dir dir' d : Nat} {next next' : List UInt8}
    {u v w : Kernel} {r : Option (Key × Nat × List UInt8)} (h : Vacant s pathname dir next u)
    (h₁ : Ends (named pathname) s (some (d, next')) v) (h₂ : Ends (findEntry d next') v (dir', r) w) :
    next = next' ∧ dir = dir' ∧ r = none ∧ u = w := by
  obtain ⟨d₀, v₀, h₃, h₄⟩ := h.looked
  obtain ⟨e, rfl⟩ := ends_unique h₃ h₁
  obtain ⟨rfl, rfl⟩ := Prod.mk.inj (Option.some.inj e)
  obtain ⟨e, rfl⟩ := ends_unique h₄ h₂
  obtain ⟨rfl, rfl⟩ := Prod.mk.inj e
  exact ⟨rfl, rfl, rfl, rfl⟩

/-- **`inode_open` up to `makeup`**: nothing has changed, or the file has been created. -/
theorem openFind_cases {pathname : List UInt8} {flag mode : Nat}
    {r : Option (Nat × Option (Nat × Key))} (h : Runs C (openFind pathname flag mode) s r t) :
    (Unmoved s t ∧ ¬ ((∃ dir next u, Vacant s pathname dir next u) ∧ flag &&& O_CREAT ≠ 0)) ∨
    ∃ dir next u buf x, Vacant s pathname dir next u ∧ flag &&& O_CREAT ≠ 0 ∧
      Runs C (openCreate dir next mode) u (buf, x) t ∧ r = some (x, some (dir, buf)) := by
  obtain ⟨q, v, h₁, h⟩ := runs_bind.mp h
  have hm₁ := walks_unmoved.named _ _ _ _ h₁.ends
  cases q with
  | none =>
    obtain ⟨-, rfl⟩ := runs_pure.mp h
    refine .inl ⟨hm₁, fun ⟨⟨dir, next, u, hv⟩, _⟩ => ?_⟩
    obtain ⟨d, w, h₂, -⟩ := hv.looked
    cases (ends_unique h₁.ends h₂).1
  | some q =>
    obtain ⟨d, next⟩ := q
    obtain ⟨hn, h⟩ | ⟨hn, h⟩ := runs_ite.mp h
    · obtain ⟨-, rfl⟩ := runs_pure.mp h
      refine .inl ⟨hm₁, fun ⟨⟨dir, next', u, hv⟩, _⟩ => ?_⟩
      obtain ⟨d', w, h₂, -⟩ := hv.looked
      obtain ⟨-, rfl⟩ := Prod.mk.inj (Option.some.inj (ends_unique h₁.ends h₂).1)
      exact hv.name hn
    · obtain ⟨⟨dir, q⟩, u, h₂, h⟩ := runs_bind.mp h
      have hm₂ : Unmoved s u := Steady.trans hm₁ (walks_unmoved.findEntry _ _ _ _ _ h₂.ends)
      cases q with
      | some q =>
        obtain ⟨buf, entry, rest⟩ := q
        refine .inl ⟨Steady.trans hm₂ ?_, fun ⟨⟨_, _, _, hv⟩, _⟩ => ?_⟩
        · exact (obeys_bind (inodeAt_obeys dir) fun _ => obeys_bind (dentryNr_obeys _ _) fun _ =>
            obeys_bind (walks_unmoved.iget _ _) fun _ => obeys_pure _) _ _ _ h.ends
        · cases (hv.unique h₁.ends h₂.ends).2.2.1
      | none =>
        have hback : ∀ {u' r}, Runs C (rollback none dir none :
            Code (Option (Nat × Option (Nat × Key)))) u' r t → Unmoved u' t :=
          fun h => walks_unmoved.rollback none dir none _ _ _ h.ends
        obtain ⟨hc, h⟩ | ⟨hc, h⟩ := runs_ite.mp h
        · exact .inl ⟨Steady.trans hm₂ (hback h), fun hall =>
            hall.2 ((adjustFlag_creat flag).symm.trans hc)⟩
        · rw [adjustFlag_creat] at hc
          obtain ⟨ok, v', h₃, h⟩ := runs_bind.mp h
          obtain ⟨rfl, rfl⟩ := runs_permission h₃
          obtain ⟨hp, h⟩ | ⟨hp, h⟩ := runs_ite.mp h
          · refine .inl ⟨Steady.trans hm₂ (hback h), fun ⟨⟨_, _, _, hv⟩, _⟩ => ?_⟩
            obtain ⟨-, rfl, -, rfl⟩ := hv.unique h₁.ends h₂.ends
            rw [hv.writable] at hp
            cases hp
          · obtain ⟨⟨buf, x⟩, w, h₄, h⟩ := runs_bind.mp h
            obtain ⟨rfl, rfl⟩ := runs_pure.mp h
            exact .inr ⟨dir, next, u, buf, x, ⟨⟨d, v, h₁.ends, h₂.ends⟩, hn, by simpa using hp⟩, hc, h₄, rfl⟩

/-! ## 3. The file just created -/

/-- A field of the descriptor is written, and those beside it are not. -/
theorem descSet_fields {x v : Nat} {f : Field} {u : Unit} (h : Ends (descSet x f v) s u t) :
    t.tab = s.tab ∧ t.desc x f = v % 256 ^ f.width ∧
      ∀ g : Field, g.off + g.width ≤ f.off ∨ f.off + f.width ≤ g.off → t.desc x g = s.desc x g := by
  rw [Ends, runs_descSet] at h
  subst h
  refine ⟨rfl, ?_, fun g hg => ?_⟩
  · show fetch ((s.poke _ _).view (s.tab.inodeTable x).buf) _ _ = _
    rw [Kernel.view_poke_self]
    exact fetch_store_self ..
  · show fetch ((s.poke _ _).view (s.tab.inodeTable x).buf) ((s.tab.inodeTable x).desc + g.off) _ = _
    rw [Kernel.view_poke_self]
    exact fetch_store_ne (by omega)

/-- What `permission` reads in the descriptor of a new inode. -/
structure Fresh (task : Task) (x : Nat) (s : Kernel) : Prop where
  uid : s.desc x .uid = task.uid % 65536
  gid : s.desc x .gid = task.gid % 256
  nlinks : s.desc x .nlinks = 1

theorem newInode_fresh {dev : Int} {nr x : Nat} (h : Ends (newInode dev nr) s x t) :
    Fresh (s.tab.task s.tab.running) x t ∧ SameTask s t := by
  obtain ⟨task, s₁, h₁, h⟩ := runs_bind.mp h
  obtain ⟨rfl, rfl⟩ := runs_runningTask.mp h₁
  obtain ⟨y, s₂, h₂, h⟩ := runs_bind.mp h
  have hm := (walks_unmoved.iget _ _ _ _ _ h₂).toSameTask
  obtain ⟨_, s₃, h₃, h⟩ := runs_bind.mp h
  have ht₃ := (inodeDirty_same _ _ _ _ h₃).tab
  obtain ⟨_, s₄, h₄, h⟩ := runs_bind.mp h
  obtain ⟨ht₄, -, -⟩ := descSet_fields h₄
  obtain ⟨_, s₅, h₅, h⟩ := runs_bind.mp h
  obtain ⟨ht₅, hu₅, -⟩ := descSet_fields h₅
  obtain ⟨_, s₆, h₆, h⟩ := runs_bind.mp h
  obtain ⟨ht₆, -, hk₆⟩ := descSet_fields h₆
  obtain ⟨now, s₇, h₇, h⟩ := runs_bind.mp h
  obtain ⟨-, h₇⟩ := runs_time.mp h₇
  have hk₇ : ∀ g, s₇.desc y g = s₆.desc y g := fun g => by rw [← h₇]; rfl
  have ht₇ : s₇.tab = s₆.tab := by rw [← h₇]
  obtain ⟨_, s₈, h₈, h⟩ := runs_bind.mp h
  obtain ⟨ht₈, -, hk₈⟩ := descSet_fields h₈
  obtain ⟨_, s₉, h₉, h⟩ := runs_bind.mp h
  obtain ⟨ht₉, hg₉, hk₉⟩ := descSet_fields h₉
  obtain ⟨_, s₁₀, h₁₀, h⟩ := runs_bind.mp h
  obtain ⟨ht₁₀, hn₁₀, hk₁₀⟩ := descSet_fields h₁₀
  obtain ⟨rfl, rfl⟩ := runs_pure.mp h
  have htab : s₁₀.tab = s₂.tab := by
    rw [ht₁₀, ht₉, ht₈, ht₇, ht₆, ht₅, ht₄, ht₃]
  refine ⟨⟨?_, ?_, hn₁₀⟩, ⟨by rw [htab, hm.task], by rw [htab, hm.running]⟩⟩
  · rw [hk₁₀ _ (by decide), hk₉ _ (by decide), hk₈ _ (by decide), hk₇, hk₆ _ (by decide)]
    exact hu₅
  · rw [hk₁₀ _ (by decide)]
    exact hg₉

theorem addEntry_sameTask (dir : Nat) (name : List UInt8) : Obeys SameTask (addEntry dir name) := by
  refine obeys_bind ?_ fun ⟨dir, r⟩ => ?_
  · exact fun s a t h => (walks_unmoved.findEntry dir name s a t h).toSameTask
  · cases r with
    | some e => exact obeys_pure _
    | none => exact obeys_bind (obeys_check _ _) fun _ => sameTask_of_still (addEntryLoop_still _ _ _ _ _ _)

/-- `inode_open` has created a file: it is the task's, and the mode is the one asked for. -/
theorem openCreate_fresh {dir mode x : Nat} {name : List UInt8} {buf : Key}
    (h : Ends (openCreate dir name mode) s (buf, x) t) :
    Fresh (s.tab.task s.tab.running) x t ∧ SameTask s t ∧
      t.desc x .mode = (s.tab.task s.tab.running).newMode mode := by
  obtain ⟨⟨k, entry⟩, s₁, h₁, h⟩ := runs_bind.mp h
  have hm₁ := addEntry_sameTask dir name _ _ _ h₁
  obtain ⟨nr, s₂, h₂, h⟩ := runs_bind.mp h
  have hm₂ : SameTask s s₂ :=
    Steady.trans hm₁ (sameTask_of_still (nameNewInode_still dir k entry) _ _ _ h₂)
  obtain ⟨d, s₃, ⟨rfl, rfl⟩, h⟩ := runs_bind.mp h
  obtain ⟨y, s₄, h₄, h⟩ := runs_bind.mp h
  obtain ⟨hf, hm₄⟩ := newInode_fresh h₄
  obtain ⟨task, s₅, h₅, h⟩ := runs_bind.mp h
  obtain ⟨rfl, rfl⟩ := runs_runningTask.mp h₅
  obtain ⟨_, s₆, h₆, h⟩ := runs_bind.mp h
  obtain ⟨ht₆, hmode, hk⟩ := descSet_fields h₆
  obtain ⟨e, rfl⟩ := runs_pure.mp h
  obtain ⟨rfl, rfl⟩ := Prod.mk.inj e
  have hm : SameTask s s₄ := Steady.trans hm₂ hm₄
  rw [hm₂.task, hm₂.running] at hf
  rw [hm.task, hm.running] at hmode
  refine ⟨⟨(hk _ (by decide)).trans hf.uid, (hk _ (by decide)).trans hf.gid,
    (hk _ (by decide)).trans hf.nlinks⟩, ⟨ht₆ ▸ hm.task, ht₆ ▸ hm.running⟩, hmode.trans ?_⟩
  refine Nat.mod_eq_of_lt (Nat.or_lt_two_pow (n := 16) ?_ (by decide))
  exact Nat.lt_of_le_of_lt (Nat.le_trans Nat.and_le_right Nat.and_le_left) (by decide)

theorem newMode_not_dir (task : Task) (mode : Nat) : ISDIR (task.newMode mode) = false := by
  have h : task.newMode mode &&& IFMT = IFREG := by
    unfold Task.newMode
    rw [Nat.and_or_distrib_right]
    have h0 : (mode &&& (0o777 &&& (0o777 ^^^ (task.umask &&& 0o777)))) &&& IFMT = 0 := by
      rw [Nat.and_assoc, Nat.and_comm 0o777, Nat.and_assoc]
      show mode &&& (_ &&& 0) = 0
      rw [Nat.and_zero, Nat.and_zero]
    rw [h0, Nat.zero_or]
    rfl
  unfold ISDIR
  rw [h]
  rfl

theorem Fresh.permits {task : Task} {x mode : Nat} (h : Fresh task x s)
    (ht : s.tab.task s.tab.running = task) (hm : s.desc x .mode = task.newMode mode) (mask : Nat) :
    s.permits x mask = task.mayUseNew mode mask := by
  unfold Kernel.permits Kernel.modeFor Task.mayUseNew
  rw [h.nlinks, h.uid, h.gid, hm, ht]
  by_cases hu : task.uid = 0 <;> simp [hu]

/-! ## 4. The calls that fail -/

/-- `makeup` refuses: what has been done is not undone. -/
theorem openMakeup_refuses {dir x flag : Nat} {buf : Key}
    (h : Ends (openMakeup dir buf x flag) s none t) :
    Unmoved s t ∧ (s.permits x (accMode flag) = false ∨ ISDIR (s.desc x .mode) = true) := by
  obtain ⟨ok, s₁, h₁, h⟩ := runs_bind.mp h
  obtain ⟨rfl, rfl⟩ := runs_permission h₁
  obtain ⟨mode, s₂, h₂, h⟩ := runs_bind.mp h
  obtain ⟨rfl, rfl⟩ := runs_descGet.mp h₂
  obtain ⟨hc, h⟩ | ⟨-, h⟩ := runs_ite.mp h
  · refine ⟨?_, hc.imp (by simp) And.left⟩
    exact (obeys_bind (walks_unmoved.brelse buf) fun _ => obeys_bind (walks_unmoved.iput dir) fun _ =>
      obeys_bind (walks_unmoved.iput x) fun _ => obeys_pure _) _ _ _ h
  · obtain ⟨_, s₃, -, h⟩ := runs_bind.mp h
    obtain ⟨_, s₄, -, h⟩ := runs_bind.mp h
    obtain ⟨_, s₅, -, h⟩ := runs_bind.mp h
    cases (runs_pure.mp h).1

/-- The file was created and is left behind: but for it, nothing has changed. -/
def LeftBehind (C : List Frame → Kernel → Prop) (s : Kernel) (pathname : List UInt8) (mode : Nat)
    (t : Kernel) : Prop :=
  ∃ dir next u v buf x, Vacant s pathname dir next u ∧
    Runs C (openCreate dir next mode) u (buf, x) v ∧ t.view = v.view

theorem inodeOpen_fails {pathname : List UInt8} {flag mode : Nat}
    (h : Runs C (inodeOpen pathname flag mode) s none t) :
    (¬ s.refusesNew pathname flag mode ∧ t.view = s.view) ∨
      (s.refusesNew pathname flag mode ∧ LeftBehind C s pathname mode t) := by
  rw [inodeOpen_eq] at h
  obtain ⟨r, u, h₁, h⟩ := runs_bind.mp h
  obtain ⟨hm, hno⟩ | ⟨dir, next, v, buf, x, hv, hc, hcreate, rfl⟩ := openFind_cases h₁
  · refine .inl ⟨fun hr => hno ⟨hr.1, hr.2.1⟩, ?_⟩
    match r with
    | none =>
      obtain ⟨-, rfl⟩ := runs_pure.mp h
      exact hm.view
    | some (x, none) => cases (runs_pure.mp h).1
    | some (x, some (dir, buf)) => exact (openMakeup_refuses h.ends).1.view.trans hm.view
  · obtain ⟨hf, hst, hmode⟩ := openCreate_fresh hcreate.ends
    obtain ⟨hend, href⟩ := openMakeup_refuses h.ends
    have htask : u.tab.task u.tab.running = s.tab.task s.tab.running := by
      rw [hst.task, hst.running, hv.unmoved.task, hv.unmoved.running]
    have hrun : v.tab.task v.tab.running = s.tab.task s.tab.running := by
      rw [hv.unmoved.task, hv.unmoved.running]
    rw [hrun] at hf hmode
    refine .inr ⟨⟨⟨dir, next, v, hv⟩, hc, ?_⟩, dir, next, v, u, buf, x, hv, hcreate, hend.view⟩
    obtain href | hdir := href
    · exact (hf.permits htask hmode _).symm.trans href
    · rw [hmode, newMode_not_dir] at hdir
      cases hdir

theorem sysOpen_fails {filename : List UInt8} {flags mode : Nat}
    (h : Runs C (sysOpen filename flags mode) s none t) :
    (¬ s.refusesNew filename flags mode ∧ t.view = s.view) ∨
      (s.refusesNew filename flags mode ∧ LeftBehind C s filename mode t) := by
  obtain ⟨r, u, h₁, h⟩ := runs_bind.mp h
  cases r with
  | none =>
    obtain ⟨-, rfl⟩ := runs_pure.mp h
    exact inodeOpen_fails h₁
  | some x =>
    have hnever : Never none (do
        let fd ← taskGetFd
        let f ← getFile
        let old ← fileOf fd
        assert old.isNone
        onTask fun t => { t with files := Function.update t.files fd (some f) }
        let imode ← descGet x .mode
        let size ← descGet x .size
        onFile f fun _ =>
          { inode := some x, flags := flags, count := 1, mode := imode
            offset := if flags &&& O_APPEND ≠ 0 then size else 0 }
        return some fd) :=
      never_bind fun _ => never_bind fun _ => never_bind fun _ => never_bind fun _ =>
        never_bind fun _ => never_bind fun _ => never_bind fun _ => never_bind fun _ =>
          never_pure nofun
    exact absurd h.ends (hnever _ _)

/-- The directory of a name that does not exist is one of a consistent volume, and not a root to
    be left by `..`. -/
def SoundAt (s : Kernel) (pathname : List UInt8) : Prop :=
  ∀ dir next u, Vacant s pathname dir next u →
    ∃ (v : Volume) (nr : Nat), v.Ready dir nr u ∧ v.Shelved u.tab ∧
      ¬ ((matchName (ofString DOTDOT) 0 next).isSome ∧ (u.tab.inodeTable dir).nr = 1)

/-- A file left behind on a consistent volume shows: its inode is taken. -/
theorem LeftBehind.shows {pathname : List UInt8} {mode : Nat}
    (h : LeftBehind Volume.Supplied s pathname mode t) (hs : SoundAt s pathname) : t.view ≠ s.view := by
  obtain ⟨dir, next, u, w, buf, x, hv, hcreate, hend⟩ := h
  obtain ⟨v, nr, hready, hshelved, hno⟩ := hs _ _ _ hv
  obtain ⟨d, w', -, hfind⟩ := hv.looked
  obtain ⟨m, -, hclear, hset⟩ :=
    Volume.openCreate_takes hready hshelved (findEntry_answer hfind).symm hno hcreate
  intro e
  rw [← hend, e, ← hv.unmoved.view, hclear] at hset
  cases hset

/-- A call on a name. -/
inductive NameCall where
  | mkdir (pathname : List UInt8) (mode : Nat)
  | rmdir (pathname : List UInt8)
  | link (oldname newname : List UInt8)
  | unlink (filename : List UInt8)
  | mknod (filename : List UInt8) (mode dev : Nat)
  | sysOpen (filename : List UInt8) (flags mode : Nat)
  | creat (filename : List UInt8) (mode : Nat)

/-- The call, and whether it answers `EOF`. -/
def NameCall.eof : NameCall → Code Bool
  | .mkdir pathname mode => do
    let ok ← sysMkdir pathname mode
    return !ok
  | .rmdir pathname => do
    let ok ← sysRmdir pathname
    return !ok
  | .link oldname newname => do
    let ok ← sysLink oldname newname
    return !ok
  | .unlink filename => do
    let ok ← sysUnlink filename
    return !ok
  | .mknod filename mode dev => do
    let ok ← sysMknod filename mode dev
    return !ok
  | .sysOpen filename flags mode => do
    let fd ← Yuios.sysOpen filename flags mode
    return fd.isNone
  | .creat filename mode => do
    let fd ← sysCreat filename mode
    return fd.isNone

/-- The call opens a name that does not exist, creates it, and is then refused the access. -/
def NameCall.RefusesNew : NameCall → Kernel → Prop
  | .sysOpen filename flags mode, s => s.refusesNew filename flags mode
  | .creat filename mode, s => s.refusesNew filename (O_CREAT ||| O_TRUNC) mode
  | _, _ => False

/-- What such a call leaves. -/
def NameCall.Leaves (C : List Frame → Kernel → Prop) : NameCall → Kernel → Kernel → Prop
  | .sysOpen filename _ mode, s, t => LeftBehind C s filename mode t
  | .creat filename mode, s, t => LeftBehind C s filename mode t
  | _, _, _ => False

/-- The call would create its file on a consistent volume. -/
def NameCall.Sound : NameCall → Kernel → Prop
  | .sysOpen filename _ _, s => SoundAt s filename
  | .creat filename _, s => SoundAt s filename
  | _, _ => True

theorem nameCall_fails {c : NameCall} (h : Runs C c.eof s true t) :
    (¬ c.RefusesNew s ∧ t.view = s.view) ∨ (c.RefusesNew s ∧ c.Leaves C s t) := by
  have hbool : ∀ {p : Code Bool}, Answers Unmoved false p → Runs C (do
      let ok ← p
      return !ok) s true t → t.view = s.view := by
    intro p hp h
    obtain ⟨ok, u, h₁, h⟩ := runs_bind.mp h
    obtain ⟨hok, rfl⟩ := runs_pure.mp h
    obtain rfl : ok = false := by simpa using hok
    exact (hp _ _ h₁.ends).view
  cases c with
  | mkdir pathname mode => exact .inl ⟨id, hbool (sysMkdir_fails pathname mode) h⟩
  | rmdir pathname => exact .inl ⟨id, hbool (sysRmdir_fails pathname) h⟩
  | link oldname newname => exact .inl ⟨id, hbool (sysLink_fails oldname newname) h⟩
  | unlink filename => exact .inl ⟨id, hbool (sysUnlink_fails filename) h⟩
  | mknod filename mode dev => exact .inl ⟨id, hbool (sysMknod_fails filename mode dev) h⟩
  | sysOpen filename flags mode =>
    obtain ⟨fd, u, h₁, h⟩ := runs_bind.mp h
    obtain ⟨hfd, rfl⟩ := runs_pure.mp h
    obtain rfl : fd = none := by simpa using hfd
    exact sysOpen_fails h₁
  | creat filename mode =>
    obtain ⟨fd, u, h₁, h⟩ := runs_bind.mp h
    obtain ⟨hfd, rfl⟩ := runs_pure.mp h
    obtain rfl : fd = none := by simpa using hfd
    exact sysOpen_fails h₁

theorem Leaves.shows {c : NameCall} (h : c.Leaves Volume.Supplied s t) (hs : c.Sound s) :
    t.view ≠ s.view := by
  cases c with
  | sysOpen filename flags mode => exact LeftBehind.shows h hs
  | creat filename mode => exact LeftBehind.shows h hs
  | _ => exact h.elim

/-- **A call that answers `EOF` has changed nothing**, unless it created a file and was refused the
    access to it; then that file is all it leaves, and on a consistent volume it shows. -/
theorem failed_call {c : NameCall} (h : Ends c.eof s true t) :
    (¬ c.RefusesNew s → t.view = s.view) ∧ (c.RefusesNew s → c.Leaves (fun _ _ => True) s t) ∧
      (Runs Volume.Supplied c.eof s true t → c.Sound s → (t.view = s.view ↔ ¬ c.RefusesNew s)) := by
  have hcases := nameCall_fails h
  refine ⟨fun hn => ?_, fun hr => ?_, fun hrun hs => ⟨fun hsame hr => ?_, fun hn => ?_⟩⟩
  · exact (hcases.resolve_right fun hr => hn hr.1).2
  · exact (hcases.resolve_left fun hn => hn.1 hr).2
  · obtain ⟨hn, -⟩ | ⟨-, hl⟩ := nameCall_fails hrun
    · exact hn hr
    · exact Leaves.shows hl hs hsame
  · exact (hcases.resolve_right fun hr => hn hr.1).2

/-- The name does not exist. -/
theorem failed_call_missing : ∃ t, Ends (NameCall.unlink Sample.fileA).eof Sample.fresh true t ∧
    t.view = Sample.fresh.view := by
  have hrun : ∃ a t, Ends (NameCall.unlink Sample.fileA).eof Sample.fresh a t ∧ a = true :=
    ends_of_run (q := fun a _ => a) (by decide)
  obtain ⟨a, t, h, rfl⟩ := hrun
  exact ⟨t, h, (failed_call h).1 id⟩

/-- The volume for a task that is not the kernel's, with a root directory everyone may write. -/
def Sample.guest : Kernel :=
  { fresh with
    cache := { fresh.cache with
      disk := fun k =>
        if k = ⟨dev, 4⟩ then descriptor 0 (IFDIR + 0o777) 32 2 5 fun _ => 0 else disk (fun _ _ => 0) k }
    tab := { fresh.tab with task := fun _ => ⟨1, 1, 0, 0, 0, fun _ => none⟩ } }

/-- A new file without permissions for its owner: the call answers `EOF`, and an inode is taken. -/
theorem failed_call_not_always : ¬ ∀ (c : NameCall) (s t : Kernel), Ends c.eof s true t →
    t.view = s.view := by
  intro hall
  have hrun : ∃ a t, Ends (NameCall.sysOpen Sample.fileA (O_CREAT ||| O_RDWR) 0).eof Sample.guest a t ∧
      (a && t.view ⟨Sample.dev, 2⟩ 0 != Sample.guest.view ⟨Sample.dev, 2⟩ 0) = true :=
    ends_of_run (q := fun (a : Bool) (t : Kernel) =>
      a && t.view ⟨Sample.dev, 2⟩ 0 != Sample.guest.view ⟨Sample.dev, 2⟩ 0) (by decide +kernel)
  obtain ⟨a, t, h, ha⟩ := hrun
  obtain ⟨rfl, ha⟩ := (Bool.and_eq_true _ _).mp ha
  rw [hall _ _ _ h] at ha
  exact absurd ha (by decide)

end Yuios
