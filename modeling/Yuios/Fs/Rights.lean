/-
  File:      Yuios/Fs/Rights.lean
  Subject:   WHAT A CALL ON A NAME WAS ALLOWED: the permissions of the task for every directory the
             lookup searches, for the directory that is changed, and for the inode that is removed.

  * `namedMay`, `target` -- the lookups once more, with the permissions noted. They change nothing
    (`named_may`, `target_may`), so a call that has succeeded has gone their way.
  * `Dealings.lawful` -- the rule: search, write, and own what is taken out of a sticky directory.
  * `Dealings.cautious` -- the part of it that the code does not ask about: the directory a path
    starts from, the covered directory that `..` climbs to, and the sticky bit in `sys_unlink`.
  * **`permitted_iff`** -- a call that succeeds follows the rule exactly when that part holds.
-/
import Yuios.Fs.Failure

namespace Yuios

open Lib Prog Code

/-! ## 1. The lookups with the permissions noted -/

/-- What a lookup was allowed: to search every directory it searched, and to search those it has not
    asked about. -/
structure Rights where
  searched : Bool
  unasked : Bool
  deriving DecidableEq

def Rights.and (ρ ρ' : Rights) : Rights := ⟨ρ.searched && ρ'.searched, ρ.unasked && ρ'.unasked⟩

/-- `..` in a root: `find_entry` moves on to the covered directory. -/
def climbs (name : List UInt8) (ino : Inode) : Bool :=
  (matchName (ofString DOTDOT) 0 name).isSome && ino.nr == 1

/-- `find_entry`, in a directory the code has `asked` about or not. -/
def findEntryMay (asked : Bool) (dir : Nat) (name : List UInt8) :
    Code (Nat × Option (Key × Nat × List UInt8) × Rights) := do
  let ino ← inodeAt dir
  let (dir, r) ← findEntry dir name
  let may ← permission dir P_EXEC
  return (dir, r, ⟨may, may || (asked && !climbs name ino)⟩)

/-- The loop of `named`. -/
def namedLoopMay (right : List UInt8) : (fuel : Nat) → (asked : Bool) → (inode : Nat) →
    (left : List UInt8) → Code (Option (Nat × List UInt8) × Rights)
  | 0, _, _, _ => Prog.stop .fault
  | fuel + 1, asked, inode, left => do
    let (inode, r, ρ) ← findEntryMay asked inode left
    match r with
    | none =>
      iput inode
      return (none, ρ)
    | some (k, entry, next) =>
      let ino ← inodeAt inode
      let dev := ino.dev
      iput inode
      let nr ← dentryNr k entry
      let inode ← iget dev nr
      let ok ← searchable inode
      if ok then
        if right = next then
          brelse k
          return (some (inode, next), ρ)
        else
          let (r, ρ') ← namedLoopMay right fuel true inode next
          return (r, ρ.and ρ')
      else
        brelse k
        iput inode
        return (none, ρ)

/-- `named`, and whether the directory it answers has been asked about. -/
def namedMay (pathname : List UInt8) : Code (Option (Nat × List UInt8 × Bool) × Rights) := do
  let task ← runningTask
  match pathname with
  | [] => return (none, ⟨true, true⟩)
  | c :: cs =>
    let inode := if isSeparator c then task.iroot else task.ipwd
    let left := if isSeparator c then cs else pathname
    onInode inode fun i => { i with count := i.count + 1 }
    match left with
    | [] => return (some (inode, left, false), ⟨true, true⟩)
    | _ =>
      match afterLastSep left with
      | none => return (some (inode, left, false), ⟨true, true⟩)
      | some right =>
        let (r, ρ) ← namedLoopMay right (left.length + 1) false inode left
        return (r.map fun r => (r.1, r.2, true), ρ)

/-- The directory that has or gets the name: `named` and `find_entry`. -/
structure Target where
  parent : Nat
  entry : Option (Key × Nat × List UInt8)
  rights : Rights
  /-- The last `find_entry` has moved on to the covered directory. -/
  climbed : Bool
  write : Bool

def target (pathname : List UInt8) : Code (Option Target) := do
  match ← namedMay pathname with
  | (none, _) => return none
  | (some (dir, next, asked), ρ) =>
    if next = [] then
      return none
    else
      let ino ← inodeAt dir
      let (parent, entry, ρ') ← findEntryMay asked dir next
      let write ← permission parent P_WRITE
      return some ⟨parent, entry, ρ.and ρ', climbs next ino, write⟩

/-- `namei`. -/
def nameiMay (pathname : List UInt8) : Code (Option Nat × Rights) := do
  match ← namedMay pathname with
  | (none, ρ) => return (none, ρ)
  | (some (dir, next, asked), ρ) =>
    if next = [] then
      return (some dir, ρ)
    else
      let (dir, r, ρ') ← findEntryMay asked dir next
      match r with
      | none =>
        iput dir
        return (none, ρ.and ρ')
      | some (k, entry, _) =>
        let ino ← inodeAt dir
        let nr ← dentryNr k entry
        let inode ← iget ino.dev nr
        iput dir
        brelse k
        return (some inode, ρ.and ρ')

/-- What decides whether an inode may be taken out of a directory. -/
structure Removal where
  sticky : Bool
  inodeSticky : Bool
  owner : Bool

/-- The inode of an entry, and what decides whether it may be removed. -/
def removal (parent : Nat) (k : Key) (entry : Nat) : Code Removal := do
  let d ← inodeAt parent
  let nr ← dentryNr k entry
  let inode ← iget d.dev nr
  let dmode ← descGet parent .mode
  let mode ← descGet inode .mode
  let uid ← descGet inode .uid
  let task ← runningTask
  return ⟨dmode &&& ISVTX != 0, mode &&& ISVTX != 0, task.uid == uid⟩

/-- What a call on a name was allowed. -/
structure Dealings where
  rights : Rights
  climbed : Bool
  write : Bool
  removed : Option Removal

namespace Dealings

/-- **The rule**: the task may search what was searched, may write the directory that was changed,
    and owns what was taken out of a sticky directory. -/
def lawful (D : Dealings) : Prop :=
  D.rights.searched = true ∧ D.write = true ∧ ∀ r, D.removed = some r → r.sticky = true → r.owner = true

/-- The part of the rule nothing in the code asks about: the directory a path starts from and the
    covered directories it climbs to may be searched, the covered directory may be written that is
    changed, and in a sticky directory what the task does not own has a sticky bit of its own. -/
def cautious (D : Dealings) : Prop :=
  D.rights.unasked = true ∧ (D.climbed = true → D.write = true) ∧
    ∀ r, D.removed = some r → r.sticky = true → r.inodeSticky = true ∨ r.owner = true

end Dealings

def Target.dealings (τ : Target) (removed : Option Removal) : Dealings :=
  ⟨τ.rights, τ.climbed, τ.write, removed⟩

/-- A call that creates a name. -/
def creating (pathname : List UInt8) : Code (Option Dealings) := do
  match ← target pathname with
  | none => return none
  | some τ => return if τ.entry.isNone then some (τ.dealings none) else none

/-- A call that removes a name. -/
def removing (pathname : List UInt8) : Code (Option Dealings) := do
  match ← target pathname with
  | none => return none
  | some τ =>
    match τ.entry with
    | none => return none
    | some (k, entry, _) =>
      let r ← removal τ.parent k entry
      return some (τ.dealings (some r))

namespace NameCall

/-- What the call is allowed, found out from the state before it; none for a call that neither
    creates nor removes a name. -/
def dealings : NameCall → Code (Option Dealings)
  | .mkdir pathname _ => creating pathname
  | .rmdir pathname => removing pathname
  | .link oldname newname => do
    let (_, ρ) ← nameiMay oldname
    let D ← creating newname
    return D.map fun D => { D with rights := ρ.and D.rights }
  | .unlink filename => removing filename
  | .mknod filename _ _ => creating filename
  | .sysOpen filename _ _ => creating filename
  | .creat filename _ => creating filename

/-- The call may succeed without creating anything. -/
def opens : NameCall → Bool
  | .sysOpen .. => true
  | .creat .. => true
  | _ => false

end NameCall

/-! ## 2. The lookups are the same -/

section Same

variable {s t : Kernel}

theorem ends_permission (x mask : Nat) : Ends (permission x mask) s (s.permits x mask) s := by
  unfold permission Kernel.permits Kernel.modeFor
  refine runs_bind.mpr ⟨_, s, runs_descGet.mpr ⟨rfl, rfl⟩, runs_bind.mpr ⟨_, s,
    runs_descGet.mpr ⟨rfl, rfl⟩, runs_ite.mpr ?_⟩⟩
  by_cases hl : s.desc x .nlinks = 0
  · exact .inl ⟨hl, runs_pure.mpr ⟨by rw [if_pos hl], rfl⟩⟩
  · refine .inr ⟨hl, runs_bind.mpr ⟨_, s, runs_runningTask.mpr ⟨rfl, rfl⟩, runs_ite.mpr ?_⟩⟩
    by_cases hu : (s.tab.task s.tab.running).uid = 0
    · exact .inl ⟨hu, runs_pure.mpr ⟨by rw [if_neg hl, if_pos hu], rfl⟩⟩
    · refine .inr ⟨hu, runs_bind.mpr ⟨_, s, runs_descGet.mpr ⟨rfl, rfl⟩, runs_bind.mpr ⟨_, s,
        runs_descGet.mpr ⟨rfl, rfl⟩, runs_pure.mpr ⟨?_, rfl⟩⟩⟩⟩
      rw [if_neg hl, if_neg hu]

theorem Same.permits (h : Same s t) (x mask : Nat) : t.permits x mask = s.permits x mask := by
  unfold Kernel.permits Kernel.modeFor Kernel.desc
  rw [h.tab, h.views]

theorem searchable_permits {x : Nat} {ok : Bool} (h : Ends (searchable x) s ok t) :
    s = t ∧ (ok = true → s.permits x P_EXEC = true) := by
  obtain ⟨mode, s₁, h₁, h⟩ := runs_bind.mp h
  obtain ⟨rfl, rfl⟩ := runs_descGet.mp h₁
  obtain ⟨-, h⟩ | ⟨-, h⟩ := runs_ite.mp h
  · obtain ⟨rfl, rfl⟩ := runs_permission h
    exact ⟨rfl, id⟩
  · obtain ⟨rfl, rfl⟩ := runs_pure.mp h
    exact ⟨rfl, nofun⟩

theorem climbs_eq_false {name : List UInt8} {ino : Inode} (h : climbs name ino = false) :
    ¬ ((matchName (ofString DOTDOT) 0 name).isSome ∧ ino.nr = 1) := by
  intro hc
  rw [climbs, hc.1, hc.2] at h
  cases h

/-- **A round of a lookup**: what is searched and not asked about is all that matters. -/
theorem findEntry_may {asked : Bool} {dir d : Nat} {name : List UInt8}
    {r : Option (Key × Nat × List UInt8)} (hasked : asked = true → s.permits dir P_EXEC = true)
    (h : Ends (findEntry dir name) s (d, r) t) :
    ∃ ρ, Ends (findEntryMay asked dir name) s (d, r, ρ) t ∧ ρ.searched = ρ.unasked := by
  refine ⟨_, runs_bind.mpr ⟨_, s, runs_inodeAt.mpr ⟨rfl, rfl⟩, runs_bind.mpr ⟨_, _, h, runs_bind.mpr
    ⟨_, _, ends_permission d P_EXEC, runs_pure.mpr ⟨rfl, rfl⟩⟩⟩⟩, ?_⟩
  show t.permits d P_EXEC = (t.permits d P_EXEC || (asked && !climbs name (s.tab.inodeTable dir)))
  cases ha : asked with
  | false => simp
  | true =>
    cases hc : climbs name (s.tab.inodeTable dir) with
    | true => simp
    | false =>
      obtain ⟨rfl, hs⟩ := findEntry_stays (climbs_eq_false hc) h
      rw [hs.permits, hasked ha]
      rfl

theorem Rights.and_eq {ρ ρ' : Rights} (h : ρ.searched = ρ.unasked) (h' : ρ'.searched = ρ'.unasked) :
    (ρ.and ρ').searched = (ρ.and ρ').unasked := by
  unfold Rights.and
  rw [h, h']

theorem namedLoop_may {right next left : List UInt8} {fuel inode dir : Nat} {asked : Bool}
    (hasked : asked = true → s.permits inode P_EXEC = true)
    (h : Ends (namedLoop right fuel inode left) s (some (dir, next)) t) :
    ∃ ρ, Ends (namedLoopMay right fuel asked inode left) s (some (dir, next), ρ) t ∧
      ρ.searched = ρ.unasked ∧ t.permits dir P_EXEC = true := by
  induction fuel generalizing inode left asked s with
  | zero => exact h.elim
  | succ fuel ih =>
    obtain ⟨⟨d, r⟩, s₁, h₁, h⟩ := runs_bind.mp h
    obtain ⟨ρ, hmay, hρ⟩ := findEntry_may hasked h₁
    cases r with
    | none =>
      obtain ⟨_, s₂, -, h⟩ := runs_bind.mp h
      cases (runs_pure.mp h).1
    | some e =>
      obtain ⟨k, entry, rest⟩ := e
      obtain ⟨ino, s₂, h₂, h⟩ := runs_bind.mp h
      obtain ⟨_, s₃, h₃, h⟩ := runs_bind.mp h
      obtain ⟨nr, s₄, h₄, h⟩ := runs_bind.mp h
      obtain ⟨y, s₅, h₅, h⟩ := runs_bind.mp h
      obtain ⟨ok, s₆, h₆, h⟩ := runs_bind.mp h
      obtain ⟨rfl, hy⟩ := searchable_permits h₆
      obtain ⟨hok, h⟩ | ⟨hok, h⟩ := runs_ite.mp h
      · obtain ⟨hr, h⟩ | ⟨hr, h⟩ := runs_ite.mp h
        · obtain ⟨_, s₇, h₇, h⟩ := runs_bind.mp h
          obtain ⟨e, rfl⟩ := runs_pure.mp h
          obtain ⟨rfl, rfl⟩ := Prod.mk.inj (Option.some.inj e)
          refine ⟨ρ, runs_bind.mpr ⟨_, _, hmay, runs_bind.mpr ⟨_, _, h₂, runs_bind.mpr ⟨_, _, h₃,
            runs_bind.mpr ⟨_, _, h₄, runs_bind.mpr ⟨_, _, h₅, runs_bind.mpr ⟨_, _, h₆, ?_⟩⟩⟩⟩⟩⟩,
            hρ, ?_⟩
          · exact runs_ite.mpr (.inl ⟨hok, runs_ite.mpr (.inl ⟨hr, runs_bind.mpr ⟨_, _, h₇, rfl, rfl⟩⟩)⟩)
          · rw [(brelse_same k _ _ _ h₇).permits]
            exact hy hok
        · have hasked : true = true → s₅.permits y P_EXEC = true := fun _ => hy hok
          obtain ⟨ρ', hmay', hρ', hdir⟩ := ih hasked h
          refine ⟨ρ.and ρ', runs_bind.mpr ⟨_, _, hmay, runs_bind.mpr ⟨_, _, h₂, runs_bind.mpr ⟨_, _, h₃,
            runs_bind.mpr ⟨_, _, h₄, runs_bind.mpr ⟨_, _, h₅, runs_bind.mpr ⟨_, _, h₆, ?_⟩⟩⟩⟩⟩⟩,
            Rights.and_eq hρ hρ', hdir⟩
          exact runs_ite.mpr (.inl ⟨hok, runs_ite.mpr (.inr ⟨hr, runs_bind.mpr ⟨_, _, hmay', rfl, rfl⟩⟩)⟩)
      · obtain ⟨_, s₇, -, h⟩ := runs_bind.mp h
        obtain ⟨_, s₈, -, h⟩ := runs_bind.mp h
        cases (runs_pure.mp h).1

theorem named_may {pathname next : List UInt8} {dir : Nat}
    (h : Ends (named pathname) s (some (dir, next)) t) :
    ∃ asked ρ, Ends (namedMay pathname) s (some (dir, next, asked), ρ) t ∧
      ρ.searched = ρ.unasked ∧ (asked = true → t.permits dir P_EXEC = true) := by
  obtain ⟨task, s₁, h₁, h⟩ := runs_bind.mp h
  cases pathname with
  | nil => cases (runs_pure.mp h).1
  | cons c cs =>
    dsimp only at h
    obtain ⟨_, s₂, h₂, h⟩ := runs_bind.mp h
    generalize hleft : (if isSeparator c then cs else c :: cs) = left at h
    cases left with
    | nil =>
      obtain ⟨e, rfl⟩ := runs_pure.mp h
      obtain ⟨rfl, rfl⟩ := Prod.mk.inj (Option.some.inj e)
      refine ⟨false, ⟨true, true⟩, runs_bind.mpr ⟨_, _, h₁, runs_bind.mpr ⟨_, _, h₂, ?_⟩⟩, rfl, nofun⟩
      rw [hleft]
      exact ⟨rfl, rfl⟩
    | cons d ds =>
      dsimp only at h
      cases hsep : afterLastSep (d :: ds) with
      | none =>
        rw [hsep] at h
        obtain ⟨e, rfl⟩ := runs_pure.mp h
        obtain ⟨rfl, rfl⟩ := Prod.mk.inj (Option.some.inj e)
        refine ⟨false, ⟨true, true⟩, runs_bind.mpr ⟨_, _, h₁, runs_bind.mpr ⟨_, _, h₂, ?_⟩⟩, rfl,
          nofun⟩
        rw [hleft]
        dsimp only
        rw [hsep]
        exact ⟨rfl, rfl⟩
      | some right =>
        rw [hsep] at h
        have hasked : false = true → s₂.permits (if isSeparator c then task.iroot else task.ipwd)
            P_EXEC = true := nofun
        obtain ⟨ρ, hmay, hρ, hdir⟩ := namedLoop_may hasked h
        refine ⟨true, ρ, runs_bind.mpr ⟨_, _, h₁, runs_bind.mpr ⟨_, _, h₂, ?_⟩⟩, hρ, fun _ => hdir⟩
        rw [hleft]
        dsimp only
        rw [hsep]
        exact runs_bind.mpr ⟨_, _, hmay, rfl, rfl⟩

/-- A target whose parent has been asked about as far as the code asks. -/
structure Target.Asked (τ : Target) : Prop where
  rights : τ.rights.searched = τ.rights.unasked
  write : τ.climbed = false → τ.write = true

/-- **The way to the name**: what a call has done before it has its entry, or finds there is none. -/
theorem target_may {pathname next : List UInt8} {dir d : Nat} {u : Kernel}
    {r : Option (Key × Nat × List UInt8)} (h₁ : Ends (named pathname) s (some (dir, next)) u)
    (hn : next ≠ []) (h₂ : Ends (findEntry dir next) u (d, r) t) :
    ∃ τ, Ends (target pathname) s (some τ) t ∧ τ.parent = d ∧ τ.entry = r ∧
      (u.permits dir P_WRITE = true ∨ t.permits d P_WRITE = true → τ.Asked) := by
  obtain ⟨asked, ρ, hmay, hρ, hasked⟩ := named_may h₁
  obtain ⟨ρ', hmay', hρ'⟩ := findEntry_may hasked h₂
  refine ⟨⟨d, r, ρ.and ρ', climbs next (u.tab.inodeTable dir), t.permits d P_WRITE⟩,
    runs_bind.mpr ⟨_, _, hmay, ?_⟩, rfl, rfl, fun hw => ⟨Rights.and_eq hρ hρ', fun hc => ?_⟩⟩
  · refine runs_ite.mpr (.inr ⟨hn, runs_bind.mpr ⟨_, u, runs_inodeAt.mpr ⟨rfl, rfl⟩, runs_bind.mpr
      ⟨_, _, hmay', runs_bind.mpr ⟨_, _, ends_permission d P_WRITE, rfl, rfl⟩⟩⟩⟩)
  · obtain ⟨rfl, hs⟩ := findEntry_stays (climbs_eq_false hc) h₂
    exact hw.elim (hs.permits _ _).trans id

theorem namei_may {pathname : List UInt8} {x : Nat} (h : Ends (namei pathname) s (some x) t) :
    ∃ ρ, Ends (nameiMay pathname) s (some x, ρ) t ∧ ρ.searched = ρ.unasked := by
  obtain ⟨r, s₁, h₁, h⟩ := runs_bind.mp h
  cases r with
  | none => cases (runs_pure.mp h).1
  | some r =>
    obtain ⟨dir, next⟩ := r
    obtain ⟨asked, ρ, hmay, hρ, hasked⟩ := named_may h₁
    obtain ⟨hn, h⟩ | ⟨hn, h⟩ := runs_ite.mp h
    · obtain ⟨e, rfl⟩ := runs_pure.mp h
      obtain rfl := Option.some.inj e
      exact ⟨ρ, runs_bind.mpr ⟨_, _, hmay, runs_ite.mpr (.inl ⟨hn, rfl, rfl⟩)⟩, hρ⟩
    · obtain ⟨⟨d, r⟩, s₂, h₂, h⟩ := runs_bind.mp h
      obtain ⟨ρ', hmay', hρ'⟩ := findEntry_may hasked h₂
      cases r with
      | none =>
        obtain ⟨_, s₃, -, h⟩ := runs_bind.mp h
        cases (runs_pure.mp h).1
      | some e =>
        obtain ⟨k, entry, rest⟩ := e
        obtain ⟨ino, s₃, h₃, h⟩ := runs_bind.mp h
        obtain ⟨nr, s₄, h₄, h⟩ := runs_bind.mp h
        obtain ⟨y, s₅, h₅, h⟩ := runs_bind.mp h
        obtain ⟨_, s₆, h₆, h⟩ := runs_bind.mp h
        obtain ⟨_, s₇, h₇, h⟩ := runs_bind.mp h
        obtain ⟨e, rfl⟩ := runs_pure.mp h
        obtain rfl := Option.some.inj e
        refine ⟨ρ.and ρ', runs_bind.mpr ⟨_, _, hmay, runs_ite.mpr (.inr ⟨hn, ?_⟩)⟩,
          Rights.and_eq hρ hρ'⟩
        exact runs_bind.mpr ⟨_, _, hmay', runs_bind.mpr ⟨_, _, h₃, runs_bind.mpr ⟨_, _, h₄,
          runs_bind.mpr ⟨_, _, h₅, runs_bind.mpr ⟨_, _, h₆, runs_bind.mpr ⟨_, _, h₇, rfl, rfl⟩⟩⟩⟩⟩⟩

end Same

/-! ## 3. The calls -/

section Calls

variable {s t : Kernel}

/-- The code has asked for the rest of the rule. -/
structure Dealings.Asked (D : Dealings) : Prop where
  rights : D.rights.searched = D.rights.unasked
  write : D.climbed = false → D.write = true
  removed : ∀ r, D.removed = some r → r.sticky = true → r.inodeSticky = true → r.owner = true

/-- The rule is what the code does not ask about. -/
theorem Dealings.Asked.lawful_iff {D : Dealings} (hD : D.Asked) : D.lawful ↔ D.cautious := by
  constructor
  · intro h
    exact ⟨hD.rights ▸ h.1, fun _ => h.2.1, fun r hr hs => .inr (h.2.2 r hr hs)⟩
  · intro h
    refine ⟨hD.rights.trans h.1, ?_, fun r hr hs => (h.2.2 r hr hs).elim (hD.removed r hr hs) id⟩
    cases hc : D.climbed with
    | false => exact hD.write hc
    | true => exact h.2.1 hc

theorem creating_asked {pathname : List UInt8} {τ : Target} (h : Ends (target pathname) s (some τ) t)
    (hnone : τ.entry = none) (hτ : τ.Asked) :
    ∃ D, Ends (creating pathname) s (some D) t ∧ D.Asked := by
  refine ⟨τ.dealings none, runs_bind.mpr ⟨_, _, h, ?_⟩, hτ.rights, hτ.write, nofun⟩
  dsimp only
  rw [hnone]
  exact ⟨rfl, rfl⟩

theorem removing_asked {pathname rest : List UInt8} {τ : Target} {k : Key} {entry : Nat} {r : Removal}
    {u : Kernel} (h : Ends (target pathname) s (some τ) u) (hentry : τ.entry = some (k, entry, rest))
    (hτ : τ.Asked) (hr : Ends (removal τ.parent k entry) u r t)
    (ho : r.sticky = true → r.inodeSticky = true → r.owner = true) :
    ∃ D, Ends (removing pathname) s (some D) t ∧ D.Asked := by
  refine ⟨τ.dealings (some r), runs_bind.mpr ⟨_, _, h, ?_⟩, hτ.rights, hτ.write, fun r' hr' => ?_⟩
  · dsimp only
    rw [hentry]
    exact runs_bind.mpr ⟨_, _, hr, rfl, rfl⟩
  · rw [← Option.some.inj hr']
    exact ho

theorem sysMkdir_asked {pathname : List UInt8} {mode : Nat} (h : Ends (sysMkdir pathname mode) s true t) :
    ∃ D u, Ends (creating pathname) s (some D) u ∧ D.Asked := by
  rw [sysMkdir_eq] at h
  obtain ⟨dir, next, u, d, r, v, h₁, hn, hw, h₂, h⟩ := onName_done h
  cases r with
  | some e => exact absurd h (never_rollback _ _ _ _)
  | none =>
    obtain ⟨τ, hmay, -, hentry, hτ⟩ := target_may h₁ hn h₂
    obtain ⟨D, hD, ha⟩ := creating_asked hmay hentry (hτ (.inl hw))
    exact ⟨D, v, hD, ha⟩

theorem sysMknod_asked {filename : List UInt8} {mode dev : Nat}
    (h : Ends (sysMknod filename mode dev) s true t) :
    ∃ D u, Ends (creating filename) s (some D) u ∧ D.Asked := by
  rw [sysMknod_eq] at h
  obtain ⟨dir, next, u, d, r, v, h₁, hn, hw, h₂, h⟩ := onName_done h
  cases r with
  | some e => exact absurd h (never_rollback _ _ _ _)
  | none =>
    obtain ⟨τ, hmay, -, hentry, hτ⟩ := target_may h₁ hn h₂
    obtain ⟨D, hD, ha⟩ := creating_asked hmay hentry (hτ (.inl hw))
    exact ⟨D, v, hD, ha⟩

theorem sysUnlink_asked {filename : List UInt8} (h : Ends (sysUnlink filename) s true t) :
    ∃ D u, Ends (removing filename) s (some D) u ∧ D.Asked := by
  rw [sysUnlink_eq] at h
  obtain ⟨dir, next, u, d, r, v, h₁, hn, hw, h₂, h⟩ := onName_done h
  cases r with
  | none => exact absurd h (never_rollback _ _ _ _)
  | some e =>
    obtain ⟨k, entry, rest⟩ := e
    obtain ⟨τ, hmay, rfl, hentry, hτ⟩ := target_may h₁ hn h₂
    obtain ⟨ino, s₁, h₁, h⟩ := runs_bind.mp h
    obtain ⟨nr, s₂, h₂, h⟩ := runs_bind.mp h
    obtain ⟨x, s₃, h₃, h⟩ := runs_bind.mp h
    obtain ⟨mode, s₄, h₄, h⟩ := runs_bind.mp h
    obtain ⟨rfl, rfl⟩ := runs_descGet.mp h₄
    obtain ⟨task, s₄, h₄, h⟩ := runs_bind.mp h
    obtain ⟨rfl, rfl⟩ := runs_runningTask.mp h₄
    obtain ⟨uid, s₄, h₄, h⟩ := runs_bind.mp h
    obtain ⟨rfl, rfl⟩ := runs_descGet.mp h₄
    obtain ⟨-, h⟩ | ⟨hc, -⟩ := runs_ite.mp h
    · obtain ⟨_, s₅, -, h⟩ := runs_bind.mp h
      obtain ⟨_, s₆, -, h⟩ := runs_bind.mp h
      obtain ⟨_, s₇, -, h⟩ := runs_bind.mp h
      cases (runs_pure.mp h).1
    · have hr : Ends (removal τ.parent k entry) v _ s₃ :=
        runs_bind.mpr ⟨_, _, h₁, runs_bind.mpr ⟨_, _, h₂, runs_bind.mpr ⟨_, _, h₃, runs_bind.mpr
          ⟨_, _, runs_descGet.mpr ⟨rfl, rfl⟩, runs_bind.mpr ⟨_, _, runs_descGet.mpr ⟨rfl, rfl⟩,
            runs_bind.mpr ⟨_, _, runs_descGet.mpr ⟨rfl, rfl⟩, runs_bind.mpr
              ⟨_, _, runs_runningTask.mpr ⟨rfl, rfl⟩, rfl, rfl⟩⟩⟩⟩⟩⟩⟩
      obtain ⟨D, hD, ha⟩ := removing_asked hmay hentry (hτ (.inl hw)) hr fun _ hs => by
        have hs : s₃.desc x .mode &&& ISVTX ≠ 0 := by simpa using hs
        have := fun hu => (not_or.mp hc).2 ⟨hs, hu⟩
        simpa using this
      exact ⟨D, s₃, hD, ha⟩

theorem sysRmdir_asked {pathname : List UInt8} (h : Ends (sysRmdir pathname) s true t) :
    ∃ D u, Ends (removing pathname) s (some D) u ∧ D.Asked := by
  rw [sysRmdir_eq] at h
  obtain ⟨dir, next, u, d, r, v, h₁, hn, hw, h₂, h⟩ := onName_done h
  cases r with
  | none => exact absurd h (never_rollback _ _ _ _)
  | some e =>
    obtain ⟨k, entry, rest⟩ := e
    obtain ⟨τ, hmay, rfl, hentry, hτ⟩ := target_may h₁ hn h₂
    obtain ⟨ino, s₁, h₁, h⟩ := runs_bind.mp h
    obtain ⟨nr, s₂, h₂, h⟩ := runs_bind.mp h
    obtain ⟨x, s₃, h₃, h⟩ := runs_bind.mp h
    obtain ⟨mode, s₄, h₄, h⟩ := runs_bind.mp h
    obtain ⟨rfl, rfl⟩ := runs_descGet.mp h₄
    obtain ⟨task, s₄, h₄, h⟩ := runs_bind.mp h
    obtain ⟨rfl, rfl⟩ := runs_runningTask.mp h₄
    obtain ⟨dmode, s₄, h₄, h⟩ := runs_bind.mp h
    obtain ⟨rfl, rfl⟩ := runs_descGet.mp h₄
    obtain ⟨uid, s₄, h₄, h⟩ := runs_bind.mp h
    obtain ⟨rfl, rfl⟩ := runs_descGet.mp h₄
    obtain ⟨d', s₄, ⟨rfl, rfl⟩, h⟩ := runs_bind.mp h
    obtain ⟨ino', s₄, ⟨rfl, rfl⟩, h⟩ := runs_bind.mp h
    obtain ⟨-, h⟩ | ⟨hc, -⟩ := runs_ite.mp h
    · obtain ⟨_, s₅, -, h⟩ := runs_bind.mp h
      obtain ⟨_, s₆, -, h⟩ := runs_bind.mp h
      obtain ⟨_, s₇, -, h⟩ := runs_bind.mp h
      cases (runs_pure.mp h).1
    · have hr : Ends (removal τ.parent k entry) v _ s₃ :=
        runs_bind.mpr ⟨_, _, h₁, runs_bind.mpr ⟨_, _, h₂, runs_bind.mpr ⟨_, _, h₃, runs_bind.mpr
          ⟨_, _, runs_descGet.mpr ⟨rfl, rfl⟩, runs_bind.mpr ⟨_, _, runs_descGet.mpr ⟨rfl, rfl⟩,
            runs_bind.mpr ⟨_, _, runs_descGet.mpr ⟨rfl, rfl⟩, runs_bind.mpr
              ⟨_, _, runs_runningTask.mpr ⟨rfl, rfl⟩, rfl, rfl⟩⟩⟩⟩⟩⟩⟩
      obtain ⟨D, hD, ha⟩ := removing_asked hmay hentry (hτ (.inl hw)) hr fun hs _ => by
        have hs : s₃.desc τ.parent .mode &&& ISVTX ≠ 0 := by simpa using hs
        have := fun hu => (not_or.mp (not_or.mp (not_or.mp hc).2).2).1 ⟨hs, hu⟩
        simpa using this
      exact ⟨D, s₃, hD, ha⟩

theorem sysLink_asked {oldname newname : List UInt8} (h : Ends (sysLink oldname newname) s true t) :
    ∃ D u, Ends (NameCall.link oldname newname).dealings s (some D) u ∧ D.Asked := by
  obtain ⟨r, s₁, h₁, h⟩ := runs_bind.mp h
  cases r with
  | none => cases (runs_pure.mp h).1
  | some inode =>
    obtain ⟨ρ, hold, hρ⟩ := namei_may h₁
    obtain ⟨mode, s₂, h₂, h⟩ := runs_bind.mp h
    obtain ⟨-, rfl⟩ := runs_descGet.mp h₂
    obtain ⟨-, h⟩ | ⟨-, h⟩ := runs_ite.mp h
    · exact absurd h (never_rollback _ _ _ _)
    · obtain ⟨r, s₂, h₂, h⟩ := runs_bind.mp h
      cases r with
      | none => exact absurd h (never_rollback _ _ _ _)
      | some r =>
        obtain ⟨dir, next⟩ := r
        have hback : ∀ v, ¬ Ends (do iput inode; rollback none dir false) v true t :=
          fun v => never_bind (fun _ => never_rollback _ _) _ _
        obtain ⟨d, s₃, ⟨rfl, rfl⟩, h⟩ := runs_bind.mp h
        obtain ⟨ino, s₃, ⟨rfl, rfl⟩, h⟩ := runs_bind.mp h
        obtain ⟨-, h⟩ | ⟨hc, h⟩ := runs_ite.mp h
        · exact absurd h (hback _)
        · obtain ⟨ok, s₃, h₃, h⟩ := runs_bind.mp h
          obtain ⟨rfl, rfl⟩ := runs_permission h₃
          obtain ⟨-, h⟩ | ⟨hw, h⟩ := runs_ite.mp h
          · exact absurd h (hback _)
          · obtain ⟨⟨d, r⟩, s₃, h₃, h⟩ := runs_bind.mp h
            cases r with
            | some e =>
              obtain ⟨_, s₄, -, h⟩ := runs_bind.mp h
              obtain ⟨_, s₅, -, h⟩ := runs_bind.mp h
              obtain ⟨_, s₆, -, h⟩ := runs_bind.mp h
              cases (runs_pure.mp h).1
            | none =>
              obtain ⟨τ, hmay, -, hentry, hτ⟩ := target_may h₂ (not_or.mp hc).1 h₃
              obtain ⟨D, hD, ha⟩ := creating_asked hmay hentry (hτ (.inl (by simpa using hw)))
              exact ⟨{ D with rights := ρ.and D.rights }, s₃, runs_bind.mpr ⟨_, _, hold,
                runs_bind.mpr ⟨_, _, hD, rfl, rfl⟩⟩, Rights.and_eq hρ ha.rights, ha.write, ha.removed⟩

/-- An opening call creates the name, or it finds what it opens. -/
theorem openFind_asked {pathname : List UInt8} {flag mode : Nat} {x : Nat × Option (Nat × Key)}
    (h : Ends (openFind pathname flag mode) s (some x) t) :
    (∃ D u, Ends (creating pathname) s (some D) u ∧ D.Asked) ∨ ∃ u, Ends (creating pathname) s none u := by
  obtain ⟨r, u, h₁, h⟩ := runs_bind.mp h
  cases r with
  | none => cases (runs_pure.mp h).1
  | some r =>
    obtain ⟨dir, next⟩ := r
    obtain ⟨hn, -⟩ | ⟨hn, h⟩ := runs_ite.mp h
    · obtain ⟨asked, ρ, hmay, -⟩ := named_may h₁
      have htarget : Ends (target pathname) s none u :=
        runs_bind.mpr ⟨_, _, hmay, runs_ite.mpr (.inl ⟨hn, rfl, rfl⟩)⟩
      exact .inr ⟨u, runs_bind.mpr ⟨_, _, htarget, rfl, rfl⟩⟩
    · obtain ⟨⟨d, r⟩, v, h₂, h⟩ := runs_bind.mp h
      obtain ⟨τ, hmay, -, hentry, hτ⟩ := target_may h₁ hn h₂
      cases r with
      | some e =>
        refine .inr ⟨v, runs_bind.mpr ⟨_, _, hmay, ?_⟩⟩
        dsimp only
        rw [hentry]
        exact ⟨rfl, rfl⟩
      | none =>
        have hback : ∀ w, ¬ Ends (rollback none d none : Code (Option (Nat × Option (Nat × Key))))
            w (some x) t := fun w h => by
          obtain ⟨_, s₃, -, h⟩ := runs_bind.mp h
          obtain ⟨_, s₄, -, h⟩ := runs_bind.mp h
          cases (runs_pure.mp h).1
        obtain ⟨-, h⟩ | ⟨-, h⟩ := runs_ite.mp h
        · exact absurd h (hback _)
        · obtain ⟨ok, w, h₃, h⟩ := runs_bind.mp h
          obtain ⟨rfl, rfl⟩ := runs_permission h₃
          obtain ⟨-, h⟩ | ⟨hw, -⟩ := runs_ite.mp h
          · exact absurd h (hback _)
          · obtain ⟨D, hD, ha⟩ := creating_asked hmay hentry (hτ (.inr (by simpa using hw)))
            exact .inl ⟨D, v, hD, ha⟩

theorem sysOpen_asked {filename : List UInt8} {flags mode fd : Nat}
    (h : Ends (sysOpen filename flags mode) s (some fd) t) :
    (∃ D u, Ends (creating filename) s (some D) u ∧ D.Asked) ∨ ∃ u, Ends (creating filename) s none u := by
  obtain ⟨r, u, v, x, f, hfind, hfin, -⟩ := sysOpen_file h
  cases r with
  | none => cases (runs_pure.mp hfin).1
  | some r => exact openFind_asked hfind

theorem nameCall_asked {c : NameCall} (h : Ends c.eof s false t) :
    (∃ D u, Ends c.dealings s (some D) u ∧ D.Asked) ∨
      (c.opens = true ∧ ∃ u, Ends c.dealings s none u) := by
  have hbool : ∀ {p : Code Bool}, Ends (do
      let ok ← p
      return !ok) s false t → Ends p s true t := by
    intro p h
    obtain ⟨ok, u, h₁, h⟩ := runs_bind.mp h
    obtain ⟨hok, rfl⟩ := runs_pure.mp h
    obtain rfl : ok = true := by simpa using hok
    exact h₁
  cases c with
  | mkdir pathname mode => exact .inl (sysMkdir_asked (hbool h))
  | rmdir pathname => exact .inl (sysRmdir_asked (hbool h))
  | link oldname newname => exact .inl (sysLink_asked (hbool h))
  | unlink filename => exact .inl (sysUnlink_asked (hbool h))
  | mknod filename mode dev => exact .inl (sysMknod_asked (hbool h))
  | sysOpen filename flags mode =>
    obtain ⟨fd, u, h₁, h⟩ := runs_bind.mp h
    obtain ⟨hfd, rfl⟩ := runs_pure.mp h
    obtain ⟨fd, rfl⟩ := Option.isSome_iff_exists.mp (by simpa using hfd)
    exact (sysOpen_asked h₁).imp id fun h => ⟨rfl, h⟩
  | creat filename mode =>
    obtain ⟨fd, u, h₁, h⟩ := runs_bind.mp h
    obtain ⟨hfd, rfl⟩ := runs_pure.mp h
    obtain ⟨fd, rfl⟩ := Option.isSome_iff_exists.mp (by simpa using hfd)
    exact (sysOpen_asked h₁).imp id fun h => ⟨rfl, h⟩

/-- **A call that has succeeded followed the rule** exactly when the part of it held that the code does
    not ask about; or it has opened what was there. -/
theorem permitted_iff {c : NameCall} (h : Ends c.eof s false t) :
    (∃ D u, Ends c.dealings s (some D) u ∧ (D.lawful ↔ D.cautious)) ∨
      (c.opens = true ∧ ∃ u, Ends c.dealings s none u) :=
  (nameCall_asked h).imp (fun ⟨D, u, hD, ha⟩ => ⟨D, u, hD, ha.lawful_iff⟩) id

/-- A directory made in the root directory. -/
theorem permitted_iff_mkdir : ∃ D u, Ends (NameCall.mkdir Sample.fileA 0o755).dealings Sample.fresh
    (some D) u ∧ D.lawful := by
  have hrun : ∃ a t, Ends (NameCall.mkdir Sample.fileA 0o755).eof Sample.fresh a t ∧ (!a) = true :=
    ends_of_run (q := fun a _ => !a) (by decide +kernel)
  obtain ⟨a, t, h, ha⟩ := hrun
  obtain rfl : a = false := by simpa using ha
  have hmay : ∃ D u, Ends (NameCall.mkdir Sample.fileA 0o755).dealings Sample.fresh D u ∧
      (D.any fun D => D.rights.unasked && D.write && D.removed.isNone) = true :=
    ends_of_run (q := fun (D : Option Dealings) _ =>
      D.any fun D => D.rights.unasked && D.write && D.removed.isNone) (by decide +kernel)
  obtain ⟨D₀, u₀, hD₀, hq⟩ := hmay
  obtain ⟨D, u, hD, hiff⟩ | ⟨ho, -⟩ := permitted_iff h
  · obtain ⟨rfl, -⟩ := ends_unique hD₀ hD
    simp only [Option.any_some, Bool.and_eq_true, Option.isNone_iff_eq_none] at hq
    refine ⟨D, u, hD, hiff.mpr ⟨hq.1.1, fun _ => hq.1.2, fun r hr => ?_⟩⟩
    rw [hq.2] at hr
    cases hr
  · cases ho

/-- A task that may write the root directory, but not search it. -/
def Sample.blind : Kernel :=
  { guest with
    cache := { guest.cache with
      disk := fun k =>
        if k = ⟨dev, 4⟩ then descriptor 0 (IFDIR + 0o722) 32 2 5 fun _ => 0 else guest.cache.disk k } }

/-- It creates a name there nevertheless. -/
theorem permitted_iff_not_always : ¬ ∀ (c : NameCall) (s t : Kernel),
    (s.tab.task s.tab.running).uid ≠ 0 → Ends c.eof s false t →
      (∃ D u, Ends c.dealings s (some D) u ∧ D.lawful) ∨
        (c.opens = true ∧ ∃ u, Ends c.dealings s none u) := by
  intro hall
  have hrun : ∃ a t, Ends (NameCall.mknod Sample.fileA 0 0).eof Sample.blind a t ∧ (!a) = true :=
    ends_of_run (q := fun a _ => !a) (by decide +kernel)
  obtain ⟨a, t, h, ha⟩ := hrun
  obtain rfl : a = false := by simpa using ha
  have hmay : ∃ D u, Ends (NameCall.mknod Sample.fileA 0 0).dealings Sample.blind D u ∧
      (D.any fun D => !D.rights.searched) = true :=
    ends_of_run (q := fun (D : Option Dealings) _ => D.any fun D => !D.rights.searched)
      (by decide +kernel)
  obtain ⟨D₀, u₀, hD₀, hq⟩ := hmay
  obtain ⟨D, u, hD, hlaw⟩ | ⟨ho, -⟩ := hall _ _ _ (by decide) h
  · obtain ⟨rfl, -⟩ := ends_unique hD₀ hD
    rw [Option.any_some, hlaw.1] at hq
    cases hq
  · cases ho

end Calls

end Yuios
