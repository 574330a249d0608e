/-
  File:      Yuios/Cache/Unique.lean
  Subject:   ONE BUFFER FOR ONE BLOCK: what holds of the hash table and of the sleeping tasks in
             every state the cache reaches.

  * `Table`: every buffer in a chain exists, is in the chain its block hashes to, is there once,
    and shares its block with no other buffer in any chain.
  * `Sleep run`: a task asleep in `get_free_buffer` is not ready; the tasks in the waiting list of
    a lock stand in `bread` at this lock. `run` is the task that runs, whose `pc` is stale.
  * `reachable_inv`: both hold in every reachable state; `hashTable_unique` is the statement about
    the hash table.

  `getblk` inserts a buffer after it has missed the block. The two are one segment of a run unless
  the task slept in `get_free_buffer` in between, and from there no task comes back: `task_unblock`
  wakes only what it can unlink, and `brelse` has unlinked the waiter before (`release_wakes`).
-/
import Mathlib.Data.List.Lex
import Mathlib.Data.List.Perm.Basic
import Yuios.Cache.Model

namespace Yuios.BufferCache

open Kernel

variable {α : Type}

/-! ## 1. The invariant -/

/-- **The hash table.** -/
structure Table (s : State α) : Prop where
  top : s.bufferPtr = KERNEL_BUFFER_MEM + sizeofBuffer * s.bufferCount
  made : ∀ i, ∀ bf ∈ s.hashTable i, s.Made bf
  home : ∀ i, ∀ bf ∈ s.hashTable i, i = hash (s.buf bf).dev (s.buf bf).block
  nodup : ∀ i, (s.hashTable i).Nodup
  unique : ∀ i j bf bf', bf ∈ s.hashTable i → bf' ∈ s.hashTable j →
    (s.buf bf).dev = (s.buf bf').dev → (s.buf bf).block = (s.buf bf').block → bf = bf'

/-- The buffer a task inside a call works on. -/
def Pc.buffer : Pc → Option Nat
  | .out => none
  | .asleep _ _ _ => none
  | .locking bf => some bf
  | .reading bf _ _ => some bf
  | .yielding bf => some bf
  | .writing bf _ _ _ => some bf

def Pc.isAsleep : Pc → Bool
  | .asleep _ _ _ => true
  | _ => false

/-- A task in the waiting list of the lock of `bf`. -/
structure Waits (s : State α) (bf t : Nat) : Prop where
  pc : s.pc t = .locking bf
  blocked : s.ready t = false
  node : s.node t = some (.waiters bf)

/-- **The tasks that do not run**, `run` being the one that does. -/
structure Sleep (run : Option Nat) (s : State α) : Prop where
  asleep : ∀ t, some t ≠ run → (s.pc t).isAsleep = true → s.ready t = false
  inside : ∀ t, some t ≠ run → ∀ bf ∈ (s.pc t).buffer, s.Made bf
  waits : ∀ bf, s.Made bf → ∀ t ∈ (s.buf bf).lock.waiters, some t ≠ run ∧ Waits s bf t
  once : ∀ bf, s.Made bf → (s.buf bf).lock.waiters.Nodup

/-- The invariant, while `run` is running. -/
structure Inv (run : Option Nat) (s : State α) : Prop extends Table s, Sleep run s

theorem inv_init (buf : Nat → Buffer α) (devices : Disk.Table) (disk : Disk.Cell → α) :
    Inv none (init buf devices disk) where
  top := rfl
  made := fun _ _ h => nomatch h
  home := fun _ _ h => nomatch h
  nodup := fun _ => List.nodup_nil
  unique := fun _ _ _ _ h => nomatch h
  asleep := fun _ _ h => nomatch h
  inside := fun _ _ _ h => nomatch h
  waits := fun _ ⟨_, hi, _⟩ => absurd hi (Nat.not_lt_zero _)
  once := fun _ ⟨_, hi, _⟩ => absurd hi (Nat.not_lt_zero _)

/-- No buffer in a chain is assigned to the block. -/
def Miss (s : State α) (dev : Int) (block : Nat) : Prop :=
  ∀ i, ∀ bf ∈ s.hashTable i, s.holds dev block bf = false

theorem holds_iff {s : State α} {dev : Int} {block bf : Nat} :
    s.holds dev block bf = true ↔ (s.buf bf).dev = dev ∧ (s.buf bf).block = block := by
  simp only [State.holds, Bool.and_eq_true, beq_iff_eq]

/-! ## 2. What the small steps keep -/

section Steps

variable {s s' : State α} {run : Option Nat} {t bf : Nat} {b : Buffer α}

@[simp] theorem setBuf_self : (s.setBuf bf b).buf bf = b := Function.update_self ..

theorem setBuf_of_ne {bf' : Nat} (h : bf' ≠ bf) : (s.setBuf bf b).buf bf' = s.buf bf' :=
  Function.update_of_ne h ..

theorem waiters_setBuf (hw : b.lock.waiters = (s.buf bf).lock.waiters) (bf' : Nat) :
    ((s.setBuf bf b).buf bf').lock.waiters = (s.buf bf').lock.waiters := by
  by_cases e : bf' = bf
  · rw [e, setBuf_self, hw]
  · rw [setBuf_of_ne e]

/-- The table depends on the chains and on the blocks of the buffers in them. -/
theorem Table.congr (h : Table s) (hp : s'.bufferPtr = s.bufferPtr)
    (hn : s'.bufferCount = s.bufferCount) (hc : s'.hashTable = s.hashTable)
    (hk : ∀ i, ∀ bf ∈ s.hashTable i,
      (s'.buf bf).dev = (s.buf bf).dev ∧ (s'.buf bf).block = (s.buf bf).block) : Table s' where
  top := by rw [hp, hn]; exact h.top
  made := fun i bf hm => by
    rw [hc] at hm
    rw [State.Made, hn]
    exact h.made i bf hm
  home := fun i bf hm => by
    rw [hc] at hm
    rw [(hk i bf hm).1, (hk i bf hm).2]
    exact h.home i bf hm
  nodup := fun i => by rw [hc]; exact h.nodup i
  unique := fun i j x y hx hy hd hb => by
    rw [hc] at hx hy
    rw [(hk i x hx).1, (hk j y hy).1] at hd
    rw [(hk i x hx).2, (hk j y hy).2] at hb
    exact h.unique i j x y hx hy hd hb

theorem Table.setBuf (h : Table s)
    (hk : (b.dev = (s.buf bf).dev ∧ b.block = (s.buf bf).block) ∨ ∀ i, bf ∉ s.hashTable i) :
    Table (s.setBuf bf b) := by
  refine h.congr rfl rfl rfl fun i bf' hm => ?_
  by_cases e : bf' = bf
  · subst e
    rw [setBuf_self]
    exact hk.resolve_right fun hno => hno i hm
  · rw [setBuf_of_ne e]
    exact ⟨rfl, rfl⟩

/-- The sleepers depend on the tasks and on the waiting lists. -/
theorem Inv.congr (hi : Inv run s) (hT : Table s') (hn : s'.bufferCount = s.bufferCount)
    (hp : s'.pc = s.pc) (hr : s'.ready = s.ready) (hq : s'.node = s.node)
    (hw : ∀ bf, (s'.buf bf).lock.waiters = (s.buf bf).lock.waiters) : Inv run s' where
  toTable := hT
  asleep := by rw [hp, hr]; exact hi.asleep
  inside := fun u hu bf hm => by
    rw [hp] at hm
    rw [State.Made, hn]
    exact hi.inside u hu bf hm
  waits := fun bf hm u hu => by
    rw [State.Made, hn] at hm
    rw [hw] at hu
    obtain ⟨hne, hw⟩ := hi.waits bf hm u hu
    exact ⟨hne, by rw [hp]; exact hw.pc, by rw [hr]; exact hw.blocked, by rw [hq]; exact hw.node⟩
  once := fun bf hm => by
    rw [State.Made, hn] at hm
    rw [hw]
    exact hi.once bf hm

/-- A change of a buffer that keeps its block, or of a buffer in no chain, and keeps the waiting
    list of its lock. -/
theorem Inv.setBuf (hi : Inv run s)
    (hk : (b.dev = (s.buf bf).dev ∧ b.block = (s.buf bf).block) ∨ ∀ i, bf ∉ s.hashTable i)
    (hw : b.lock.waiters = (s.buf bf).lock.waiters) : Inv run (s.setBuf bf b) :=
  hi.congr (hi.toTable.setBuf hk) rfl rfl rfl rfl (waiters_setBuf hw)

/-- The running task stops at a program point that is not in `get_free_buffer`. -/
theorem Inv.setPc (hi : Inv (some t) s) {p : Pc} (hp : p.isAsleep = false)
    (hb : ∀ bf ∈ p.buffer, s.Made bf) : Inv none (s.setPc t p) where
  toTable := ⟨hi.top, hi.made, hi.home, hi.nodup, hi.unique⟩
  asleep := fun u _ ha => by
    by_cases e : u = t
    · subst e
      simp only [State.setPc, Function.update_self, hp, Bool.false_eq_true] at ha
    · simp only [State.setPc, Function.update_of_ne e] at ha ⊢
      exact hi.asleep u (fun h => e (Option.some.inj h)) ha
  inside := fun u _ bf hm => by
    by_cases e : u = t
    · subst e
      simp only [State.setPc, Function.update_self] at hm
      exact hb bf hm
    · simp only [State.setPc, Function.update_of_ne e] at hm
      exact hi.inside u (fun h => e (Option.some.inj h)) bf hm
  waits := fun bf hm u hu => by
    obtain ⟨hne, hp, hr, hn⟩ := hi.waits bf hm u hu
    have e : u ≠ t := fun h => hne (h ▸ rfl)
    exact ⟨nofun, by simp only [State.setPc, Function.update_of_ne e]; exact hp, hr, hn⟩
  once := hi.once

theorem Inv.leave (hi : Inv (some t) s) {r : Option Nat} : Inv none (s.leave t r) := by
  have h : Inv none (s.setPc t .out) := hi.setPc rfl nofun
  exact h.congr ⟨h.top, h.made, h.home, h.nodup, h.unique⟩ rfl rfl rfl rfl fun _ => rfl

/-- A task that is ready, or stands at no lock, is in no waiting list: it may run. -/
theorem Inv.resumed (hi : Inv none s) (ht : s.ready t = true ∨ ∀ bf, s.pc t ≠ .locking bf) : Inv (some t) s where
  toTable := hi.toTable
  asleep := fun u _ => hi.asleep u nofun
  inside := fun u _ => hi.inside u nofun
  waits := fun bf hm u hu => by
    obtain ⟨_, hw⟩ := hi.waits bf hm u hu
    refine ⟨fun e => ?_, hw⟩
    cases e
    rcases ht with h | h
    · rw [hw.blocked] at h
      cases h
    · exact h bf hw.pc
  once := hi.once

theorem waiters_setLock {l : Lock} (bf' : Nat) :
    ((s.setLock bf l).buf bf').lock.waiters =
      if bf' = bf then l.waiters else (s.buf bf').lock.waiters := by
  rw [State.setLock]
  by_cases e : bf' = bf
  · rw [e, setBuf_self, if_pos rfl]
  · rw [setBuf_of_ne e, if_neg e]

/-- A change of a lock that leaves its waiting list. -/
theorem Inv.setLock (hi : Inv run s) {l : Lock} (hw : l.waiters = (s.buf bf).lock.waiters) :
    Inv run (s.setLock bf l) :=
  hi.setBuf (.inl ⟨rfl, rfl⟩) hw

/-- The running task goes to sleep in `bread`, on the lock of `bf`. -/
theorem Inv.block_lock (hi : Inv (some t) s) (hb : s.Made bf)
    (h : taskBlock s t (.waiters bf) = .ok s') : Inv none (s'.setPc t (.locking bf)) := by
  obtain ⟨-, h⟩ := of_assert h
  cases h
  have old : ∀ bf', s.Made bf' → ∀ u ∈ (s.buf bf').lock.waiters, u ≠ t ∧ Waits s bf' u := by
    intro bf' hm u hu
    obtain ⟨hne, hw⟩ := hi.waits bf' hm u hu
    exact ⟨fun e => hne (e ▸ rfl), hw⟩
  have hT : Table (s.setLock bf { (s.buf bf).lock with waiters := t :: (s.buf bf).lock.waiters }) :=
    hi.toTable.setBuf (.inl ⟨rfl, rfl⟩)
  refine ⟨hT.congr rfl rfl rfl fun _ _ _ => ⟨rfl, rfl⟩, ⟨?_, ?_, ?_, ?_⟩⟩
  · intro u _ ha
    by_cases e : u = t
    · subst e
      simp only [State.setPc, Function.update_self] at ha
      cases ha
    · simp only [State.setPc, Function.update_of_ne e] at ha
      exact (Function.update_of_ne e ..).trans
        (hi.asleep u (fun h => e (Option.some.inj h)) ha)
  · intro u _ bf' hm
    by_cases e : u = t
    · subst e
      simp only [State.setPc, Function.update_self] at hm
      cases hm
      exact hb
    · simp only [State.setPc, Function.update_of_ne e] at hm
      exact hi.inside u (fun h => e (Option.some.inj h)) bf' hm
  · intro bf' hm u hu
    refine ⟨nofun, ?_⟩
    have hu' : u ∈ ((s.setLock bf { (s.buf bf).lock with
        waiters := t :: (s.buf bf).lock.waiters }).buf bf').lock.waiters := hu
    rw [waiters_setLock] at hu'
    by_cases e : u = t
    · subst e
      by_cases eb : bf' = bf
      · subst eb
        exact ⟨Function.update_self .., Function.update_self .., Function.update_self ..⟩
      · rw [if_neg eb] at hu'
        exact absurd rfl (old bf' hm u hu').1
    · have hm' : u ∈ (s.buf bf').lock.waiters := by
        split at hu'
        next eb => exact eb ▸ (List.mem_cons.mp hu').resolve_left e
        next => exact hu'
      obtain ⟨-, hp, hr, hn⟩ := old bf' hm u hm'
      refine ⟨?_, ?_, ?_⟩
      · exact (Function.update_of_ne e ..).trans hp
      · exact (Function.update_of_ne e ..).trans hr
      · exact (Function.update_of_ne e ..).trans hn
  · intro bf' hm
    show (((s.setLock bf _).buf bf').lock.waiters).Nodup
    rw [waiters_setLock]
    split
    next eb =>
      subst eb
      exact List.nodup_cons.mpr ⟨fun h => (old bf' hm t h).1 rfl, hi.once bf' hm⟩
    next => exact hi.once bf' hm

/-- `mutex_unlock` wakes a task in the waiting list of the lock of `bf`. -/
theorem Inv.unblock_lock (hi : Inv (some t) s) {w : Nat} (hb : s.Made bf)
    (hw : w ∈ (s.buf bf).lock.waiters) (h : taskUnblock s w = .ok s') :
    Inv (some t) s' ∧ s'.bufferCount = s.bufferCount := by
  obtain ⟨hne, hp, hr, hn⟩ := hi.waits bf hb w hw
  obtain ⟨s₁, h₁, h⟩ := ok_of_bind h
  cases h
  rw [listRemove, hn] at h₁
  cases h₁
  have hT : Table (s.setLock bf { (s.buf bf).lock with
      waiters := (s.buf bf).lock.waiters.erase w }) :=
    hi.toTable.setBuf (.inl ⟨rfl, rfl⟩)
  refine ⟨⟨hT.congr rfl rfl rfl fun _ _ _ => ⟨rfl, rfl⟩, ⟨?_, hi.inside, ?_, ?_⟩⟩, rfl⟩
  · intro u hu ha
    have e : u ≠ w := by
      rintro rfl
      have ha' : (s.pc u).isAsleep = true := ha
      rw [hp] at ha'
      cases ha'
    exact (Function.update_of_ne e ..).trans (hi.asleep u hu ha)
  · intro bf' hm u hu
    have hu' : u ∈ ((s.setLock bf { (s.buf bf).lock with
        waiters := (s.buf bf).lock.waiters.erase w }).buf bf').lock.waiters := hu
    rw [waiters_setLock] at hu'
    have hmem : u ∈ (s.buf bf').lock.waiters ∧ u ≠ w := by
      split at hu'
      next eb =>
        subst eb
        have := (hi.once bf' hb).mem_erase_iff.mp hu'
        exact ⟨this.2, this.1⟩
      next eb =>
        refine ⟨hu', ?_⟩
        rintro rfl
        have := (hi.waits bf' hm u hu').2.pc
        rw [hp] at this
        exact eb (Pc.locking.inj this).symm
    obtain ⟨hne', hp', hr', hn'⟩ := hi.waits bf' hm u hmem.1
    refine ⟨hne', hp', ?_, ?_⟩
    · exact (Function.update_of_ne hmem.2 ..).trans hr'
    · exact (Function.update_of_ne hmem.2 ..).trans hn'
  · intro bf' hm
    show (((s.setLock bf _).buf bf').lock.waiters).Nodup
    rw [waiters_setLock]
    split
    next => exact (hi.once bf hb).erase w
    next => exact hi.once bf' hm

/-- The running task goes to sleep in `get_free_buffer`. -/
theorem Inv.block_wait (hi : Inv (some t) s) {dev : Int} {block : Nat} {read : Bool}
    (h : taskBlock s t .waitList = .ok s') :
    Inv none (s'.setPc t (.asleep dev block read)) := by
  obtain ⟨-, h⟩ := of_assert h
  cases h
  refine ⟨⟨hi.top, hi.made, hi.home, hi.nodup, hi.unique⟩, ⟨?_, ?_, ?_, hi.once⟩⟩
  · intro u _ ha
    by_cases e : u = t
    · exact e ▸ Function.update_self ..
    · simp only [State.setPc, Function.update_of_ne e] at ha ⊢
      exact hi.asleep u (fun h => e (Option.some.inj h)) ha
  · intro u _ bf hm
    by_cases e : u = t
    · subst e
      simp only [State.setPc, Function.update_self] at hm
      cases hm
    · simp only [State.setPc, Function.update_of_ne e] at hm
      exact hi.inside u (fun h => e (Option.some.inj h)) bf hm
  · intro bf hm u hu
    obtain ⟨hne, hp, hr, hn⟩ := hi.waits bf hm u hu
    have e : u ≠ t := fun h => hne (h ▸ rfl)
    refine ⟨nofun, ?_, ?_, ?_⟩
    · exact (Function.update_of_ne e ..).trans hp
    · exact (Function.update_of_ne e ..).trans hr
    · exact (Function.update_of_ne e ..).trans hn

end Steps

/-! ## 3. What the calls keep -/

section Calls

variable {s s' : State α} {run : Option Nat} {t bf : Nat}

/-- `brelse` and a sleeper: the node `list_popback` has unlinked, `task_unblock` cannot unlink. -/
theorem taskUnblock_unlinked {s₁ : State α} {w : Nat} (h : listRemove s w = .ok s₁) :
    taskUnblock s₁ w = .error .assertion := by
  have hn : s₁.node w = none := by
    unfold listRemove at h
    split at h
    next => cases h
    next q _ =>
      cases q with
      | waitList => cases h; exact Function.update_self ..
      | waiters bf => cases h; exact Function.update_self ..
  rw [taskUnblock, listRemove, hn]
  rfl

theorem mutexUnlock_inv (hi : Inv (some t) s) (hb : s.Made bf)
    (h : mutexUnlock s t bf = .ok s') : Inv none s' := by
  obtain ⟨-, h⟩ := of_assert h
  have hi₁ : Inv (some t) (s.setLock bf { (s.buf bf).lock with value := false }) := hi.setLock rfl
  dsimp only at h
  split at h
  next =>
    cases h
    exact hi₁.leave
  next w hw =>
    obtain ⟨s₁, h₁, h⟩ := ok_of_bind h
    cases h
    have hmem : w ∈ ((s.setLock bf { (s.buf bf).lock with value := false }).buf bf).lock.waiters := by
      rw [waiters_setLock, if_pos rfl]
      exact List.mem_of_getLast? hw
    obtain ⟨hi₂, hn⟩ := hi₁.unblock_lock hb hmem h₁
    refine hi₂.setPc rfl fun bf' hm => ?_
    cases hm
    rw [State.Made, hn]
    exact hb

theorem lockRelease_inv (hi : Inv (some t) s) (hb : s.Made bf)
    (h : lockRelease s t bf = .ok s') : Inv none s' := by
  obtain ⟨-, h⟩ := of_assert h
  split at h
  · cases h
    refine Inv.leave ?_
    exact hi.setLock rfl
  · obtain ⟨-, h⟩ := of_assert h
    refine mutexUnlock_inv ?_ ?_ h
    · exact hi.setLock rfl
    · exact hb

theorem breadLocked_inv (hi : Inv (some t) s) (hb : s.Made bf)
    (h : breadLocked s t bf = .ok s') : Inv none s' := by
  unfold breadLocked at h
  dsimp only at h
  split at h
  · exact lockRelease_inv hi hb h
  · obtain ⟨r, -, h⟩ := ok_of_bind h
    cases h
    exact hi.setPc rfl fun bf' hm => Option.some.inj hm ▸ hb

theorem lockTake_inv (hi : Inv (some t) s) (hb : s.Made bf)
    (h : lockTake s t bf = .ok s') : Inv none s' := by
  unfold lockTake at h
  dsimp only at h
  split at h
  · obtain ⟨s₁, h₁, h⟩ := ok_of_bind h
    cases h
    exact hi.block_lock hb h₁
  · obtain ⟨-, h⟩ := of_assert h
    refine breadLocked_inv ?_ ?_ h
    · exact hi.setLock rfl
    · exact hb

theorem gotBlock_inv (hi : Inv (some t) s) (hb : s.Made bf) {read : Bool}
    (h : gotBlock s t bf read = .ok s') : Inv none s' := by
  unfold gotBlock at h
  dsimp only at h
  split at h
  · cases h
    exact hi.leave
  · split at h
    · refine breadLocked_inv ?_ ?_ h
      · exact hi.setLock rfl
      · exact hb
    · exact lockTake_inv hi hb h

/-- `hash_locate` of a buffer that is in no chain, when no other is assigned to its block. -/
theorem hashLocate_inv (hi : Inv run s) (hb : s.Made bf) (hno : ∀ i, bf ∉ s.hashTable i)
    (hmiss : Miss s (s.buf bf).dev (s.buf bf).block) (h : hashLocate s bf = .ok s') :
    Inv run s' ∧ s'.Made bf := by
  obtain ⟨-, h⟩ := of_assert h
  cases h
  have cases_mem : ∀ i, ∀ x ∈ Function.update s.hashTable (hash (s.buf bf).dev (s.buf bf).block)
      (bf :: s.hashTable (hash (s.buf bf).dev (s.buf bf).block)) i,
      (x = bf ∧ i = hash (s.buf bf).dev (s.buf bf).block) ∨ x ∈ s.hashTable i := by
    intro i x hx
    by_cases e : i = hash (s.buf bf).dev (s.buf bf).block
    · rw [e, Function.update_self] at hx
      rcases List.mem_cons.mp hx with hx | hx
      · exact .inl ⟨hx, e⟩
      · exact .inr (e ▸ hx)
    · rw [Function.update_of_ne e] at hx
      exact .inr hx
  have other : ∀ i, ∀ x ∈ s.hashTable i, ¬ ((s.buf bf).dev = (s.buf x).dev ∧
      (s.buf bf).block = (s.buf x).block) := by
    intro i x hx hk
    have hm := hmiss i x hx
    rw [Bool.eq_false_iff] at hm
    exact hm (holds_iff.mpr ⟨hk.1.symm, hk.2.symm⟩)
  refine ⟨hi.congr ⟨hi.top, ?_, ?_, ?_, ?_⟩ rfl rfl rfl rfl fun _ => rfl, hb⟩
  · intro i x hx
    rcases cases_mem i x hx with ⟨rfl, -⟩ | hx
    · exact hb
    · exact hi.made i x hx
  · intro i x hx
    rcases cases_mem i x hx with ⟨rfl, e⟩ | hx
    · exact e
    · exact hi.home i x hx
  · intro i
    show (Function.update s.hashTable _ _ i).Nodup
    by_cases e : i = hash (s.buf bf).dev (s.buf bf).block
    · rw [e, Function.update_self]
      exact List.nodup_cons.mpr ⟨hno _, hi.nodup _⟩
    · rw [Function.update_of_ne e]
      exact hi.nodup i
  · intro i j x y hx hy hd hbl
    rcases cases_mem i x hx with ⟨rfl, -⟩ | hx'
    · rcases cases_mem j y hy with ⟨rfl, -⟩ | hy'
      · rfl
      · exact absurd ⟨hd, hbl⟩ (other j y hy')
    · rcases cases_mem j y hy with ⟨rfl, -⟩ | hy'
      · exact absurd ⟨hd.symm, hbl.symm⟩ (other i x hx')
      · exact hi.unique i j x y hx' hy' hd hbl

/-- With one buffer more, the buffers are the old ones and the one at `buffer_ptr`. -/
theorem made_succ (hT : Table s) (x : Nat) :
    (∃ i < s.bufferCount + 1, x = KERNEL_BUFFER_MEM + sizeofBuffer * i) ↔
      s.Made x ∨ x = s.bufferPtr := by
  constructor
  · rintro ⟨i, hlt, e⟩
    rcases Nat.lt_succ_iff_lt_or_eq.mp hlt with hlt | rfl
    · exact .inl ⟨i, hlt, e⟩
    · exact .inr (e.trans hT.top.symm)
  · rintro (⟨i, hlt, e⟩ | e)
    · exact ⟨i, Nat.lt_succ_of_lt hlt, e⟩
    · exact ⟨_, Nat.lt_succ_self _, e.trans hT.top⟩

theorem Table.made_ne (hT : Table s) {x : Nat} (hx : s.Made x) : x ≠ s.bufferPtr := by
  obtain ⟨i, hlt, rfl⟩ := hx
  have := hT.top
  unfold sizeofBuffer at this
  unfold sizeofBuffer
  omega

/-- `get_new_buffer`: the buffer lies behind all that exist. -/
theorem getNewBuffer_inv (hi : Inv run s) (h : getNewBuffer s = some (bf, s')) :
    Inv run s' ∧ s'.Made bf ∧ s'.hashTable = s.hashTable ∧ (∀ i, bf ∉ s.hashTable i) ∧
    ∀ i, ∀ x ∈ s.hashTable i, s'.buf x = s.buf x := by
  unfold getNewBuffer at h
  split at h
  case isFalse => cases h
  cases h
  have hT := hi.toTable
  have hno : ∀ i, s.bufferPtr ∉ s.hashTable i := fun i hm => hT.made_ne (hi.made i _ hm) rfl
  have hT' : Table (s.setBuf s.bufferPtr { s.buf s.bufferPtr with
      dataPtr := s.bufferData, dev := devEOF, block := 0, count := 0, dirty := false
      valid := false, lock := ⟨none, 0, false, []⟩ }) := hT.setBuf (.inr hno)
  refine ⟨⟨⟨?_, fun i x hx => (made_succ hT x).mpr (.inl (hi.made i x hx)), hT'.home, hi.nodup,
    hT'.unique⟩, ⟨hi.asleep, fun u hu x hx => (made_succ hT x).mpr (.inl (hi.inside u hu x hx)),
    ?_, ?_⟩⟩, (made_succ hT _).mpr (.inr rfl), rfl, hno,
    fun i x hx => setBuf_of_ne (hT.made_ne (hi.made i x hx))⟩
  · show s.bufferPtr + sizeofBuffer = _ + sizeofBuffer * (s.bufferCount + 1)
    have := hT.top
    unfold sizeofBuffer at this ⊢
    omega
  · intro x hx u hu
    rcases (made_succ hT x).mp hx with hm | rfl
    · have hu' : u ∈ ((s.setBuf s.bufferPtr _).buf x).lock.waiters := hu
      rw [setBuf_of_ne (hT.made_ne hm)] at hu'
      obtain ⟨hne, hp, hr, hn⟩ := hi.waits x hm u hu'
      exact ⟨hne, hp, hr, hn⟩
    · have hu' : u ∈ ((s.setBuf s.bufferPtr _).buf s.bufferPtr).lock.waiters := hu
      rw [setBuf_self] at hu'
      cases hu'
  · intro x hx
    show ((s.setBuf s.bufferPtr _).buf x).lock.waiters.Nodup
    rcases (made_succ hT x).mp hx with hm | rfl
    · rw [setBuf_of_ne (hT.made_ne hm)]
      exact hi.once x hm
    · rw [setBuf_self]
      exact List.nodup_nil

/-- `hash_remove`: the buffer is in no chain any more. -/
theorem hashRemove_inv (hi : Inv run s) (h : hashRemove s bf = .ok s') :
    Inv run s' ∧ s'.Made bf ∧ (∀ i, bf ∉ s'.hashTable i) ∧ s'.buf = s.buf ∧
    ∀ i, ∀ x ∈ s'.hashTable i, x ∈ s.hashTable i := by
  obtain ⟨hin, h⟩ := of_assert h
  have hin := of_decide_eq_true hin
  cases h
  have sub : ∀ i, ∀ x ∈ Function.update s.hashTable (hash (s.buf bf).dev (s.buf bf).block)
      ((s.hashTable (hash (s.buf bf).dev (s.buf bf).block)).erase bf) i, x ∈ s.hashTable i := by
    intro i x hx
    by_cases e : i = hash (s.buf bf).dev (s.buf bf).block
    · rw [e, Function.update_self] at hx
      exact e ▸ List.mem_of_mem_erase hx
    · rw [Function.update_of_ne e] at hx
      exact hx
  refine ⟨hi.congr ⟨hi.top, fun i x hx => hi.made i x (sub i x hx),
    fun i x hx => hi.home i x (sub i x hx), ?_,
    fun i j x y hx hy => hi.unique i j x y (sub i x hx) (sub j y hy)⟩ rfl rfl rfl rfl fun _ => rfl,
    hi.made _ _ hin, ?_, rfl, sub⟩
  · intro i
    show (Function.update s.hashTable _ _ i).Nodup
    by_cases e : i = hash (s.buf bf).dev (s.buf bf).block
    · rw [e, Function.update_self]
      exact (hi.nodup _).erase bf
    · rw [Function.update_of_ne e]
      exact hi.nodup i
  · intro i hm
    have e : i = hash (s.buf bf).dev (s.buf bf).block := hi.home i bf (sub i bf hm)
    have hm' : bf ∈ Function.update s.hashTable (hash (s.buf bf).dev (s.buf bf).block)
      ((s.hashTable (hash (s.buf bf).dev (s.buf bf).block)).erase bf) i := hm
    rw [e, Function.update_self] at hm'
    exact (hi.nodup _).not_mem_erase hm'

theorem Inv.setFree (hi : Inv run s) (l : List Nat) : Inv run { s with freeList := l } :=
  hi.congr ⟨hi.top, hi.made, hi.home, hi.nodup, hi.unique⟩ rfl rfl rfl rfl fun _ => rfl

/-- **What `get_free_buffer` hands out** exists and is in no chain, and the chains have got no
    other buffer. -/
theorem getFreeBuffer_inv (hi : Inv run s) (h : getFreeBuffer s = .ok (some (bf, s'))) :
    Inv run s' ∧ s'.Made bf ∧ (∀ i, bf ∉ s'.hashTable i) ∧
    ∀ i, ∀ x ∈ s'.hashTable i, x ∈ s.hashTable i ∧ s'.buf x = s.buf x := by
  unfold getFreeBuffer at h
  split at h
  next r hr =>
    cases h
    obtain ⟨hi', hm, hc, hno, hb⟩ := getNewBuffer_inv hi hr
    refine ⟨hi', hm, fun i => by rw [hc]; exact hno i, fun i x hx => ?_⟩
    rw [hc] at hx
    exact ⟨hx, hb i x hx⟩
  next =>
    split at h
    next => cases h
    next x _ =>
      obtain ⟨s₁, h₁, h⟩ := ok_of_bind h
      cases h
      obtain ⟨hi₁, hm, hno, hb, hsub⟩ := hashRemove_inv (hi.setFree _) h₁
      refine ⟨hi₁.setBuf (.inr hno) rfl, hm, hno, fun i y hy => ⟨hsub i y hy, ?_⟩⟩
      have e : y ≠ bf := by
        rintro rfl
        exact hno i hy
      rw [setBuf_of_ne e, hb]

/-- **`getblk` after a miss.** -/
theorem takeFree_inv (hi : Inv (some t) s) {dev : Int} {block : Nat} {read : Bool}
    (hmiss : Miss s dev block) (h : takeFree s t dev block read = .ok s') : Inv none s' := by
  obtain ⟨r, hr, h⟩ := ok_of_bind h
  cases r with
  | none =>
    obtain ⟨s₁, h₁, h⟩ := ok_of_bind h
    cases h
    exact hi.block_wait h₁
  | some r =>
    obtain ⟨bf, s₁⟩ := r
    obtain ⟨hi₁, hm, hno, hold⟩ := getFreeBuffer_inv hi hr
    obtain ⟨-, h⟩ := of_assert h
    obtain ⟨-, h⟩ := of_assert h
    obtain ⟨s₂, h₂, h⟩ := ok_of_bind h
    have hi₂ : Inv (some t) (s₁.setBuf bf { s₁.buf bf with
        count := 1, dev := dev, block := block }) := hi₁.setBuf (.inr hno) rfl
    have hmiss₂ : Miss (s₁.setBuf bf { s₁.buf bf with count := 1, dev := dev, block := block })
        dev block := by
      intro i x hx
      have e : x ≠ bf := by
        rintro rfl
        exact hno i hx
      rw [State.holds, setBuf_of_ne e, (hold i x hx).2]
      exact hmiss i x (hold i x hx).1
    obtain ⟨hi₃, hm₃⟩ := hashLocate_inv hi₂ hm hno (by rw [setBuf_self]; exact hmiss₂) h₂
    exact gotBlock_inv hi₃ hm₃ h

theorem getFromHashTable_miss (hi : Inv run s) {dev : Int} {block : Nat}
    (h : getFromHashTable s dev block = none) : Miss s dev block := by
  intro i bf hm
  rw [Bool.eq_false_iff]
  intro hk
  obtain ⟨hd, hb⟩ := holds_iff.mp hk
  have e := hi.home i bf hm
  rw [hd, hb] at e
  unfold getFromHashTable at h
  split at h
  next hf => exact List.find?_eq_none.mp hf bf (e ▸ hm) hk
  next => split at h <;> cases h

theorem getFromHashTable_hit (hi : Inv run s) {dev : Int} {block : Nat}
    (h : getFromHashTable s dev block = some (bf, s')) : Inv run s' ∧ s'.Made bf := by
  unfold getFromHashTable at h
  split at h
  next => cases h
  next x hf =>
    have hm := hi.made _ _ (List.mem_of_find?_eq_some hf)
    split at h
    · cases h
      exact ⟨hi.setFree _, hm⟩
    · cases h
      exact ⟨hi, hm⟩

theorem getBlock_inv (hi : Inv (some t) s) {dev : Int} {block : Nat} {read : Bool}
    (h : getBlock s t dev block read = .ok s') : Inv none s' := by
  unfold getBlock at h
  split at h
  next bf s₁ hs =>
    obtain ⟨hi₁, hm⟩ := getFromHashTable_hit hi hs
    have hi₂ : Inv (some t) (s₁.setBuf bf { s₁.buf bf with count := (s₁.buf bf).count + 1 }) :=
      hi₁.setBuf (.inl ⟨rfl, rfl⟩) rfl
    exact gotBlock_inv hi₂ hm h
  next hs => exact takeFree_inv hi (getFromHashTable_miss hi hs) h

theorem release_inv (hi : Inv (some t) s) (h : release s t bf = .ok s') : Inv none s' := by
  obtain ⟨-, h⟩ := of_assert h
  have hi₁ : Inv (some t) (s.setBuf bf { s.buf bf with count := (s.buf bf).count - 1 }) :=
    hi.setBuf (.inl ⟨rfl, rfl⟩) rfl
  split at h
  · cases h
    exact hi₁.leave
  · obtain ⟨-, h⟩ := of_assert h
    dsimp only at h
    split at h
    next =>
      cases h
      exact Inv.leave (hi₁.setFree _)
    next w _ =>
      obtain ⟨s₁, h₁, h⟩ := ok_of_bind h
      obtain ⟨s₂, h₂, -⟩ := ok_of_bind h
      rw [taskUnblock_unlinked h₁] at h₂
      cases h₂

theorem written_inv (hi : Inv (some t) s) {rel : Bool} (h : written s t bf rel = .ok s') :
    Inv none s' := by
  unfold written at h
  split at h
  · exact release_inv hi h
  · cases h
    exact hi.leave

theorem write_inv (hi : Inv (some t) s) (hb : s.Made bf) {rel : Bool}
    (h : write s t bf rel = .ok s') : Inv none s' := by
  unfold write at h
  dsimp only at h
  split at h
  · obtain ⟨r, -, h⟩ := ok_of_bind h
    cases h
    exact hi.setPc rfl fun bf' hm => Option.some.inj hm ▸ hb
  · exact written_inv hi h

end Calls

/-! ## 4. Every run -/

section Runs

variable {s s' : State α}

theorem start_inv (hi : Inv none s) {t : Nat} {c : Call α} (hpc : s.pc t = .out)
    (hbf : ∀ bf ∈ c.target, s.Made bf) (h : start s t c = .ok s') : Inv none s' := by
  have hr : Inv (some t) s := hi.resumed (.inr fun bf e => by rw [hpc] at e; cases e)
  cases c with
  | getblk dev block => exact getBlock_inv hr h
  | bread dev block => exact getBlock_inv hr h
  | touch bf data =>
    cases h
    refine Inv.setBuf hi (.inl ⟨?_, ?_⟩) ?_ <;> rfl
  | bwrite bf => exact write_inv hr (hbf bf rfl) h
  | brelse bf => exact write_inv hr (hbf bf rfl) h

theorem resume_inv (hi : Inv none s) {t : Nat} (hrun : runnable s t = true)
    (h : resume s t = .ok s') : Inv none s' := by
  have inside := hi.inside t nofun
  unfold runnable at hrun
  unfold resume at h
  cases hpc : s.pc t with
  | out =>
    rw [hpc] at hrun
    cases hrun
  | asleep dev block read =>
    -- nobody has made it ready
    rw [hpc] at hrun
    have := hi.asleep t nofun (by rw [hpc]; rfl)
    rw [this] at hrun
    cases hrun
  | locking bf =>
    rw [hpc] at hrun h inside
    exact lockTake_inv (hi.resumed (.inl hrun)) (inside bf rfl) h
  | reading bf r done =>
    rw [hpc] at h inside
    have hr : Inv (some t) s := hi.resumed (.inr fun bf e => by rw [hpc] at e; cases e)
    dsimp only at h
    split at h
    next =>
      obtain ⟨-, -, h⟩ := ok_of_bind h
      cases h
      refine Inv.setPc ?_ rfl fun x hm => Option.some.inj hm ▸ inside bf rfl
      refine hr.setBuf (.inl ⟨?_, ?_⟩) ?_ <;> rfl
    next =>
      refine lockRelease_inv ?_ ?_ h
      · refine hr.setBuf (.inl ⟨?_, ?_⟩) ?_ <;> rfl
      · exact inside bf rfl
  | yielding bf =>
    rw [hpc] at h
    have hr : Inv (some t) s := hi.resumed (.inr fun bf e => by rw [hpc] at e; cases e)
    cases h
    exact hr.leave
  | writing bf r done rel =>
    rw [hpc] at h inside
    have hr : Inv (some t) s := hi.resumed (.inr fun bf e => by rw [hpc] at e; cases e)
    dsimp only at h
    split at h
    next =>
      obtain ⟨-, -, h⟩ := ok_of_bind h
      cases h
      have hd : ∀ d, Inv (some t) { s with disk := d } := fun d =>
        hr.congr ⟨hr.top, hr.made, hr.home, hr.nodup, hr.unique⟩ rfl rfl rfl rfl fun _ => rfl
      exact (hd _).setPc rfl fun x hm => Option.some.inj hm ▸ inside bf rfl
    next =>
      refine written_inv ?_ h
      refine hr.setBuf (.inl ⟨?_, ?_⟩) ?_ <;> rfl

/-- **The invariant holds in every reachable state.** -/
theorem reachable_inv (h : Reachable s) : Inv none s := by
  induction h with
  | init buf devices disk => exact inv_init buf devices disk
  | step _ hs ih =>
    cases hs with
    | call t c hpc hbf h => exact start_inv ih hpc hbf h
    | resume t hrun h => exact resume_inv ih hrun h

/-- The buffers in the hash table, chain after chain. -/
def hashed (s : State α) : List Nat := (List.range HASH_COUNT).flatMap s.hashTable

theorem hashed_nodup (hT : Table s) : (hashed s).Nodup := by
  refine List.nodup_flatMap.mpr ⟨fun i _ => hT.nodup i, ?_⟩
  refine List.nodup_range.imp fun {i j} hne => ?_
  intro bf hi hj
  exact hne ((hT.home i bf hi).trans (hT.home j bf hj).symm)

/-- **At most one buffer in the hash table is assigned to a block**, in every reachable state. -/
theorem hashTable_unique (h : Reachable s) (dev : Int) (block : Nat) :
    ((hashed s).filter (s.holds dev block)).length ≤ 1 := by
  have hT := (reachable_inv h).toTable
  have hnd := (hashed_nodup hT).filter (s.holds dev block)
  rcases hl : (hashed s).filter (s.holds dev block) with _ | ⟨a, _ | ⟨b, l⟩⟩
  · exact Nat.zero_le _
  · exact Nat.le_refl _
  · -- two of them are one
    have mem : ∀ x, x ∈ a :: b :: l → (∃ i, x ∈ s.hashTable i) ∧ s.holds dev block x = true := by
      intro x hx
      rw [← hl] at hx
      obtain ⟨hx, hk⟩ := List.mem_filter.mp hx
      obtain ⟨i, -, hx⟩ := List.mem_flatMap.mp hx
      exact ⟨⟨i, hx⟩, hk⟩
    obtain ⟨⟨i, ha⟩, hka⟩ := mem a (List.mem_cons_self ..)
    obtain ⟨⟨j, hb⟩, hkb⟩ := mem b (List.mem_cons_of_mem _ (List.mem_cons_self ..))
    obtain ⟨hda, hba⟩ := holds_iff.mp hka
    obtain ⟨hdb, hbb⟩ := holds_iff.mp hkb
    have e := hT.unique i j a b ha hb (hda.trans hdb.symm) (hba.trans hbb.symm)
    rw [hl, e] at hnd
    exact absurd (List.mem_cons_self ..) (List.nodup_cons.mp hnd).1

/-- A buffer as the memory happens to be. -/
def blankBuffer : Buffer Nat := ⟨0, fun _ => 0, 0, 0, 0, ⟨none, 0, false, []⟩, false, false⟩

/-- Two tasks have asked for blocks 5 and 38 of device 3, which are in one chain, and both for block
    5: the table holds one buffer for each. -/
theorem hashTable_unique_two : ∃ s : State Nat, Reachable s ∧
    hashed s = [KERNEL_BUFFER_MEM + sizeofBuffer, KERNEL_BUFFER_MEM] ∧
    ((hashed s).filter (s.holds 3 5)).length ≤ 1 ∧ (s.buf KERNEL_BUFFER_MEM).count = 2 := by
  have h₀ : Reachable (init (fun _ => blankBuffer) (fun _ => none) fun _ => 0) := .init _ _ _
  have h₁ := h₀.step (.call 0 (.getblk 3 5) rfl nofun rfl)
  have h₂ := h₁.step (.call 1 (.getblk 3 38) rfl nofun rfl)
  have h₃ := h₂.step (.call 1 (.getblk 3 5) rfl nofun rfl)
  exact ⟨_, h₃, by decide, hashTable_unique h₃ 3 5, by decide⟩

end Runs

end Yuios.BufferCache
