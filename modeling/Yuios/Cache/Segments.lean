/-
  File:      Yuios/Cache/Segments.lean
  Subject:   WHAT A TASK DOES BETWEEN TWO BLOCKING POINTS: every segment of a call as one change of
             the cache, and the program point it ends at.

  * `Moved s s' t p` -- nothing but the queues has changed, and task `t` stands at `p`.
  * `lockRelease_moved`, `gotBlock_moved`, `release_moved`, ... -- what a segment has done, as an
    explicit state and a `Moved` from there.
  * `Assigned` -- the buffer `getblk` has taken after a miss: a new one, or the last of the free
    list.
-/
import Yuios.Cache.Unique

namespace Yuios.BufferCache

open Kernel

variable {α : Type}

/-! ## 1. The queues -/

/-- Nothing has changed but what the tasks' queues say. -/
structure Quiet (s s' : State α) : Prop where
  bufferCount : s'.bufferCount = s.bufferCount
  freeList : s'.freeList = s.freeList
  hashTable : s'.hashTable = s.hashTable
  devices : s'.devices = s.devices
  disk : s'.disk = s.disk
  pc : s'.pc = s.pc
  buf : ∀ x, ∃ l, s'.buf x = { s.buf x with lock := { (s.buf x).lock with waiters := l } }

/-- Nothing has changed but the queues and where task `t` stands. -/
structure Moved (s s' : State α) (t : Nat) (p : Pc) : Prop where
  bufferCount : s'.bufferCount = s.bufferCount
  freeList : s'.freeList = s.freeList
  hashTable : s'.hashTable = s.hashTable
  devices : s'.devices = s.devices
  disk : s'.disk = s.disk
  pc : s'.pc = Function.update s.pc t p
  buf : ∀ x, ∃ l, s'.buf x = { s.buf x with lock := { (s.buf x).lock with waiters := l } }

section Queues

variable {s s' : State α} {t : Nat} {q : Queue} {p : Pc}

theorem Quiet.refl (s : State α) : Quiet s s := ⟨rfl, rfl, rfl, rfl, rfl, rfl, fun _ => ⟨_, rfl⟩⟩

theorem Quiet.setPc (h : Quiet s s') : Moved s (s'.setPc t p) t p := by
  refine ⟨h.bufferCount, h.freeList, h.hashTable, h.devices, h.disk, ?_, h.buf⟩
  rw [← h.pc]
  rfl

theorem Quiet.leave {r : Option Nat} (h : Quiet s s') : Moved s (s'.leave t r) t .out := by
  refine ⟨h.bufferCount, h.freeList, h.hashTable, h.devices, h.disk, ?_, h.buf⟩
  rw [← h.pc]
  rfl

theorem quiet_setLock (s : State α) (bf : Nat) (l : List Nat) :
    Quiet s (s.setLock bf { (s.buf bf).lock with waiters := l }) := by
  refine ⟨rfl, rfl, rfl, rfl, rfl, rfl, fun x => ?_⟩
  by_cases e : x = bf
  · subst e
    exact ⟨l, setBuf_self⟩
  · exact ⟨_, setBuf_of_ne e⟩

theorem taskBlock_quiet (h : taskBlock s t q = .ok s') : Quiet s s' := by
  obtain ⟨-, h⟩ := of_assert h
  cases q with
  | waitList =>
    cases h
    exact ⟨rfl, rfl, rfl, rfl, rfl, rfl, fun _ => ⟨_, rfl⟩⟩
  | waiters bf =>
    cases h
    have := quiet_setLock s bf (t :: (s.buf bf).lock.waiters)
    exact ⟨this.bufferCount, this.freeList, this.hashTable, this.devices, this.disk, this.pc, this.buf⟩

theorem taskUnblock_quiet (h : taskUnblock s t = .ok s') : Quiet s s' := by
  obtain ⟨s₁, h₁, h⟩ := ok_of_bind h
  cases h
  unfold listRemove at h₁
  split at h₁
  next => cases h₁
  next q _ =>
    cases q with
    | waitList =>
      cases h₁
      exact ⟨rfl, rfl, rfl, rfl, rfl, rfl, fun _ => ⟨_, rfl⟩⟩
    | waiters bf =>
      cases h₁
      have := quiet_setLock s bf ((s.buf bf).lock.waiters.erase t)
      exact ⟨this.bufferCount, this.freeList, this.hashTable, this.devices, this.disk, this.pc, this.buf⟩

end Queues

/-! ## 2. The lock of a buffer -/

namespace State

/-- Task `t` holds the lock of `bf`. -/
def lockBy (s : State α) (t bf : Nat) : State α :=
  s.setLock bf { (s.buf bf).lock with value := true, holder := some t, depth := 1 }

/-- Nobody holds it. -/
def unlock (s : State α) (bf : Nat) : State α :=
  s.setLock bf { (s.buf bf).lock with value := false, holder := none, depth := 0 }

end State

section Lock

variable {s s' : State α} {t bf : Nat}

/-- The end of `bread`: the lock is free, and the task returns, at once or after it has yielded. -/
theorem lockRelease_moved (hd : (s.buf bf).lock.depth = 1) (h : lockRelease s t bf = .ok s') :
    (Moved (s.unlock bf) s' t .out ∧ s'.ret t = some bf) ∨ Moved (s.unlock bf) s' t (.yielding bf) := by
  obtain ⟨-, h⟩ := of_assert h
  rw [hd, if_neg (Nat.lt_irrefl 1)] at h
  obtain ⟨-, h⟩ := of_assert h
  obtain ⟨-, h⟩ := of_assert h
  have hq : Quiet (s.unlock bf) ((s.setLock bf { (s.buf bf).lock with holder := none, depth := 0 }).setLock
      bf { ((s.setLock bf { (s.buf bf).lock with holder := none, depth := 0 }).buf bf).lock with
        value := false }) := by
    refine ⟨rfl, rfl, rfl, rfl, rfl, rfl, fun x => ⟨((s.unlock bf).buf x).lock.waiters, ?_⟩⟩
    unfold State.unlock State.setLock
    by_cases e : x = bf
    · subst e
      rw [setBuf_self, setBuf_self, setBuf_self]
    · rw [setBuf_of_ne e, setBuf_of_ne e, setBuf_of_ne e]
  dsimp only at h
  split at h
  next =>
    cases h
    exact .inl ⟨hq.leave, Function.update_self ..⟩
  next w _ =>
    obtain ⟨s₁, h₁, h⟩ := ok_of_bind h
    cases h
    have h₁ := taskUnblock_quiet h₁
    refine .inr (Quiet.setPc ⟨h₁.bufferCount, h₁.freeList, h₁.hashTable, h₁.devices, h₁.disk, h₁.pc, fun x => ?_⟩)
    obtain ⟨l, e⟩ := h₁.buf x
    obtain ⟨l', e'⟩ := hq.buf x
    exact ⟨l, by rw [e, e']⟩

/-- A task that comes to the lock of a buffer: it waits, or finds the buffer valid and goes, or
    reads it. -/
theorem lockTake_moved (hfree : (s.buf bf).lock.value = false → (s.buf bf).lock.holder = none)
    (h : lockTake s t bf = .ok s') :
    ((s.buf bf).lock.value = true ∧ Moved s s' t (.locking bf)) ∨
    ((s.buf bf).lock.value = false ∧ (s.buf bf).valid = true ∧
      ((Moved s s' t .out ∧ s'.ret t = some bf) ∨ Moved s s' t (.yielding bf))) ∨
    ((s.buf bf).lock.value = false ∧ (s.buf bf).valid = false ∧
      ∃ r, deviceRequest s.devices (s.buf bf).dev (s.buf bf).block = .ok r ∧
        Moved (s.lockBy t bf) s' t (.reading bf r 0)) := by
  unfold lockTake at h
  dsimp only at h
  cases hv : (s.buf bf).lock.value with
  | true =>
    rw [hv, if_pos rfl] at h
    obtain ⟨s₁, h₁, h⟩ := ok_of_bind h
    cases h
    exact .inl ⟨rfl, (taskBlock_quiet h₁).setPc⟩
  | false =>
    rw [hv, if_neg Bool.false_ne_true] at h
    obtain ⟨hdepth, h⟩ := of_assert h
    have hdepth : (s.buf bf).lock.depth = 0 := beq_iff_eq.mp hdepth
    unfold breadLocked at h
    dsimp only at h
    have hbuf : (s.lockBy t bf).buf bf = { s.buf bf with
        lock := { (s.buf bf).lock with value := true, holder := some t, depth := 1 } } :=
      setBuf_self
    rw [show s.setLock bf _ = s.lockBy t bf from rfl, hbuf] at h
    cases hvalid : (s.buf bf).valid with
    | false =>
      rw [hvalid, if_neg Bool.false_ne_true] at h
      obtain ⟨r, hr, h⟩ := ok_of_bind h
      cases h
      exact .inr (.inr ⟨rfl, rfl, r, hr, (Quiet.refl _).setPc⟩)
    | true =>
      rw [hvalid, if_pos rfl] at h
      -- the lock is taken and given back
      have hq : ∀ p, Moved ((s.lockBy t bf).unlock bf) s' t p → Moved s s' t p := by
        refine fun p hm => ⟨hm.bufferCount, hm.freeList, hm.hashTable, hm.devices, hm.disk, hm.pc, fun x => ?_⟩
        obtain ⟨l, e⟩ := hm.buf x
        refine ⟨l, e.trans ?_⟩
        by_cases ex : x = bf
        · subst ex
          rw [State.unlock, State.setLock, setBuf_self, hbuf, ← hfree hv, ← hdepth, ← hv]
        · rw [State.unlock, State.setLock, setBuf_of_ne ex, State.lockBy, State.setLock,
            setBuf_of_ne ex]
      refine .inr (.inl ⟨rfl, rfl, ?_⟩)
      rcases lockRelease_moved (by rw [hbuf]) h with ⟨hm, hr⟩ | hm
      · exact .inl ⟨hq _ hm, hr⟩
      · exact .inr (hq _ hm)

/-- What follows `getblk` in `bread`. -/
theorem gotBlock_moved (hfree : (s.buf bf).lock.value = false → (s.buf bf).lock.holder = none)
    (hme : (s.buf bf).lock.holder ≠ some t) (h : gotBlock s t bf true = .ok s') :
    ((s.buf bf).valid = true ∧ Moved s s' t .out ∧ s'.ret t = some bf) ∨
    ((s.buf bf).valid = false ∧ (s.buf bf).lock.value = true ∧ Moved s s' t (.locking bf)) ∨
    ((s.buf bf).lock.value = false ∧ (s.buf bf).valid = false ∧
      ∃ r, deviceRequest s.devices (s.buf bf).dev (s.buf bf).block = .ok r ∧
        Moved (s.lockBy t bf) s' t (.reading bf r 0)) := by
  unfold gotBlock at h
  dsimp only at h
  cases hv : (s.buf bf).valid with
  | true =>
    rw [hv] at h
    cases h
    exact .inl ⟨rfl, (Quiet.refl s).leave, Function.update_self ..⟩
  | false =>
    rw [hv, if_neg (by decide), if_neg hme] at h
    rcases lockTake_moved hfree h with ⟨h1, hm⟩ | ⟨-, h2, -⟩ | ⟨h1, -, hm⟩
    · exact .inr (.inl ⟨rfl, h1, hm⟩)
    · rw [hv] at h2
      cases h2
    · exact .inr (.inr ⟨h1, rfl, hm⟩)

end Lock

/-! ## 3. Taking and giving back a buffer -/

/-- `getblk` has assigned `bf` to the block, after a miss. -/
structure Assigned (s s₁ : State α) (bf : Nat) (dev : Int) (block : Nat) : Prop where
  onDev : (s₁.buf bf).dev = dev
  onBlock : (s₁.buf bf).block = block
  count : (s₁.buf bf).count = 1
  dirty : (s₁.buf bf).dirty = false
  valid : (s₁.buf bf).valid = false
  other : ∀ x, x ≠ bf → s₁.buf x = s.buf x
  home : bf ∈ s₁.hashTable (hash dev block)
  chains : ∀ x, x ≠ bf → ∀ i, x ∈ s₁.hashTable i ↔ x ∈ s.hashTable i
  devices : s₁.devices = s.devices
  disk : s₁.disk = s.disk
  pc : s₁.pc = s.pc
  waitList : s₁.waitList = s.waitList
  origin : (s₁.bufferCount = s.bufferCount + 1 ∧ bf = s.bufferPtr ∧ s₁.freeList = s.freeList ∧
      (s₁.buf bf).lock = ⟨none, 0, false, []⟩) ∨
    (s₁.bufferCount = s.bufferCount ∧ s.freeList.getLast? = some bf ∧
      s₁.freeList = s.freeList.erase bf ∧ (s₁.buf bf).lock = (s.buf bf).lock)

section Take

variable {s s' : State α} {t bf : Nat} {dev : Int} {block : Nat}

/-- `getblk` after a miss: the task falls asleep, or goes on with the buffer it has assigned. -/
theorem takeFree_assigned (h : takeFree s t dev block true = .ok s') :
    Moved s s' t (.asleep dev block true) ∨
    ∃ bf s₁, Assigned s s₁ bf dev block ∧ gotBlock s₁ t bf true = .ok s' := by
  obtain ⟨r, hr, h⟩ := ok_of_bind h
  cases r with
  | none =>
    obtain ⟨s₁, h₁, h⟩ := ok_of_bind h
    cases h
    exact .inl (taskBlock_quiet h₁).setPc
  | some r =>
    obtain ⟨bf, s₁⟩ := r
    obtain ⟨-, h⟩ := of_assert h
    obtain ⟨hdirty, h⟩ := of_assert h
    obtain ⟨s₂, h₂, h⟩ := ok_of_bind h
    obtain ⟨-, h₂⟩ := of_assert h₂
    have hdirty : (s₁.buf bf).dirty = false := by simpa using hdirty
    rw [setBuf_self] at h₂
    cases h₂
    refine .inr ⟨bf, _, ?_, h⟩
    -- what `hash_locate` does to the chains
    have hchain : ∀ x, x ≠ bf → ∀ i, x ∈ Function.update s₁.hashTable (hash dev block)
        (bf :: s₁.hashTable (hash dev block)) i ↔ x ∈ s₁.hashTable i := by
      intro x hx i
      by_cases e : i = hash dev block
      · rw [e, Function.update_self, List.mem_cons, or_iff_right hx]
      · rw [Function.update_of_ne e]
    have hself : ∀ b : Buffer α, (s₁.setBuf bf b).buf bf = b := fun _ => setBuf_self
    have hhome : bf ∈ Function.update s₁.hashTable (hash dev block)
        (bf :: s₁.hashTable (hash dev block)) (hash dev block) := by
      rw [Function.update_self]
      exact List.mem_cons_self ..
    unfold getFreeBuffer at hr
    split at hr
    next r' hnew =>
      cases hr
      unfold getNewBuffer at hnew
      split at hnew
      case isFalse => cases hnew
      cases hnew
      refine ⟨?_, ?_, ?_, ?_, ?_, fun x hx => ?_, hhome, hchain, rfl, rfl, rfl, rfl,
        .inl ⟨rfl, rfl, rfl, ?_⟩⟩
      · exact congrArg Buffer.dev (hself _)
      · exact congrArg Buffer.block (hself _)
      · exact congrArg Buffer.count (hself _)
      · exact (congrArg Buffer.dirty (hself _)).trans hdirty
      · refine (congrArg Buffer.valid (hself _)).trans ?_
        exact congrArg Buffer.valid setBuf_self
      · exact (setBuf_of_ne hx).trans (setBuf_of_ne hx)
      · refine (congrArg Buffer.lock (hself _)).trans ?_
        exact congrArg Buffer.lock setBuf_self
    next =>
      split at hr
      next => cases hr
      next x hlast =>
        obtain ⟨s₃, h₃, hr⟩ := ok_of_bind hr
        cases hr
        obtain ⟨-, h₃⟩ := of_assert h₃
        cases h₃
        have hremove : ∀ y, y ≠ bf → ∀ i, y ∈ Function.update s.hashTable
            (hash (s.buf bf).dev (s.buf bf).block)
            ((s.hashTable (hash (s.buf bf).dev (s.buf bf).block)).erase bf) i ↔
            y ∈ s.hashTable i := by
          intro y hy i
          by_cases e : i = hash (s.buf bf).dev (s.buf bf).block
          · rw [e, Function.update_self, List.mem_erase_of_ne hy]
          · rw [Function.update_of_ne e]
        refine ⟨?_, ?_, ?_, ?_, ?_, fun y hy => ?_, hhome,
          fun y hy i => (hchain y hy i).trans (hremove y hy i), rfl, rfl, rfl, rfl,
          .inr ⟨rfl, hlast, rfl, ?_⟩⟩
        · exact congrArg Buffer.dev (hself _)
        · exact congrArg Buffer.block (hself _)
        · exact congrArg Buffer.count (hself _)
        · exact (congrArg Buffer.dirty (hself _)).trans hdirty
        · refine (congrArg Buffer.valid (hself _)).trans ?_
          exact congrArg Buffer.valid setBuf_self
        · exact (setBuf_of_ne hy).trans (setBuf_of_ne hy)
        · refine (congrArg Buffer.lock (hself _)).trans ?_
          show ((State.setBuf _ bf { s.buf bf with valid := false }).buf bf).lock = _
          rw [setBuf_self]

/-- The buffer after `count--`, on the free list when nobody has it any more. -/
def State.drop (s : State α) (bf : Nat) : State α :=
  let s₁ := s.setBuf bf { s.buf bf with count := (s.buf bf).count - 1 }
  if (s.buf bf).count - 1 = 0 then { s₁ with freeList := bf :: s.freeList } else s₁

/-- The end of `brelse`. -/
theorem release_moved (h : release s t bf = .ok s') :
    Moved (s.drop bf) s' t .out ∧ 0 ≤ (s.buf bf).count - 1 ∧
      ((s.buf bf).count - 1 = 0 → bf ∉ s.freeList) := by
  obtain ⟨hpos, h⟩ := of_assert h
  have hpos := of_decide_eq_true hpos
  unfold State.drop
  split at h
  next hne =>
    cases h
    rw [if_neg hne]
    exact ⟨(Quiet.refl _).leave, hpos, fun e => absurd e hne⟩
  next heq =>
    have heq := not_not.mp heq
    obtain ⟨hno, h⟩ := of_assert h
    have hno := of_decide_eq_true hno
    rw [if_pos heq]
    dsimp only at h
    split at h
    next =>
      cases h
      exact ⟨(Quiet.refl _).leave, hpos, fun _ => hno⟩
    next w _ =>
      obtain ⟨s₁, h₁, h⟩ := ok_of_bind h
      obtain ⟨s₂, h₂, -⟩ := ok_of_bind h
      rw [taskUnblock_unlinked h₁] at h₂
      cases h₂

end Take

end Yuios.BufferCache
