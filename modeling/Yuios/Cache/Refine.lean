/-
  File:      Yuios/Cache/Refine.lean
  Subject:   THE CACHE OF ONE TASK IS THE DISK: whole calls of `bread`, `bwrite` and `brelse` by one
             task, against a block store without a cache.

  * `whole` -- a call from its start to its return; one task is never made to wait, and no
    assertion fails (`bread_whole`, `bwrite_whole`, `brelse_whole`).
  * `Client` and `Direct` -- a client of the cache, and the same client of the store. Both name the
    blocks they have open by their place in a list, so that a block that has been given back has
    no name any more.
  * `cache_refines` -- the lists of the cache are in order at every blocking point, and the clients
    see the same data if no sector of a block that is changed belongs to another block that is used.
  * `stale` -- otherwise they need not: the same block, named on its partition and on the disk.
-/
import Yuios.Cache.Users

namespace Yuios.BufferCache

open Kernel

variable {α : Type}

/-! ## 1. What a segment does when nobody is in the way -/

section Forward

variable {s : State α} {t bf : Nat}

/-- The lock has been given back by everybody. -/
def Lock.Free (l : Lock) : Prop := l.value = false ∧ l.holder = none ∧ l.depth = 0

theorem gotBlock_valid (hv : (s.buf bf).valid = true) :
    gotBlock s t bf true = .ok (s.leave t bf) := by
  unfold gotBlock
  dsimp only
  rw [hv]
  rfl

theorem gotBlock_reads {r : Request} (hv : (s.buf bf).valid = false) (hl : (s.buf bf).lock.Free)
    (hask : s.Asks bf r) :
    gotBlock s t bf true = .ok ((s.lockBy t bf).setPc t (.reading bf r 0)) := by
  obtain ⟨hvalue, hholder, hdepth⟩ := hl
  have hself : (s.lockBy t bf).buf bf = { s.buf bf with lock :=
      { (s.buf bf).lock with value := true, holder := some t, depth := 1 } } := setBuf_self
  have htake : lockTake s t bf = breadLocked (s.lockBy t bf) t bf := by
    unfold lockTake
    dsimp only
    rw [hvalue, hdepth]
    rfl
  unfold gotBlock
  dsimp only
  rw [hv, if_neg (by decide), if_neg (by rw [hholder]; nofun), htake]
  unfold breadLocked
  dsimp only
  rw [hself]
  dsimp only
  rw [hv]
  exact bind_of_ok hask rfl

/-- A sector arrives. -/
def State.fetch (s : State α) (t bf : Nat) (r : Request) (k : Fin BLOCK_SECS) : State α :=
  (s.setBuf bf { s.buf bf with
    data := Function.update (s.buf bf).data k (s.disk (r.cell k)) }).setPc t (.reading bf r (k + 1))

theorem resume_fetch {r : Request} {k : Fin BLOCK_SECS} (hpc : s.pc t = .reading bf r k)
    (hc : r.check = .ok ()) : resume s t = .ok (s.fetch t bf r k) := by
  unfold resume
  rw [hpc]
  dsimp only
  rw [dif_pos k.isLt]
  exact bind_of_ok hc rfl

/-- A sector is written. -/
def State.send (s : State α) (t bf : Nat) (r : Request) (rel : Bool) (k : Fin BLOCK_SECS) : State α :=
  { s with disk := Function.update s.disk (r.cell k) ((s.buf bf).data k) }.setPc t
    (.writing bf r (k + 1) rel)

theorem resume_send {r : Request} {rel : Bool} {k : Fin BLOCK_SECS} (hpc : s.pc t = .writing bf r k rel)
    (hc : r.check = .ok ()) : resume s t = .ok (s.send t bf r rel k) := by
  unfold resume
  rw [hpc]
  dsimp only
  rw [dif_pos k.isLt]
  exact bind_of_ok hc rfl

/-- Nobody waits for the lock that the task gives back. -/
theorem lockRelease_alone (hvalue : (s.buf bf).lock.value = true)
    (hholder : (s.buf bf).lock.holder = some t) (hdepth : (s.buf bf).lock.depth = 1)
    (hw : (s.buf bf).lock.waiters = []) :
    lockRelease s t bf = .ok ((s.unlock bf).leave t bf) := by
  have hself : ∀ l, (s.setLock bf l).buf bf = { s.buf bf with lock := l } := fun _ => setBuf_self
  have htwice : (s.setLock bf { (s.buf bf).lock with holder := none, depth := 0 }).setLock bf
      { (s.buf bf).lock with holder := none, depth := 0, value := false } = s.unlock bf := by
    unfold State.unlock
    rw [State.setLock, hself]
    exact setBuf_setBuf ..
  simp only [hvalue, hw] at htwice
  unfold lockRelease mutexUnlock
  simp only [hholder, hdepth, hself, hvalue, hw, htwice, beq_self_eq_true]
  rfl

/-- The end of `brelse`, with nobody asleep in `get_free_buffer`. -/
theorem release_alone (hpos : 0 ≤ (s.buf bf).count - 1) (hno : bf ∉ s.freeList)
    (hw : s.waitList = []) : release s t bf = .ok ((s.drop bf).leave t none) := by
  unfold release State.drop
  dsimp only
  by_cases h : (s.buf bf).count - 1 = 0
  · simp only [h, ne_eq, not_true_eq_false, if_false, if_true, assert]
    have hno' : decide (bf ∉ (s.setBuf bf { s.buf bf with count := 0 }).freeList) = true :=
      decide_eq_true hno
    have hw' : (s.setBuf bf { s.buf bf with count := 0 }).waitList = [] := hw
    simp only [hno', hw', if_true, List.getLast?_nil]
    rfl
  · simp only [h, ne_eq, not_false_eq_true, if_true, if_false, assert, decide_eq_true hpos]
    rfl

/-- A buffer as `get_free_buffer` hands it out. -/
structure Handed (devices : Disk.Table) (s : State α) (bf : Nat) : Prop where
  devices : s.devices = devices
  count : (s.buf bf).count = 0
  dirty : (s.buf bf).dirty = false
  valid : (s.buf bf).valid = false
  lock : (s.buf bf).lock.Free

theorem getFreeBuffer_new (h : s.bufferPtr + sizeofBuffer < s.bufferData) :
    ∃ s₁, getFreeBuffer s = .ok (some (s.bufferPtr, s₁)) ∧ Handed s.devices s₁ s.bufferPtr := by
  have hnew : getNewBuffer s = some (s.bufferPtr, _) := if_pos h
  have hself : ∀ b : Buffer α, (s.setBuf s.bufferPtr b).buf s.bufferPtr = b := fun _ => setBuf_self
  refine ⟨_, by unfold getFreeBuffer; rw [hnew], ?_, ?_, ?_, ?_, ?_⟩
  · rfl
  · exact congrArg Buffer.count (hself _)
  · exact congrArg Buffer.dirty (hself _)
  · exact congrArg Buffer.valid (hself _)
  · exact (congrArg Buffer.lock (hself _)).symm ▸ ⟨rfl, rfl, rfl⟩

theorem getFreeBuffer_old (h : ¬ s.bufferPtr + sizeofBuffer < s.bufferData)
    (hlast : s.freeList.getLast? = some bf)
    (hin : bf ∈ s.hashTable (hash (s.buf bf).dev (s.buf bf).block))
    (hc : (s.buf bf).count = 0) (hd : (s.buf bf).dirty = false) (hl : (s.buf bf).lock.Free) :
    ∃ s₁, getFreeBuffer s = .ok (some (bf, s₁)) ∧ Handed s.devices s₁ bf := by
  have hnew : getNewBuffer s = none := if_neg h
  have hget : getFreeBuffer s = .ok (some (bf, State.setBuf { s with
      freeList := s.freeList.erase bf
      hashTable := Function.update s.hashTable (hash (s.buf bf).dev (s.buf bf).block)
        ((s.hashTable (hash (s.buf bf).dev (s.buf bf).block)).erase bf) }
      bf { s.buf bf with valid := false })) := by
    unfold getFreeBuffer hashRemove
    rw [hnew]
    dsimp only
    rw [hlast]
    dsimp only
    rw [assert, if_pos (decide_eq_true hin)]
    rfl
  refine ⟨_, hget, rfl, ?_, ?_, ?_, ?_⟩ <;> rw [setBuf_self]
  · exact hc
  · exact hd
  · exact hl

theorem assert_then {β : Type} {c : Bool} (h : c = true) (f : Unit → Except Stop β) :
    (assert c >>= f) = f () := by
  rw [h]
  rfl

theorem hashLocate_room (hno : ∀ i, bf ∉ s.hashTable i) :
    hashLocate s bf = .ok { s with
      hashTable := Function.update s.hashTable (hash (s.buf bf).dev (s.buf bf).block)
        (bf :: s.hashTable (hash (s.buf bf).dev (s.buf bf).block)) } := by
  unfold hashLocate
  rw [assert_then (decide_eq_true (hno _))]
  rfl

/-- `getblk` after `get_free_buffer`: the buffer is in no chain, and every assertion holds. -/
theorem takeFree_handed {s₁ : State α} (dev : Int) (block : Nat) (read : Bool)
    (hget : getFreeBuffer s = .ok (some (bf, s₁))) (hh : Handed s.devices s₁ bf)
    (hno : ∀ i, bf ∉ s₁.hashTable i) :
    ∃ s₂, (s₂.buf bf).valid = false ∧ (s₂.buf bf).lock.Free ∧ s₂.devices = s₁.devices ∧
      (s₂.buf bf).dev = dev ∧ (s₂.buf bf).block = block ∧
      takeFree s t dev block read = gotBlock s₂ t bf read := by
  have hself : ∀ b : Buffer α, (s₁.setBuf bf b).buf bf = b := fun _ => setBuf_self
  have htake : takeFree s t dev block read = gotBlock { s₁.setBuf bf { s₁.buf bf with
      count := 1, dev := dev, block := block } with
      hashTable := Function.update s₁.hashTable (hash dev block)
        (bf :: s₁.hashTable (hash dev block)) } t bf read := by
    unfold takeFree
    rw [hget]
    show (assert ((s₁.buf bf).count == 0) >>= _) = _
    rw [assert_then (by rw [hh.count]; rfl), assert_then (by rw [hh.dirty]; rfl),
      hashLocate_room (s := State.setBuf _ _ _) hno, hself]
    rfl
  refine ⟨_, ?_, ?_, ?_, ?_, ?_, htake⟩
  · exact (congrArg Buffer.valid (hself _)).trans hh.valid
  · exact (congrArg Buffer.lock (hself _)).symm ▸ hh.lock
  · rfl
  · exact congrArg Buffer.dev (hself _)
  · exact congrArg Buffer.block (hself _)

end Forward

/-! ## 2. Nobody is in the cache -/

/-- Changes are made with care where `P` holds. -/
def CarefulIf (P : Prop) (keys : Set (Int × Nat)) (s : State α) (bf : Nat) (data : Sectors α) : Prop :=
  P → Careful keys s bf data

/-- There is such a block for `device_request` and the driver. -/
def OnDevice (devices : Disk.Table) (dev : Int) (block : Nat) : Prop :=
  ∃ r, deviceRequest devices dev block = .ok r ∧ r.check = .ok ()

/-- A world in which no task is in a call. -/
structure Steady (P : Prop) (keys : Set (Int × Nat)) (w : World α) : Prop where
  used : Used keys (CarefulIf P keys) w
  out : ∀ u, w.cache.pc u = .out
  noWait : w.cache.waitList = []
  onDevice : ∀ k ∈ keys, OnDevice w.cache.devices k.1 k.2

section Steady

variable {P : Prop} {keys : Set (Int × Nat)} {w : World α} {t bf : Nat}

theorem used_carefulIf (h : Used keys (CarefulIf P keys) w) :
    Inv none w.cache ∧ Kept P keys none w.refs w.store w.cache :=
  used_kept (fun hP _ _ _ hc => hc hP) h

theorem Steady.inv (h : Steady P keys w) : Inv none w.cache := (used_carefulIf h.used).1

theorem Steady.kept (h : Steady P keys w) : Kept P keys none w.refs w.store w.cache :=
  (used_carefulIf h.used).2

theorem Steady.run (h : Steady P keys w) (t : Nat) : Inv (some t) w.cache :=
  h.inv.resumed (.inr fun bf e => by
    rw [h.out t] at e
    cases e)

theorem Steady.undisturbed (h : Steady P keys w) (bf : Nat) (data : Sectors α) :
    Undisturbed w.cache bf data :=
  fun t _ _ _ e => by
    rw [h.out t] at e
    cases e

theorem Steady.valid (h : Steady P keys w) (hb : w.cache.Made bf) : (w.cache.buf bf).valid = true := by
  have hbf := h.kept.bufs bf hb
  refine (Bool.eq_false_or_eq_true _).resolve_right fun hv => hbf.idle hv ?_
  -- a reference to it would be one of a task that waits for its data
  rw [hbf.count, countRefs, List.countP_eq_zero.mpr]
  · rfl
  · intro r hr e
    rcases h.kept.ready r.1 bf (beq_iff_eq.mp e ▸ hr) nofun with hv' | ha
    · rw [hv] at hv'
      cases hv'
    · rw [h.out] at ha
      rcases ha with e | ⟨_, _, e⟩ <;> cases e

theorem Steady.lock (h : Steady P keys w) (hb : w.cache.Made bf) : (w.cache.buf bf).lock.Free := by
  have hl := (h.kept.bufs bf hb).lock
  unfold Lock.Sound at hl
  split at hl
  next =>
    obtain ⟨u, hu⟩ := Option.isSome_iff_exists.mp hl.1
    obtain ⟨_, _, e⟩ := h.kept.holder u bf hb hu nofun
    rw [h.out] at e
    cases e
  next hv => exact ⟨Bool.eq_false_iff.mpr hv, hl.1, hl.2⟩

theorem Steady.waiters (h : Steady P keys w) (hb : w.cache.Made bf) :
    (w.cache.buf bf).lock.waiters = [] := by
  refine List.eq_nil_iff_forall_not_mem.mpr fun u hu => ?_
  have hpc := (h.inv.waits bf hb u hu).2.pc
  rw [h.out] at hpc
  cases hpc

/-- Every assertion of `getblk` holds after a miss, when there is a buffer that nobody has. -/
theorem Steady.takeFree (h : Steady P keys w) {dev : Int} {block : Nat} {r : Request}
    (hask : deviceRequest w.cache.devices dev block = .ok r)
    (hroom : w.cache.bufferPtr + sizeofBuffer < w.cache.bufferData ∨
      ∃ x, w.cache.Made x ∧ ∀ u, (u, x) ∉ w.refs) :
    ∃ s, takeFree w.cache t dev block true = .ok s ∧ ∃ bf, s.pc t = .reading bf r 0 := by
  have hget : ∃ bf s₁, getFreeBuffer w.cache = .ok (some (bf, s₁)) ∧ Handed w.cache.devices s₁ bf := by
    by_cases hnew : w.cache.bufferPtr + sizeofBuffer < w.cache.bufferData
    · exact ⟨_, getFreeBuffer_new hnew⟩
    · obtain ⟨x, hx, hnone⟩ := hroom.resolve_left hnew
      have hzero : (w.cache.buf x).count = 0 := by
        rw [(h.kept.bufs x hx).count, countRefs, List.countP_eq_zero.mpr]
        · rfl
        · exact fun r hr e => hnone r.1 (beq_iff_eq.mp e ▸ hr)
      have hne : w.cache.freeList ≠ [] :=
        List.ne_nil_of_mem ((h.kept.bufs x hx).free.mpr hzero)
      obtain ⟨bf, hlast⟩ := Option.isSome_iff_exists.mp (List.getLast?_isSome.mpr hne)
      have hmem := List.mem_of_getLast? hlast
      have hb := h.kept.freeMade bf hmem
      have hbf := h.kept.bufs bf hb
      have hcount := hbf.free.mp hmem
      exact ⟨bf, getFreeBuffer_old hnew hlast hbf.home hcount
        (Bool.eq_false_iff.mpr fun hd => (hbf.dirty hd).2 hcount) (h.lock hb)⟩
  obtain ⟨bf, s₁, hg, hh⟩ := hget
  obtain ⟨-, -, hno, -⟩ := getFreeBuffer_inv (h.run t) hg
  obtain ⟨s₂, hv, hl, hdev, hd, hb, htake⟩ := @takeFree_handed α _ t bf s₁ dev block true hg hh hno
  have hask₂ : s₂.Asks bf r := by
    rw [State.Asks, hdev, hh.devices, hd, hb]
    exact hask
  exact ⟨_, htake.trans (gotBlock_reads hv hl hask₂), bf, Function.update_self ..⟩

end Steady

/-! ## 3. Whole calls -/

/-- Task `t` runs until its call returns, or has stopped `n` times; the states in which it has
    stood, and the last of them. -/
def finish (t : Nat) : Nat → State α → Except Stop (State α × List (State α))
  | 0, s => .ok (s, [s])
  | n + 1, s =>
    if s.pc t = .out then .ok (s, [s])
    else do
      let s' ← resume s t
      let (r, p) ← finish t n s'
      return (r, s :: p)

/-- A call from its start to its return. -/
def whole (s : State α) (t : Nat) (c : Call α) : Except Stop (State α × List (State α)) := do
  let s ← start s t c
  finish t (BLOCK_SECS + 1) s

/-- **The lists are in order**: the free buffers are the hashed ones with count 0, and a buffer is
    in the chain of its block and in no other. -/
structure State.Orderly (s : State α) : Prop where
  free : ∀ bf, bf ∈ s.freeList ↔ (∃ i, bf ∈ s.hashTable i) ∧ (s.buf bf).count = 0
  chain : ∀ bf, s.Made bf → ∀ i, bf ∈ s.hashTable i ↔ i = hash (s.buf bf).dev (s.buf bf).block

theorem orderly_of_used {P : Prop} {keys : Set (Int × Nat)} {w : World α}
    (h : Used keys (CarefulIf P keys) w) : w.cache.Orderly := by
  obtain ⟨hi, hk⟩ := used_carefulIf h
  refine ⟨fun bf => ⟨fun hf => ?_, fun ⟨⟨i, hm⟩, hc⟩ => ?_⟩, fun bf hb i => ⟨hi.home i bf, ?_⟩⟩
  · have hbf := hk.bufs bf (hk.freeMade bf hf)
    exact ⟨⟨_, hbf.home⟩, hbf.free.mp hf⟩
  · exact (hk.bufs bf (hi.made i bf hm)).free.mpr hc
  · intro e
    subst e
    exact (hk.bufs bf hb).home

/-- Task `t` has worked on buffer `bf`, which has kept its block, and on no other. -/
structure Worked (t bf : Nat) (s s' : State α) : Prop where
  pc : ∀ u, u ≠ t → s'.pc u = s.pc u
  waitList : s'.waitList = s.waitList
  devices : s'.devices = s.devices
  other : ∀ x, x ≠ bf → s'.buf x = s.buf x
  dev : (s'.buf bf).dev = (s.buf bf).dev
  block : (s'.buf bf).block = (s.buf bf).block

section Worked

variable {s s₁ s₂ : State α} {t bf : Nat} {r : Request}

theorem Worked.trans (h : Worked t bf s s₁) (h₁ : Worked t bf s₁ s₂) : Worked t bf s s₂ where
  pc := fun u hu => (h₁.pc u hu).trans (h.pc u hu)
  waitList := h₁.waitList.trans h.waitList
  devices := h₁.devices.trans h.devices
  other := fun x hx => (h₁.other x hx).trans (h.other x hx)
  dev := h₁.dev.trans h.dev
  block := h₁.block.trans h.block

theorem worked_setPc (p : Pc) : Worked t bf s (s.setPc t p) :=
  ⟨fun _ hu => Function.update_of_ne hu .., rfl, rfl, fun _ _ => rfl, rfl, rfl⟩

theorem worked_leave (x : Option Nat) : Worked t bf s (s.leave t x) :=
  ⟨fun _ hu => Function.update_of_ne hu .., rfl, rfl, fun _ _ => rfl, rfl, rfl⟩

theorem worked_setBuf {b : Buffer α} (hd : b.dev = (s.buf bf).dev) (hk : b.block = (s.buf bf).block) :
    Worked t bf s (s.setBuf bf b) := by
  refine ⟨fun _ _ => rfl, rfl, rfl, fun x hx => setBuf_of_ne hx, ?_, ?_⟩ <;> rw [setBuf_self]
  · exact hd
  · exact hk

theorem worked_count (n : Int) : Worked t bf s (s.setBuf bf { s.buf bf with count := n }) :=
  worked_setBuf rfl rfl

theorem worked_flags (d v : Bool) : Worked t bf s (s.setBuf bf { s.buf bf with dirty := d, valid := v }) :=
  worked_setBuf rfl rfl

theorem worked_fetch (k : Fin BLOCK_SECS) : Worked t bf s (s.fetch t bf r k) := by
  have h : Worked t bf s (s.setBuf bf { s.buf bf with
      data := Function.update (s.buf bf).data k (s.disk (r.cell k)) }) := worked_setBuf rfl rfl
  exact h.trans (worked_setPc _)

theorem worked_send (rel : Bool) (k : Fin BLOCK_SECS) : Worked t bf s (s.send t bf r rel k) :=
  ⟨fun _ hu => Function.update_of_ne hu .., rfl, rfl, fun _ _ => rfl, rfl, rfl⟩

theorem worked_fill : Worked t bf s (s.fill bf) := by
  rw [fill_eq]
  exact worked_setBuf rfl rfl

theorem worked_drop : Worked t bf s (s.drop bf) := by
  have h := @worked_count α s t bf ((s.buf bf).count - 1)
  unfold State.drop
  dsimp only
  split
  · exact ⟨h.pc, h.waitList, h.devices, h.other, h.dev, h.block⟩
  · exact h

/-- The end of a write that gives the reference back or not. -/
theorem worked_ended (rel : Bool) : Worked t bf s ((if rel then s.drop bf else s).leave t none) := by
  cases rel with
  | false => exact worked_leave none
  | true => exact worked_drop.trans (worked_leave none)

theorem Worked.key (h : Worked t bf s s₁) (x : Nat) : s₁.key x = s.key x := by
  by_cases e : x = bf
  · rw [State.key, State.key, e, h.dev, h.block]
  · rw [State.key, State.key, h.other x e]

end Worked

section Whole

variable {P : Prop} {keys : Set (Int × Nat)} {w : World α} {t bf : Nat} {s s₁ s₂ : State α}
  {p : List (State α)}

theorem finish_out {n : Nat} (h : s.pc t = .out) : finish t n s = .ok (s, [s]) := by
  cases n with
  | zero => rfl
  | succ n => exact if_pos h

theorem finish_step {n : Nat} (h : s.pc t ≠ .out) (hr : resume s t = .ok s₁)
    (hf : finish t n s₁ = .ok (s₂, p)) : finish t (n + 1) s = .ok (s₂, s :: p) := by
  rw [finish, if_neg h]
  exact bind_of_ok hr (bind_of_ok hf rfl)

/-- The task of a world runs on. -/
theorem Used.resumed (h : Used keys (CarefulIf P keys) w) (hrun : runnable w.cache t = true)
    (hr : resume w.cache t = .ok s) : Used keys (CarefulIf P keys) ⟨s, w.resumed t, w.store⟩ :=
  h.step (.resume t hrun hr)

/-- What a task does in three steps: it comes to each sector, and to the end. -/
structure Steps (P : Prop) (keys : Set (Int × Nat)) (t bf : Nat) (w : World α) (refs : List (Nat × Nat))
    (s : State α) (p : List (State α)) : Prop where
  finish : finish t (BLOCK_SECS + 1) w.cache = .ok (s, p)
  used : Used keys (CarefulIf P keys) ⟨s, refs, w.store⟩
  out : s.pc t = .out
  worked : Worked t bf w.cache s
  orderly : ∀ q ∈ p, q.Orderly

/-- **A read that has begun**, with nobody else in the way. -/
theorem read_steps {r : Request} (h : Used keys (CarefulIf P keys) w) (hpc : w.cache.pc t = .reading bf r 0)
    (hcheck : r.check = .ok ()) (hvalue : (w.cache.buf bf).lock.value = true)
    (hholder : (w.cache.buf bf).lock.holder = some t) (hdepth : (w.cache.buf bf).lock.depth = 1)
    (hw : (w.cache.buf bf).lock.waiters = []) :
    ∃ s p, Steps P keys t bf w w.refs s p ∧ s.ret t = some bf ∧ s.bufferCount = w.cache.bufferCount := by
  have hrefs {x : State α} {k : Nat} (e : x.pc t = .reading bf r k) :
      World.resumed ⟨x, w.refs, w.store⟩ t = w.refs := by
    rw [World.resumed, e]
    rfl
  have hrun {x : State α} {k : Nat} (e : x.pc t = .reading bf r k) : runnable x t = true := by
    rw [runnable, e]
  have hin {x : State α} {k : Nat} (e : x.pc t = .reading bf r k) : x.pc t ≠ .out := by
    rw [e]
    exact Pc.noConfusion
  obtain ⟨s₁, hs₁⟩ : ∃ s₁, s₁ = w.cache.fetch t bf r 0 := ⟨_, rfl⟩
  obtain ⟨s₂, hs₂⟩ : ∃ s₂, s₂ = s₁.fetch t bf r 1 := ⟨_, rfl⟩
  obtain ⟨s₃, hs₃⟩ : ∃ s₃, s₃ = (s₂.fill bf).leave t bf := ⟨_, rfl⟩
  have hpc₁ : s₁.pc t = .reading bf r (1 : Fin BLOCK_SECS) := by
    rw [hs₁]
    exact Function.update_self ..
  have hpc₂ : s₂.pc t = .reading bf r BLOCK_SECS := by
    rw [hs₂]
    exact Function.update_self ..
  have hout : s₃.pc t = .out := by
    rw [hs₃]
    exact Function.update_self ..
  have hlock : (s₂.buf bf).lock = (w.cache.buf bf).lock := by
    rw [hs₂]
    have hfetch (x : State α) (k : Fin BLOCK_SECS) : ((x.fetch t bf r k).buf bf).lock = (x.buf bf).lock := by
      show (Function.update x.buf bf _ bf).lock = _
      rw [Function.update_self]
    rw [hfetch, hs₁, hfetch]
  have hr₀ : resume w.cache t = .ok s₁ := hs₁ ▸ resume_fetch hpc hcheck
  have hr₁ : resume s₁ t = .ok s₂ := hs₂ ▸ resume_fetch hpc₁ hcheck
  have hr₂ : resume s₂ t = .ok s₃ := by
    unfold resume
    rw [hpc₂, hs₃]
    dsimp only
    rw [dif_neg (Nat.lt_irrefl _)]
    refine lockRelease_alone ?_ ?_ ?_ ?_ <;> rw [setBuf_self] <;> dsimp only <;> rw [hlock]
    · exact hvalue
    · exact hholder
    · exact hdepth
    · exact hw
  have hused₁ : Used keys (CarefulIf P keys) ⟨s₁, w.refs, w.store⟩ := by
    have := h.resumed (hrun hpc) hr₀
    rwa [hrefs hpc] at this
  have hused₂ : Used keys (CarefulIf P keys) ⟨s₂, w.refs, w.store⟩ := by
    have := hused₁.resumed (hrun hpc₁) hr₁
    rwa [hrefs hpc₁] at this
  have hused₃ : Used keys (CarefulIf P keys) ⟨s₃, w.refs, w.store⟩ := by
    have := hused₂.resumed (hrun hpc₂) hr₂
    rwa [hrefs hpc₂] at this
  have hworked : Worked t bf w.cache s₃ := by
    rw [hs₃, hs₂, hs₁]
    exact (worked_fetch 0).trans ((worked_fetch 1).trans (worked_fill.trans (worked_leave _)))
  have hcount : s₃.bufferCount = w.cache.bufferCount := by
    rw [hs₃, hs₂, hs₁]
    rfl
  refine ⟨s₃, [w.cache, s₁, s₂, s₃], ⟨?_, hused₃, hout, hworked, fun q hq => ?_⟩, ?_, hcount⟩
  · exact finish_step (hin hpc) hr₀ (finish_step (hin hpc₁) hr₁ (finish_step (hin hpc₂) hr₂ (finish_out hout)))
  · simp only [List.mem_cons, List.not_mem_nil, or_false] at hq
    rcases hq with rfl | rfl | rfl | rfl
    · exact orderly_of_used h
    · exact orderly_of_used hused₁
    · exact orderly_of_used hused₂
    · exact orderly_of_used hused₃
  · rw [hs₃]
    exact Function.update_self ..

/-- The end of a write, or the whole of one that has nothing to write. -/
theorem written_alone {rel : Bool} (hpos : 0 ≤ (s.buf bf).count - 1) (hno : bf ∉ s.freeList)
    (hw : s.waitList = []) :
    written s t bf rel = .ok ((if rel then s.drop bf else s).leave t none) := by
  unfold written
  cases rel with
  | true => exact release_alone hpos hno hw
  | false => rfl

theorem ended_made {rel : Bool} {x : Nat} (h : s.Made x) :
    ((if rel then s.drop bf else s).leave t none).Made x := by
  cases rel with
  | false => exact h
  | true =>
    have e : (s.drop bf).bufferCount = s.bufferCount := by
      unfold State.drop
      dsimp only
      split <;> rfl
    show (s.drop bf).Made x
    rw [State.Made, e]
    exact h

/-- **A write that has begun**, with nobody asleep. -/
theorem write_steps {r : Request} {rel : Bool} (h : Used keys (CarefulIf P keys) w)
    (hpc : w.cache.pc t = .writing bf r 0 rel) (hcheck : r.check = .ok ())
    (hpos : 0 ≤ (w.cache.buf bf).count - 1) (hno : bf ∉ w.cache.freeList) (hw : w.cache.waitList = []) :
    ∃ s p, Steps P keys t bf w (if rel then w.refs.erase (t, bf) else w.refs) s p ∧
      ∀ x, w.cache.Made x → s.Made x := by
  have hrefs {x : State α} {k : Nat} (e : x.pc t = .writing bf r k rel) (hk : k < BLOCK_SECS) :
      World.resumed ⟨x, w.refs, w.store⟩ t = w.refs := by
    rw [World.resumed, e]
    cases rel with
    | false => rfl
    | true =>
      dsimp only [Pc.ends]
      rw [if_pos hk]
  have hrun {x : State α} {k : Nat} (e : x.pc t = .writing bf r k rel) : runnable x t = true := by
    rw [runnable, e]
  have hin {x : State α} {k : Nat} (e : x.pc t = .writing bf r k rel) : x.pc t ≠ .out := by
    rw [e]
    exact Pc.noConfusion
  obtain ⟨s₁, hs₁⟩ : ∃ s₁, s₁ = w.cache.send t bf r rel 0 := ⟨_, rfl⟩
  obtain ⟨s₂, hs₂⟩ : ∃ s₂, s₂ = s₁.send t bf r rel 1 := ⟨_, rfl⟩
  obtain ⟨s₃, hs₃⟩ : ∃ s₃, s₃ = s₂.setBuf bf { s₂.buf bf with dirty := false, valid := true } := ⟨_, rfl⟩
  obtain ⟨s₄, hs₄⟩ : ∃ s₄, s₄ = (if rel then s₃.drop bf else s₃).leave t none := ⟨_, rfl⟩
  have hpc₁ : s₁.pc t = .writing bf r (1 : Fin BLOCK_SECS) rel := by
    rw [hs₁]
    exact Function.update_self ..
  have hpc₂ : s₂.pc t = .writing bf r BLOCK_SECS rel := by
    rw [hs₂]
    exact Function.update_self ..
  have hout : s₄.pc t = .out := by
    rw [hs₄]
    exact Function.update_self ..
  have hr₀ : resume w.cache t = .ok s₁ := hs₁ ▸ resume_send hpc hcheck
  have hr₁ : resume s₁ t = .ok s₂ := hs₂ ▸ resume_send hpc₁ hcheck
  have hbuf₂ : s₂.buf = w.cache.buf := by
    rw [hs₂, hs₁]
    rfl
  have hlists₃ : s₃.freeList = w.cache.freeList ∧ s₃.waitList = w.cache.waitList := by
    rw [hs₃, hs₂, hs₁]
    exact ⟨rfl, rfl⟩
  have hr₂ : resume s₂ t = .ok s₄ := by
    unfold resume
    rw [hpc₂, hs₄]
    dsimp only
    rw [dif_neg (Nat.lt_irrefl _), ← hs₃]
    refine written_alone ?_ ?_ ?_
    · rw [hs₃, setBuf_self, hbuf₂]
      exact hpos
    · rw [hlists₃.1]
      exact hno
    · rw [hlists₃.2]
      exact hw
  have hused₁ : Used keys (CarefulIf P keys) ⟨s₁, w.refs, w.store⟩ := by
    have := h.resumed (hrun hpc) hr₀
    rwa [hrefs hpc (by decide)] at this
  have hused₂ : Used keys (CarefulIf P keys) ⟨s₂, w.refs, w.store⟩ := by
    have := hused₁.resumed (hrun hpc₁) hr₁
    rwa [hrefs hpc₁ (by decide)] at this
  have hused₃ : Used keys (CarefulIf P keys) ⟨s₄, if rel then w.refs.erase (t, bf) else w.refs, w.store⟩ := by
    have := hused₂.resumed (hrun hpc₂) hr₂
    rw [World.resumed, hpc₂] at this
    cases rel <;> exact this
  have hworked : Worked t bf w.cache s₄ := by
    rw [hs₄, hs₃, hs₂, hs₁]
    exact (worked_send rel 0).trans ((worked_send rel 1).trans ((worked_flags false true).trans (worked_ended rel)))
  refine ⟨s₄, [w.cache, s₁, s₂, s₄], ⟨?_, hused₃, hout, hworked, fun q hq => ?_⟩, fun x hx => ?_⟩
  · exact finish_step (hin hpc) hr₀ (finish_step (hin hpc₁) hr₁ (finish_step (hin hpc₂) hr₂ (finish_out hout)))
  · simp only [List.mem_cons, List.not_mem_nil, or_false] at hq
    rcases hq with rfl | rfl | rfl | rfl
    · exact orderly_of_used h
    · exact orderly_of_used hused₁
    · exact orderly_of_used hused₂
    · exact orderly_of_used hused₃
  · rw [hs₄]
    refine ended_made ?_
    rw [hs₃, hs₂, hs₁]
    exact hx

/-- The buffers somebody has are those of the same blocks. -/
def SameKeys (w : World α) (s : State α) : Prop := ∀ u x, (u, x) ∈ w.refs → s.key x = w.cache.key x

/-- What a whole call of `bread` has done. -/
structure Read (P : Prop) (keys : Set (Int × Nat)) (w : World α) (t : Nat) (dev : Int) (block : Nat)
    (bf : Nat) (s : State α) (p : List (State α)) : Prop where
  call : whole w.cache t (.bread dev block) = .ok (s, p)
  ret : s.ret t = some bf
  steady : Steady P keys ⟨s, (t, bf) :: w.refs, w.store⟩
  devices : s.devices = w.cache.devices
  key : s.key bf = (dev, block)
  keys : SameKeys w s
  orderly : ∀ q ∈ p, q.Orderly

theorem bread_hit (h : Steady P keys w) {dev : Int} {block : Nat} (hin : (dev, block) ∈ keys)
    (hget : getFromHashTable w.cache dev block = some (bf, s₁)) :
    ∃ s p, Read P keys w t dev block bf s p := by
  obtain ⟨hmem, hh, rfl⟩ := getFromHashTable_some hget
  have hb := h.inv.made _ _ hmem
  obtain ⟨s₂, hs₂⟩ : ∃ s₂, s₂ = State.setBuf { w.cache with
    freeList := w.cache.freeList.erase bf } bf
    { w.cache.buf bf with count := (w.cache.buf bf).count + 1 } := ⟨_, rfl⟩
  have hworked : Worked t bf w.cache (s₂.leave t bf) := by
    have hfree : Worked t bf w.cache { w.cache with freeList := w.cache.freeList.erase bf } :=
      ⟨fun _ _ => rfl, rfl, rfl, fun _ _ => rfl, rfl, rfl⟩
    rw [hs₂]
    exact hfree.trans ((worked_count _).trans (worked_leave _))
  have hstart : start w.cache t (.bread dev block) = .ok (s₂.leave t bf) := by
    show getBlock w.cache t dev block true = _
    unfold getBlock
    rw [hget]
    dsimp only
    rw [← hs₂]
    refine gotBlock_valid ?_
    rw [hs₂, setBuf_self]
    exact h.valid hb
  have hout : ∀ u, (s₂.leave t bf).pc u = .out := by
    intro u
    by_cases e : u = t
    · rw [e]
      exact Function.update_self ..
    · exact (hworked.pc u e).trans (h.out u)
  have hgot : (s₂.leave t bf).got t = some bf := by
    unfold State.got
    rw [hout t]
    exact Function.update_self ..
  have hused := h.used.step (.bread t dev block (h.out t) hin hstart)
  rw [hgot] at hused
  refine ⟨s₂.leave t bf, [s₂.leave t bf], ?_, Function.update_self ..,
    ⟨hused, hout, hworked.waitList.trans h.noWait, fun k hk => ?_⟩, hworked.devices, ?_,
    fun u x _ => hworked.key x, fun q hq => ?_⟩
  · unfold whole
    exact bind_of_ok hstart (finish_out (hout t))
  · rw [hworked.devices]
    exact h.onDevice k hk
  · obtain ⟨hd, hk⟩ := holds_iff.mp hh
    rw [hworked.key bf, State.key, hd, hk]
  · rw [List.mem_singleton.mp hq]
    exact orderly_of_used hused

theorem bread_miss (h : Steady P keys w) {dev : Int} {block : Nat} (hin : (dev, block) ∈ keys)
    (hget : getFromHashTable w.cache dev block = none)
    (hroom : w.cache.bufferPtr + sizeofBuffer < w.cache.bufferData ∨
      ∃ x, w.cache.Made x ∧ ∀ u, (u, x) ∉ w.refs) :
    ∃ bf s p, Read P keys w t dev block bf s p := by
  obtain ⟨r, hask, hcheck⟩ := h.onDevice _ hin
  obtain ⟨s', htake, bf', hpc'⟩ := h.takeFree (t := t) hask hroom
  have hmiss := getFromHashTable_miss (h.run t) hget
  -- the buffer, read back
  rcases takeFree_assigned htake with hm | ⟨bf, s₁, ha, hgot⟩
  · have e : s'.pc t = .asleep dev block true := by
      rw [hm.pc, Function.update_self]
    rw [e] at hpc'
    cases hpc'
  have hlock : (s₁.buf bf).lock.Free ∧ (s₁.buf bf).lock.waiters = [] := by
    rcases ha.origin with ⟨-, -, -, hl⟩ | ⟨-, hlast, -, hl⟩
    · rw [hl]
      exact ⟨⟨rfl, rfl, rfl⟩, rfl⟩
    · have hb := h.kept.freeMade bf (List.mem_of_getLast? hlast)
      rw [hl]
      exact ⟨h.lock hb, h.waiters hb⟩
  have hask₁ : s₁.Asks bf r := by
    rw [State.Asks, ha.devices, ha.onDev, ha.onBlock]
    exact hask
  have hstart : start w.cache t (.bread dev block) = .ok s' := by
    show getBlock w.cache t dev block true = _
    unfold getBlock
    rw [hget]
    exact htake
  have hs' : s' = (s₁.lockBy t bf).setPc t (.reading bf r 0) :=
    Except.ok.inj (hgot.symm.trans (gotBlock_reads ha.valid hlock.1 hask₁))
  have hpc : s'.pc t = .reading bf r 0 := by
    rw [hs']
    exact Function.update_self ..
  have hself : s'.buf bf = { s₁.buf bf with lock :=
      { (s₁.buf bf).lock with value := true, holder := some t, depth := 1 } } := by
    rw [hs']
    exact setBuf_self
  have hused : Used keys (CarefulIf P keys) ⟨s', (t, bf) :: w.refs, w.store⟩ := by
    have hgot : s'.got t = some bf := by
      rw [State.got, hpc]
      rfl
    have := h.used.step (.bread t dev block (h.out t) hin hstart)
    rw [hgot] at this
    exact this
  obtain ⟨s, p, hsteps, hret, -⟩ := read_steps (w := ⟨s', (t, bf) :: w.refs, w.store⟩) hused hpc hcheck
    (by rw [hself]) (by rw [hself]) (by rw [hself]) (by rw [hself]; exact hlock.2)
  have hworked := hsteps.worked
  have hdevices : s.devices = w.cache.devices := by
    refine hworked.devices.trans ?_
    rw [hs']
    exact ha.devices
  refine ⟨bf, s, p, ?_, hret, ⟨hsteps.used, fun u => ?_, ?_, fun k hk => ?_⟩, hdevices, ?_,
    fun u x hx => ?_, hsteps.orderly⟩
  · unfold whole
    exact bind_of_ok hstart hsteps.finish
  · by_cases e : u = t
    · exact e ▸ hsteps.out
    · refine (hworked.pc u e).trans ?_
      rw [hs']
      exact (Function.update_of_ne e ..).trans ((congrFun ha.pc u).trans (h.out u))
  · refine hworked.waitList.trans ?_
    rw [hs']
    exact ha.waitList.trans h.noWait
  · rw [hdevices]
    exact h.onDevice k hk
  · refine (hworked.key bf).trans ?_
    rw [State.key, hself]
    exact Prod.ext ha.onDev ha.onBlock
  · have hne : x ≠ bf := fun e => by
      have := countRefs_pos (e ▸ hx : (u, bf) ∈ w.refs)
      rw [ha.noRefs h.kept h.inv.toTable] at this
      exact Nat.lt_irrefl 0 this
    refine (hworked.key x).trans ?_
    have hx' : s'.buf x = w.cache.buf x := by
      rw [hs']
      exact (setBuf_of_ne hne).trans (ha.other x hne)
    rw [State.key, State.key, hx']

/-- **A whole `bread` succeeds**, while there is a buffer that nobody has. -/
theorem bread_whole (h : Steady P keys w) {dev : Int} {block : Nat} (hin : (dev, block) ∈ keys)
    (hroom : w.cache.bufferPtr + sizeofBuffer < w.cache.bufferData ∨
      ∃ x, w.cache.Made x ∧ ∀ u, (u, x) ∉ w.refs) :
    ∃ bf s p, Read P keys w t dev block bf s p := by
  cases hget : getFromHashTable w.cache dev block with
  | none => exact bread_miss h hin hget hroom
  | some r => exact ⟨r.1, bread_hit h hin hget⟩

/-- What a whole call of `bwrite`, or of `brelse` (`rel`), has done. -/
structure Put (P : Prop) (keys : Set (Int × Nat)) (w : World α) (t bf : Nat) (rel : Bool) (s : State α)
    (p : List (State α)) : Prop where
  call : whole w.cache t (if rel then .brelse bf else .bwrite bf) = .ok (s, p)
  steady : Steady P keys ⟨s, if rel then w.refs.erase (t, bf) else w.refs, w.store⟩
  devices : s.devices = w.cache.devices
  keys : SameKeys w s
  made : ∀ x, w.cache.Made x → s.Made x
  orderly : ∀ q ∈ p, q.Orderly

/-- **A whole `bwrite` or `brelse` succeeds**, of a buffer the task has. -/
theorem put_whole (h : Steady P keys w) (hr : (t, bf) ∈ w.refs) (rel : Bool) :
    ∃ s p, Put P keys w t bf rel s p := by
  have hb := h.kept.refMade t bf hr
  have hbf := h.kept.bufs bf hb
  have hcount := countRefs_pos hr
  have hpos : 0 ≤ (w.cache.buf bf).count - 1 := by
    rw [hbf.count]
    omega
  have hno : bf ∉ w.cache.freeList := fun hm => by
    have h0 := hbf.free.mp hm
    rw [hbf.count] at h0
    omega
  have hstart : start w.cache t (if rel then .brelse bf else .bwrite bf) =
      write w.cache t bf rel := by
    cases rel <;> rfl
  -- the first segment as a step of the users
  have huse : ∀ {s : State α}, write w.cache t bf rel = .ok s → Used keys (CarefulIf P keys)
      ⟨s, if rel = true ∧ s.pc t = .out then w.refs.erase (t, bf) else w.refs, w.store⟩ := by
    intro s hs
    cases rel with
    | true =>
      have := h.used.step (.brelse t bf (h.out t) hr hs)
      simp only [true_and]
      exact this
    | false =>
      have := h.used.step (.bwrite t bf (h.out t) hr hs)
      simp only [Bool.false_eq_true, false_and, if_false]
      exact this
  -- what the call leaves is a world without anybody in a call
  have hput : ∀ {s : State α} {p : List (State α)},
      whole w.cache t (if rel then .brelse bf else .bwrite bf) = .ok (s, p) →
      Used keys (CarefulIf P keys) ⟨s, if rel then w.refs.erase (t, bf) else w.refs, w.store⟩ →
      s.pc t = .out → Worked t bf w.cache s → (∀ x, w.cache.Made x → s.Made x) →
      (∀ q ∈ p, q.Orderly) → Put P keys w t bf rel s p := by
    intro s p hcall hused hout hworked hmade hord
    refine ⟨hcall, ⟨hused, fun u => ?_, hworked.waitList.trans h.noWait, fun k hk => ?_⟩, hworked.devices,
      fun u x _ => hworked.key x, hmade, hord⟩
    · by_cases e : u = t
      · exact e ▸ hout
      · exact (hworked.pc u e).trans (h.out u)
    · rw [hworked.devices]
      exact h.onDevice k hk
  by_cases hd : (w.cache.buf bf).dirty = true
  · obtain ⟨r, hask, hcheck⟩ := h.onDevice _ hbf.asked
    have hwrite : write w.cache t bf rel = .ok (w.cache.setPc t (.writing bf r 0 rel)) := by
      unfold write
      dsimp only
      rw [if_pos hd]
      exact bind_of_ok hask rfl
    have hpc : (w.cache.setPc t (.writing bf r 0 rel)).pc t = .writing bf r 0 rel := Function.update_self ..
    have hused : Used keys (CarefulIf P keys) ⟨w.cache.setPc t (.writing bf r 0 rel), w.refs, w.store⟩ := by
      have := huse hwrite
      rw [if_neg fun e => by rw [hpc] at e; cases e.2] at this
      exact this
    obtain ⟨s, p, hsteps, hmade⟩ := write_steps (w := ⟨w.cache.setPc t (.writing bf r 0 rel), w.refs, w.store⟩)
      hused hpc hcheck hpos hno h.noWait
    refine ⟨s, p, hput ?_ hsteps.used hsteps.out ((worked_setPc _).trans hsteps.worked) hmade hsteps.orderly⟩
    unfold whole
    rw [hstart]
    exact bind_of_ok hwrite hsteps.finish
  · obtain ⟨s, hs⟩ : ∃ s, s = (if rel then w.cache.drop bf else w.cache).leave t none := ⟨_, rfl⟩
    have hwrite : write w.cache t bf rel = .ok s := by
      unfold write
      dsimp only
      rw [if_neg hd, hs]
      exact written_alone hpos hno h.noWait
    have hout : s.pc t = .out := by
      rw [hs]
      exact Function.update_self ..
    have hused := huse hwrite
    simp only [hout, and_true] at hused
    refine ⟨s, [s], hput ?_ hused hout (hs ▸ worked_ended rel) (fun x hx => hs ▸ ended_made hx) fun q hq => ?_⟩
    · unfold whole
      rw [hstart]
      exact bind_of_ok hwrite (finish_out hout)
    · rw [List.mem_singleton.mp hq]
      exact orderly_of_used hused

end Whole

/-! ## 4. Two clients -/

/-- What a client does. It names a block it has open by the place in its list, the block opened
    last first. -/
inductive Op (α : Type) where
  | bread (dev : Int) (block : Nat)
  | modify (i : Nat) (data : Sectors α)
  | bwrite (i : Nat)
  | brelse (i : Nat)

/-- **The client of the store**: the disks without a cache, and every change takes effect at once. -/
structure Direct (α : Type) where
  devices : Disk.Table
  store : Disk.Cell → α
  held : List (Int × Nat)

/-- What is in a block of the store. -/
def Direct.block (d : Direct α) (key : Int × Nat) : Sectors α := fun i => d.store (place d.devices key.1 key.2 i)

/-- One operation, and the data it shows. -/
def Direct.op (d : Direct α) : Op α → Option (Sectors α) × Direct α
  | .bread dev block => (some (d.block (dev, block)), { d with held := (dev, block) :: d.held })
  | .modify i data =>
    match d.held[i]? with
    | none => (none, d)
    | some key => (none, { d with store := setBlock d.store (place d.devices key.1 key.2) data })
  | .bwrite _ => (none, d)
  | .brelse i => (none, { d with held := d.held.eraseIdx i })

def Direct.run : Direct α → List (Op α) → List (Option (Sectors α)) × Direct α
  | d, [] => ([], d)
  | d, op :: ops => ((d.op op).1 :: ((d.op op).2.run ops).1, ((d.op op).2.run ops).2)

/-- The blocks that are asked for. -/
def asked (ops : List (Op α)) : Set (Int × Nat) := {k | Op.bread k.1 k.2 ∈ ops}

/-- **No sector of a block that is changed belongs to another block of `keys`.** -/
def Direct.ChangesApart (keys : Set (Int × Nat)) : Direct α → List (Op α) → Prop
  | _, [] => True
  | d, op :: ops =>
    (∀ i data key, op = .modify i data → d.held[i]? = some key → Apart d.devices keys key) ∧
    Direct.ChangesApart keys (d.op op).2 ops

/-- **The client of the cache**, with the states its task has stood in. -/
structure Client (α : Type) where
  cache : State α
  held : List Nat
  passed : List (State α)

def Client.fresh (buf : Nat → Buffer α) (devices : Disk.Table) (disk : Disk.Cell → α) (top : Nat) :
    Client α where
  cache := initUpTo buf devices disk top
  held := []
  passed := [initUpTo buf devices disk top]

/-- After a call that has run to its end. -/
def Client.after (c : Client α) (r : State α × List (State α)) (held : List Nat) : Client α where
  cache := r.1
  held := held
  passed := c.passed ++ r.2

/-- One operation by task `t`; a block that is not open any more is not used. -/
def Client.op (t : Nat) (c : Client α) : Op α → Except Stop (Option (Sectors α) × Client α)
  | .bread dev block => do
    let r ← whole c.cache t (.bread dev block)
    return ((r.1.ret t).map fun bf => (r.1.buf bf).data,
      c.after r ((r.1.ret t).toList ++ c.held))
  | .modify i data =>
    match c.held[i]? with
    | none => .ok (none, c)
    | some bf => do
      let r ← whole c.cache t (.touch bf data)
      return (none, c.after r c.held)
  | .bwrite i =>
    match c.held[i]? with
    | none => .ok (none, c)
    | some bf => do
      let r ← whole c.cache t (.bwrite bf)
      return (none, c.after r c.held)
  | .brelse i =>
    match c.held[i]? with
    | none => .ok (none, c)
    | some bf => do
      let r ← whole c.cache t (.brelse bf)
      return (none, c.after r (c.held.eraseIdx i))

def Client.run (t : Nat) : Client α → List (Op α) → Except Stop (List (Option (Sectors α)) × Client α)
  | c, [] => .ok ([], c)
  | c, op :: ops => do
    let (r, c) ← c.op t op
    let (rs, c) ← Client.run t c ops
    return (r :: rs, c)

/-- The client does not hold all buffers there can be. -/
def Client.Room (c : Client α) : Prop :=
  c.cache.bufferPtr + sizeofBuffer < c.cache.bufferData ∨ ∃ bf, c.cache.Made bf ∧ bf ∉ c.held

/-- It does not whenever it calls `bread`. -/
def Client.Permitted (t : Nat) : Client α → List (Op α) → Prop
  | _, [] => True
  | c, op :: ops =>
    (∀ dev block, op = .bread dev block → c.Room) ∧
    ∀ r c', c.op t op = .ok (r, c') → Client.Permitted t c' ops

/-! ## 5. The refinement -/

/-- **The two clients agree**, about the data where `P` holds. -/
structure Refines (P : Prop) (keys : Set (Int × Nat)) (t : Nat) (c : Client α) (d : Direct α) : Prop where
  steady : ∃ refs, refs.Perm (c.held.map fun bf => (t, bf)) ∧ Steady P keys ⟨c.cache, refs, d.store⟩
  devices : c.cache.devices = d.devices
  keys : d.held = c.held.map c.cache.key
  orderly : ∀ q ∈ c.passed, q.Orderly

section Refinement

variable {P : Prop} {keys : Set (Int × Nat)} {t : Nat} {c : Client α} {d : Direct α}

theorem Refines.fresh (P : Prop) {keys : Set (Int × Nat)} (t : Nat) (buf : Nat → Buffer α)
    {devices : Disk.Table} (disk : Disk.Cell → α) (top : Nat)
    (hdev : ∀ k ∈ keys, OnDevice devices k.1 k.2) :
    Refines P keys t (Client.fresh buf devices disk top) ⟨devices, disk, []⟩ where
  steady := ⟨[], .refl _, .init buf devices disk top, fun _ => rfl, rfl, hdev⟩
  devices := rfl
  keys := rfl
  orderly := fun q hq => by
    have h : Used keys (CarefulIf P keys) ⟨initUpTo buf devices disk top, [], disk⟩ := .init buf devices disk top
    rw [List.mem_singleton.mp hq]
    exact orderly_of_used h

theorem mem_of_perm {refs : List (Nat × Nat)} {held : List Nat}
    (hp : refs.Perm (held.map fun bf => (t, bf))) {x : Nat} : (t, x) ∈ refs ↔ x ∈ held := by
  rw [hp.mem_iff, List.mem_map]
  constructor
  · intro ⟨y, hy, e⟩
    cases e
    exact hy
  · exact fun hx => ⟨x, hx, rfl⟩

/-- The blocks of the buffers the client has are what they were. -/
theorem keys_of_same {refs : List (Nat × Nat)} {store : Disk.Cell → α} {s : State α}
    {held : List Nat} (hp : refs.Perm (c.held.map fun bf => (t, bf)))
    (hk : SameKeys ⟨c.cache, refs, store⟩ s) (hsub : ∀ x ∈ held, x ∈ c.held) :
    held.map s.key = held.map c.cache.key :=
  List.map_congr_left fun x hx => hk t x ((mem_of_perm hp).mpr (hsub x hx))

theorem orderly_append {p : List (State α)} (h : ∀ q ∈ c.passed, q.Orderly)
    (hp : ∀ q ∈ p, q.Orderly) : ∀ q ∈ c.passed ++ p, q.Orderly :=
  fun q hq => (List.mem_append.mp hq).elim (h q) (hp q)

/-- The data of a buffer the client has is that of the store. -/
theorem Refines.data (h : Refines P keys t c d) (hP : P) {bf : Nat} (hb : bf ∈ c.held) :
    (c.cache.buf bf).data = d.block (c.cache.key bf) := by
  obtain ⟨refs, hp, hs⟩ := h.steady
  have hm : c.cache.Made bf := hs.kept.refMade t bf ((mem_of_perm hp).mpr hb)
  funext i
  rw [Direct.block, ← h.devices]
  exact (hs.kept.bufs bf hm).data hP (hs.valid hm) i

theorem Refines.bread (h : Refines P keys t c d) (hroom : c.Room) {dev : Int} {block : Nat}
    (hin : (dev, block) ∈ keys) :
    ∃ r c', c.op t (.bread dev block) = .ok (r, c') ∧ (P → r = (d.op (.bread dev block)).1) ∧
      Refines P keys t c' (d.op (.bread dev block)).2 := by
  obtain ⟨refs, hp, hs⟩ := h.steady
  have hroom' : c.cache.bufferPtr + sizeofBuffer < c.cache.bufferData ∨
      ∃ x, c.cache.Made x ∧ ∀ u, (u, x) ∉ refs := by
    refine hroom.imp_right fun ⟨x, hx, hno⟩ => ⟨x, hx, fun u hr => hno ?_⟩
    have hr' := hp.mem_iff.mp hr
    obtain ⟨y, hy, e⟩ := List.mem_map.mp hr'
    cases e
    exact hy
  obtain ⟨bf, s, p, hread⟩ := bread_whole hs hin hroom' (t := t)
  have hnext : Refines P keys t (c.after (s, p) (bf :: c.held)) (d.op (.bread dev block)).2 := by
    refine ⟨⟨(t, bf) :: refs, hp.cons _, hread.steady⟩, hread.devices.trans h.devices, ?_,
      orderly_append h.orderly hread.orderly⟩
    show (dev, block) :: d.held = s.key bf :: _
    rw [hread.key, h.keys]
    exact congrArg _ (keys_of_same hp hread.keys fun _ hx => hx).symm
  refine ⟨some (s.buf bf).data, _, ?_, fun hP => ?_, hnext⟩
  · have hcall : whole c.cache t (.bread dev block) = .ok (s, p) := hread.call
    rw [Client.op, hcall]
    show Except.ok ((s.ret t).map _, c.after (s, p) ((s.ret t).toList ++ c.held)) = _
    rw [hread.ret]
    rfl
  · have hdata := hnext.data hP (List.mem_cons_self ..)
    refine congrArg some (hdata.trans ?_)
    show _ = d.block (dev, block)
    rw [← hread.key]
    rfl

theorem Refines.lookup (h : Refines P keys t c d) (i : Nat) : d.held[i]? = c.held[i]?.map c.cache.key := by
  rw [h.keys, List.getElem?_map]

theorem Refines.modify (h : Refines P keys t c d) (i : Nat) (data : Sectors α)
    (hapart : P → ∀ key, d.held[i]? = some key → Apart d.devices keys key) :
    ∃ c', c.op t (.modify i data) = .ok ((d.op (.modify i data)).1, c') ∧
      Refines P keys t c' (d.op (.modify i data)).2 := by
  obtain ⟨refs, hp, hs⟩ := h.steady
  rw [h.lookup i] at hapart
  unfold Client.op Direct.op
  dsimp only
  rw [h.lookup i]
  cases hi : c.held[i]? with
  | none => exact ⟨c, rfl, h⟩
  | some bf =>
    rw [hi] at hapart
    have hr : (t, bf) ∈ refs := (mem_of_perm hp).mpr (List.mem_of_getElem? hi)
    obtain ⟨s, hstart⟩ : ∃ s, s = c.cache.setBuf bf
      { c.cache.buf bf with data := data, dirty := true } := ⟨_, rfl⟩
    have hcare : CarefulIf P keys c.cache bf data := fun hP =>
      ⟨hs.undisturbed bf data, h.devices ▸ hapart hP _ rfl⟩
    have hused := hs.used.step (.touch t bf data (hs.out t) hr hcare rfl)
    have hplace : c.cache.place bf = place d.devices (c.cache.key bf).1 (c.cache.key bf).2 := by
      rw [← h.devices]
      rfl
    have hwhole : whole c.cache t (.touch bf data) = .ok (s, [s]) := by
      rw [hstart]
      exact finish_out (hs.out t)
    have hworked : Worked t bf c.cache s := by
      rw [hstart]
      exact worked_setBuf rfl rfl
    dsimp only [Option.map_some]
    rw [hwhole]
    have hdev : ∀ k ∈ keys, OnDevice s.devices k.1 k.2 := fun k hk => by
      rw [hworked.devices]
      exact hs.onDevice k hk
    refine ⟨c.after (s, [s]) c.held, rfl, ⟨refs, hp, ?_⟩, hworked.devices.trans h.devices, ?_,
      orderly_append h.orderly ?_⟩
    · rw [← hplace]
      exact ⟨hstart ▸ hused, fun u => by rw [hstart]; exact hs.out u, hworked.waitList.trans hs.noWait, hdev⟩
    · exact h.keys.trans (List.map_congr_left fun x _ => (hworked.key x).symm)
    · intro q hq
      rw [List.mem_singleton.mp hq, hstart]
      exact orderly_of_used hused

theorem Refines.bwrite (h : Refines P keys t c d) (i : Nat) :
    ∃ c', c.op t (.bwrite i) = .ok ((d.op (.bwrite i)).1, c') ∧
      Refines P keys t c' (d.op (.bwrite i)).2 := by
  obtain ⟨refs, hp, hs⟩ := h.steady
  unfold Client.op Direct.op
  dsimp only
  cases hi : c.held[i]? with
  | none => exact ⟨c, rfl, h⟩
  | some bf =>
    have hr : (t, bf) ∈ refs := (mem_of_perm hp).mpr (List.mem_of_getElem? hi)
    obtain ⟨s, p, hput⟩ := put_whole hs hr false
    have hcall : whole c.cache t (.bwrite bf) = .ok (s, p) := hput.call
    dsimp only
    rw [hcall]
    exact ⟨c.after (s, p) c.held, rfl, ⟨refs, hp, hput.steady⟩, hput.devices.trans h.devices,
      h.keys.trans (keys_of_same hp hput.keys fun _ hx => hx).symm,
      orderly_append h.orderly hput.orderly⟩

theorem Refines.brelse (h : Refines P keys t c d) (i : Nat) :
    ∃ c', c.op t (.brelse i) = .ok ((d.op (.brelse i)).1, c') ∧
      Refines P keys t c' (d.op (.brelse i)).2 := by
  obtain ⟨refs, hp, hs⟩ := h.steady
  unfold Client.op Direct.op
  dsimp only
  cases hi : c.held[i]? with
  | none =>
    refine ⟨c, rfl, ⟨refs, hp, hs⟩, h.devices, ?_, h.orderly⟩
    rw [List.eraseIdx_of_length_le]
    · exact h.keys
    · rw [h.keys, List.length_map]
      exact List.getElem?_eq_none_iff.mp hi
  | some bf =>
    have hr : (t, bf) ∈ refs := (mem_of_perm hp).mpr (List.mem_of_getElem? hi)
    obtain ⟨s, p, hput⟩ := put_whole hs hr true
    have hcall : whole c.cache t (.brelse bf) = .ok (s, p) := hput.call
    dsimp only
    rw [hcall]
    refine ⟨c.after (s, p) (c.held.eraseIdx i), rfl, ⟨refs.erase (t, bf), ?_, hput.steady⟩,
      hput.devices.trans h.devices, ?_, orderly_append h.orderly hput.orderly⟩
    · obtain ⟨hlt, hget⟩ := List.getElem?_eq_some_iff.mp hi
      have hsplit := (List.getElem_cons_eraseIdx_perm hlt).symm
      rw [hget] at hsplit
      have := (hp.trans (hsplit.map fun bf => (t, bf))).erase (t, bf)
      rwa [List.map_cons, List.erase_cons_head] at this
    · show d.held.eraseIdx i = _
      rw [h.keys, List.eraseIdx_map]
      exact (keys_of_same hp hput.keys fun _ hx => List.mem_of_mem_eraseIdx hx).symm

/-- **One operation** of the two clients. -/
theorem Refines.op (h : Refines P keys t c d) {op : Op α}
    (hroom : ∀ dev block, op = .bread dev block → c.Room)
    (hask : ∀ dev block, op = .bread dev block → (dev, block) ∈ keys)
    (hapart : P → ∀ i data key, op = .modify i data → d.held[i]? = some key → Apart d.devices keys key) :
    ∃ r c', c.op t op = .ok (r, c') ∧ (P → r = (d.op op).1) ∧ Refines P keys t c' (d.op op).2 := by
  cases op with
  | bread dev block => exact h.bread (hroom dev block rfl) (hask dev block rfl)
  | modify i data =>
    obtain ⟨c', hop, h'⟩ := h.modify i data fun hP key => hapart hP i data key rfl
    exact ⟨_, c', hop, fun _ => rfl, h'⟩
  | bwrite i =>
    obtain ⟨c', hop, h'⟩ := h.bwrite i
    exact ⟨_, c', hop, fun _ => rfl, h'⟩
  | brelse i =>
    obtain ⟨c', hop, h'⟩ := h.brelse i
    exact ⟨_, c', hop, fun _ => rfl, h'⟩

/-- **A sequence of operations.** -/
theorem Refines.run {ops : List (Op α)} (h : Refines P keys t c d) (hp : c.Permitted t ops)
    (hask : ∀ dev block, Op.bread dev block ∈ ops → (dev, block) ∈ keys) (hapart : P → d.ChangesApart keys ops) :
    ∃ rs c', c.run t ops = .ok (rs, c') ∧ (P → rs = (d.run ops).1) ∧ Refines P keys t c' (d.run ops).2 := by
  induction ops generalizing c d with
  | nil => exact ⟨[], c, rfl, fun _ => rfl, h⟩
  | cons op ops ih =>
    obtain ⟨hroom, hnext⟩ := hp
    obtain ⟨r, c₁, hop, hr, h₁⟩ := h.op hroom
      (fun dev block e => hask dev block (e ▸ List.mem_cons_self ..)) fun hP => (hapart hP).1
    obtain ⟨rs, c₂, hrun, hrs, h₂⟩ := ih h₁ (hnext _ _ hop)
      (fun dev block hm => hask dev block (List.mem_cons_of_mem _ hm)) fun hP => (hapart hP).2
    refine ⟨r :: rs, c₂, bind_of_ok hop (bind_of_ok hrun rfl), fun hP => ?_, h₂⟩
    rw [hr hP, hrs hP]
    rfl

end Refinement

/-- **The cache of one task is the disk.** A client of the cache that never holds all buffers when it
    asks for one, and asks for blocks there are, is never stopped, and the lists of the cache are in
    order in every state in which its task has stood. If no sector of a block that it changes belongs
    to another block that it uses, it sees what the client of the store sees, at every `bread` and, in
    the blocks it has open, at the end. -/
theorem cache_refines (t : Nat) (buf : Nat → Buffer α) (devices : Disk.Table) (disk : Disk.Cell → α)
    (top : Nat) (ops : List (Op α)) (hdev : ∀ k ∈ asked ops, OnDevice devices k.1 k.2)
    (hp : (Client.fresh buf devices disk top).Permitted t ops) :
    ∃ rs c, (Client.fresh buf devices disk top).run t ops = .ok (rs, c) ∧ (∀ q ∈ c.passed, q.Orderly) ∧
      ((Direct.mk devices disk []).ChangesApart (asked ops) ops →
        rs = ((Direct.mk devices disk []).run ops).1 ∧
        ∀ i : Nat, ((Direct.mk devices disk []).run ops).2.held[i]?.map
          ((Direct.mk devices disk []).run ops).2.block = c.held[i]?.map fun bf => (c.cache.buf bf).data) := by
  obtain ⟨rs, c, hrun, hrs, h⟩ := (Refines.fresh ((Direct.mk devices disk []).ChangesApart (asked ops) ops) t
    buf disk top hdev).run hp (fun dev block hm => hm) id
  refine ⟨rs, c, hrun, h.orderly, fun hP => ⟨hrs hP, fun i => ?_⟩⟩
  rw [h.lookup i]
  cases hi : c.held[i]? with
  | none => rfl
  | some bf => exact congrArg some (h.data hP (List.mem_of_getElem? hi)).symm

/-- A cache with room for one buffer. -/
def small : Client Nat :=
  Client.fresh (fun _ => blankBuffer) Disk.bootTable (fun _ => 0) (KERNEL_BUFFER_MEM + 1024)

/-- A block of a partition and one of a RAM disk, by turns in the one buffer. -/
def turns : List (Op Nat) :=
  [.bread 6 5, .modify 0 fun _ => 7, .brelse 0, .bread 1 9, .modify 0 fun _ => 8, .brelse 0, .bread 6 5]

theorem mem_turns {k : Int × Nat} (hk : k ∈ asked turns) : k = (6, 5) ∨ k = (1, 9) := by
  obtain ⟨dev, block⟩ := k
  change Op.bread dev block ∈ turns at hk
  simp only [turns, List.mem_cons, List.not_mem_nil, Op.bread.injEq, reduceCtorEq, false_or, or_false] at hk
  rcases hk with ⟨rfl, rfl⟩ | ⟨rfl, rfl⟩ | ⟨rfl, rfl⟩
  · exact .inl rfl
  · exact .inr rfl
  · exact .inl rfl

theorem turns_apart : (Direct.mk Disk.bootTable (fun _ => 0) []).ChangesApart (asked turns) turns := by
  have hcells : ∀ i j, place Disk.bootTable 6 5 i ≠ place Disk.bootTable 1 9 j := by decide
  have hpart : Apart Disk.bootTable (asked turns) (6, 5) := by
    intro k hk hne i j
    obtain rfl := (mem_turns hk).resolve_left hne
    exact (hcells j i).symm
  have hram : Apart Disk.bootTable (asked turns) (1, 9) := by
    intro k hk hne i j
    obtain rfl := (mem_turns hk).resolve_right hne
    exact hcells i j
  refine ⟨nofun, fun i data key e he => ?_, nofun, nofun, fun i data key e he => ?_, nofun, nofun, trivial⟩
  · cases e
    cases he
    exact hpart
  · cases e
    cases he
    exact hram

/-- Every block comes back from the disk as it was left. -/
theorem cache_refines_turns : ∃ c, small.run 0 turns =
    .ok ([some fun _ => 0, none, none, some fun _ => 0, none, none, some fun _ => 7], c) ∧
      ∀ q ∈ c.passed, q.Orderly := by
  have hdev : ∀ k ∈ asked turns, OnDevice Disk.bootTable k.1 k.2 := by
    intro k hk
    rcases mem_turns hk with rfl | rfl
    · exact ⟨_, rfl, rfl⟩
    · exact ⟨_, rfl, rfl⟩
  have hp : small.Permitted 0 turns := by
    refine ⟨fun _ _ _ => .inl (by decide), fun r c₁ h₁ => ⟨nofun, fun r c₂ h₂ => ⟨nofun, fun r c₃ h₃ =>
      ⟨fun _ _ _ => .inr ⟨KERNEL_BUFFER_MEM, ⟨0, ?_, rfl⟩, ?_⟩, fun r c₄ h₄ => ⟨nofun, fun r c₅ h₅ => ⟨nofun,
      fun r c₆ h₆ => ⟨fun _ _ _ => .inr ⟨KERNEL_BUFFER_MEM, ⟨0, ?_, rfl⟩, ?_⟩, fun _ _ _ => trivial⟩⟩⟩⟩⟩⟩⟩
    all_goals
      cases h₁
      cases h₂
      cases h₃
    · decide
    · decide
    · cases h₄
      cases h₅
      cases h₆
      decide
    · cases h₄
      cases h₅
      cases h₆
      decide
  obtain ⟨rs, c, hrun, ho, hsame⟩ := cache_refines 0 _ _ _ _ turns hdev hp
  refine ⟨c, hrun.trans ?_, ho⟩
  rw [(hsame turns_apart).1]
  have e : ((Direct.mk Disk.bootTable (fun _ => 0) []).run turns).1 =
      [some fun _ => 0, none, none, some fun _ => 0, none, none, some fun _ => 7] := by decide
  rw [e]

/-- A block of the disk is read before and after a change of the partition's first block, with which it
    has a sector in common. -/
def stale : List (Op Nat) :=
  [.bread 5 32, .brelse 0, .bread 6 0, .modify 0 fun _ => 7, .brelse 0, .bread 5 32]

def large : Client Nat :=
  Client.fresh (fun _ => blankBuffer) Disk.bootTable (fun _ => 0) (KERNEL_BUFFER_MEM + 4096)

/-- The last `bread` finds the old sector in the cache. -/
theorem stale_ends : (large.run 0 stale).toOption.map Prod.fst =
    some [some fun _ => 0, none, some fun _ => 0, none, none, some fun _ => 0] := by decide +kernel

theorem stale_permitted : large.Permitted 0 stale := by
  refine ⟨fun _ _ _ => .inl (by decide), fun r c₁ h₁ => ⟨nofun, fun r c₂ h₂ => ⟨fun _ _ _ => .inl ?_,
    fun r c₃ h₃ => ⟨nofun, fun r c₄ h₄ => ⟨nofun, fun r c₅ h₅ => ⟨fun _ _ _ => .inl ?_,
    fun _ _ _ => trivial⟩⟩⟩⟩⟩⟩
  · cases h₁
    cases h₂
    decide
  · cases h₁
    cases h₂
    cases h₃
    cases h₄
    cases h₅
    decide

/-- **Two names of one sector**: the client of the cache does not see what it has written; and a block
    of no device stops the kernel. -/
theorem cache_refines_not_always : (¬ ∀ (t : Nat) (buf : Nat → Buffer Nat) (devices : Disk.Table)
    (disk : Disk.Cell → Nat) (top : Nat) (ops : List (Op Nat)), (∀ k ∈ asked ops, OnDevice devices k.1 k.2) →
      (Client.fresh buf devices disk top).Permitted t ops →
      ∃ c, (Client.fresh buf devices disk top).run t ops = .ok (((Direct.mk devices disk []).run ops).1, c)) ∧
    large.run 0 [.bread 60 0] = .error .assertion := by
  refine ⟨fun h => ?_, rfl⟩
  have hdev : ∀ k ∈ asked stale, OnDevice Disk.bootTable k.1 k.2 := by
    rintro ⟨dev, block⟩ hk
    change Op.bread dev block ∈ stale at hk
    simp only [stale, List.mem_cons, List.not_mem_nil, Op.bread.injEq, reduceCtorEq, false_or, or_false] at hk
    rcases hk with ⟨rfl, rfl⟩ | ⟨rfl, rfl⟩ | ⟨rfl, rfl⟩
    all_goals exact ⟨_, rfl, rfl⟩
  obtain ⟨c, hrun⟩ := h 0 _ _ _ _ stale hdev stale_permitted
  have hends := stale_ends
  rw [show large.run 0 stale = _ from hrun] at hends
  have e : ((Direct.mk Disk.bootTable (fun _ => 0) []).run stale).1 =
      [some fun _ => 0, none, some fun _ => 0, none, none, some fun _ => 0] := Option.some.inj hends
  exact absurd e (by decide)

end Yuios.BufferCache
