/-
  File:      Yuios/Cache/Held.lean
  Subject:   THE CACHE AND ITS USERS: who holds which buffer, and the block store that the users
             believe to work on.

  A `World` is a state of the cache together with the references that have been given out and the
  store in which every change takes effect at once. The users keep to the rules of the calls: a
  task changes, writes and gives back only what it has a reference to (`Uses`).

  * `Careful` -- a change that neither comes too late for a write of the buffer that is under way
    nor concerns a sector of another block.
  * `Kept P run` -- the invariant, while task `run` is running: reference counts, the free list and
    the chains, the locks, and, if all changes are careful (`P`), where the bytes of a sector are.
  * `Kept.edit` -- a change of one buffer keeps it, if that buffer is in order afterwards.
  * `Kept.stop` -- the running task stops at a program point it is in order at.
-/
import Yuios.Cache.Place
import Yuios.Cache.Segments

namespace Yuios.BufferCache

variable {α : Type}

/-! ## 1. Worlds -/

/-- References are pairs of a task and a buffer; the store is what the disks would hold. -/
structure World (α : Type) where
  cache : State α
  refs : List (Nat × Nat)
  store : Disk.Cell → α

/-- The block a buffer is assigned to. -/
def State.key (s : State α) (bf : Nat) : Int × Nat := ((s.buf bf).dev, (s.buf bf).block)

/-- Where it is. -/
def State.place (s : State α) (bf : Nat) : Fin BLOCK_SECS → Disk.Cell :=
  BufferCache.place s.devices (s.buf bf).dev (s.buf bf).block

/-- The buffer `bread` has for the task, once it is back or while it waits for the data. -/
def State.got (s : State α) (t : Nat) : Option Nat :=
  match s.pc t with
  | .out => s.ret t
  | p => p.buffer

/-- The buffer that is given back when the task runs on. -/
def Pc.ends : Pc → Option Nat
  | .writing bf _ done true => if done < BLOCK_SECS then none else some bf
  | _ => none

/-- The references after task `t` has run on. -/
def World.resumed (w : World α) (t : Nat) : List (Nat × Nat) :=
  match (w.cache.pc t).ends with
  | some bf => w.refs.erase (t, bf)
  | none => w.refs

/-- **A step of the users.** They ask for blocks of `keys`; `Ok` is the condition under which they
    change a buffer. -/
inductive Uses (keys : Set (Int × Nat)) (Ok : State α → Nat → Sectors α → Prop) :
    World α → World α → Prop where
  | bread {w : World α} {s : State α} (t : Nat) (dev : Int) (block : Nat)
      (hpc : w.cache.pc t = .out) (hask : (dev, block) ∈ keys)
      (h : start w.cache t (.bread dev block) = .ok s) :
      Uses keys Ok w ⟨s, (s.got t).toList.map (fun bf => (t, bf)) ++ w.refs, w.store⟩
  | touch {w : World α} {s : State α} (t bf : Nat) (data : Sectors α) (hpc : w.cache.pc t = .out)
      (href : (t, bf) ∈ w.refs) (hok : Ok w.cache bf data)
      (h : start w.cache t (.touch bf data) = .ok s) :
      Uses keys Ok w ⟨s, w.refs, setBlock w.store (w.cache.place bf) data⟩
  | bwrite {w : World α} {s : State α} (t bf : Nat) (hpc : w.cache.pc t = .out)
      (href : (t, bf) ∈ w.refs) (h : start w.cache t (.bwrite bf) = .ok s) :
      Uses keys Ok w ⟨s, w.refs, w.store⟩
  | brelse {w : World α} {s : State α} (t bf : Nat) (hpc : w.cache.pc t = .out)
      (href : (t, bf) ∈ w.refs) (h : start w.cache t (.brelse bf) = .ok s) :
      Uses keys Ok w ⟨s, if s.pc t = .out then w.refs.erase (t, bf) else w.refs, w.store⟩
  | resume {w : World α} {s : State α} (t : Nat) (hrun : runnable w.cache t = true)
      (h : resume w.cache t = .ok s) :
      Uses keys Ok w ⟨s, w.resumed t, w.store⟩

/-- After `buffer_init`, with memory for buffers up to `top`. -/
def initUpTo (buf : Nat → Buffer α) (devices : Disk.Table) (disk : Disk.Cell → α) (top : Nat) : State α :=
  { init buf devices disk with bufferData := top }

/-- The worlds that users reach from an empty cache of any size. -/
inductive Used (keys : Set (Int × Nat)) (Ok : State α → Nat → Sectors α → Prop) : World α → Prop where
  | init (buf : Nat → Buffer α) (devices : Disk.Table) (disk : Disk.Cell → α) (top : Nat) :
      Used keys Ok ⟨initUpTo buf devices disk top, [], disk⟩
  | step {w w' : World α} (h : Used keys Ok w) (hs : Uses keys Ok w w') : Used keys Ok w'

/-- The change leaves the sectors alone that the disk has got already from a write of the buffer which
    is still under way. -/
def Undisturbed (s : State α) (bf : Nat) (data : Sectors α) : Prop :=
  ∀ t r done rel, s.pc t = .writing bf r done rel → ∀ i : Fin BLOCK_SECS, i.val < done →
    data i = (s.buf bf).data i

/-- **A change with care**: besides, no sector of the block belongs to another block that is asked
    for. -/
structure Careful (keys : Set (Int × Nat)) (s : State α) (bf : Nat) (data : Sectors α) : Prop where
  undisturbed : Undisturbed s bf data
  apart : Apart s.devices keys (s.key bf)

/-! ## 2. The invariant -/

/-- The references to a buffer. -/
def countRefs (refs : List (Nat × Nat)) (bf : Nat) : Nat := refs.countP fun r => r.2 == bf

/-- The lock is held once by one task, or free. -/
def Lock.Sound (l : Lock) : Prop :=
  if l.value = true then l.holder.isSome = true ∧ l.depth = 1 else l.holder = none ∧ l.depth = 0

/-- **A buffer in order**, its bytes where `P` holds. -/
structure BufOk (P : Prop) (keys : Set (Int × Nat)) (refs : List (Nat × Nat)) (store : Disk.Cell → α)
    (s : State α) (bf : Nat) : Prop where
  count : (s.buf bf).count = countRefs refs bf
  free : bf ∈ s.freeList ↔ (s.buf bf).count = 0
  home : bf ∈ s.hashTable (hash (s.buf bf).dev (s.buf bf).block)
  asked : s.key bf ∈ keys
  data : P → (s.buf bf).valid = true → ∀ i, (s.buf bf).data i = store (s.place bf i)
  clean : P → (s.buf bf).dirty = false → ∀ i, s.disk (s.place bf i) = store (s.place bf i)
  apart : P → (s.buf bf).dirty = true → Apart s.devices keys (s.key bf)
  dirty : (s.buf bf).dirty = true → (s.buf bf).valid = true ∧ (s.buf bf).count ≠ 0
  idle : (s.buf bf).valid = false → (s.buf bf).count ≠ 0
  lock : (s.buf bf).lock.Sound

/-- `r` is the request for the block of `bf`. -/
def State.Asks (s : State α) (bf : Nat) (r : Request) : Prop :=
  deviceRequest s.devices (s.buf bf).dev (s.buf bf).block = .ok r

/-- **A task in order** where it stands. -/
def TaskOk (P : Prop) (refs : List (Nat × Nat)) (store : Disk.Cell → α) (s : State α) (t : Nat) :
    Pc → Prop
  | .out => True
  | .asleep _ _ _ => True
  | .locking bf => (t, bf) ∈ refs
  | .reading bf r done => (t, bf) ∈ refs ∧ s.Asks bf r ∧ (s.buf bf).valid = false ∧
      (s.buf bf).lock.holder = some t ∧
      (P → ∀ i : Fin BLOCK_SECS, i.val < done → (s.buf bf).data i = store (r.cell i))
  | .yielding bf => (t, bf) ∈ refs
  | .writing bf r done _ => (t, bf) ∈ refs ∧ s.Asks bf r ∧ (s.buf bf).valid = true ∧
      (P → ∀ i : Fin BLOCK_SECS, i.val < done → s.disk (r.cell i) = store (r.cell i))

/-- The task waits for the data of `bf`. -/
def Pc.Awaits (p : Pc) (bf : Nat) : Prop := p = .locking bf ∨ ∃ r done, p = .reading bf r done

/-- **The invariant**, while `run` is running. -/
structure Kept (P : Prop) (keys : Set (Int × Nat)) (run : Option Nat) (refs : List (Nat × Nat))
    (store : Disk.Cell → α) (s : State α) : Prop where
  bufs : ∀ bf, s.Made bf → BufOk P keys refs store s bf
  tasks : ∀ t, some t ≠ run → TaskOk P refs store s t (s.pc t)
  refMade : ∀ t bf, (t, bf) ∈ refs → s.Made bf
  ready : ∀ t bf, (t, bf) ∈ refs → some t ≠ run → (s.buf bf).valid = true ∨ (s.pc t).Awaits bf
  holder : ∀ t bf, s.Made bf → (s.buf bf).lock.holder = some t → some t ≠ run →
    ∃ r done, s.pc t = .reading bf r done
  rest : P → ∀ c, (∀ bf, s.Made bf → ∀ i, s.place bf i ≠ c) → s.disk c = store c
  freeMade : ∀ bf ∈ s.freeList, s.Made bf
  freeNodup : s.freeList.Nodup

theorem countRefs_cons (r : Nat × Nat) (refs : List (Nat × Nat)) (x : Nat) :
    countRefs (r :: refs) x = countRefs refs x + if r.2 = x then 1 else 0 := by
  unfold countRefs
  rw [List.countP_cons]
  by_cases h : r.2 = x <;> simp [h]

theorem countRefs_pos {refs : List (Nat × Nat)} {t bf : Nat} (h : (t, bf) ∈ refs) :
    0 < countRefs refs bf := List.countP_pos_iff.mpr ⟨_, h, beq_self_eq_true bf⟩

theorem countRefs_erase {refs : List (Nat × Nat)} {t bf : Nat} (h : (t, bf) ∈ refs) (x : Nat) :
    countRefs refs x = countRefs (refs.erase (t, bf)) x + if bf = x then 1 else 0 := by
  rw [← countRefs_cons (t, bf)]
  exact (List.perm_cons_erase h).countP_eq _

theorem inv_initUpTo (buf : Nat → Buffer α) (devices : Disk.Table) (disk : Disk.Cell → α) (top : Nat) :
    Inv none (initUpTo buf devices disk top) :=
  let h := inv_init buf devices disk
  h.congr ⟨h.top, h.made, h.home, h.nodup, h.unique⟩ rfl rfl rfl rfl fun _ => rfl

theorem kept_init (P : Prop) (keys : Set (Int × Nat)) (buf : Nat → Buffer α) (devices : Disk.Table)
    (disk : Disk.Cell → α) (top : Nat) : Kept P keys none [] disk (initUpTo buf devices disk top) where
  bufs := fun _ ⟨_, hi, _⟩ => absurd hi (Nat.not_lt_zero _)
  tasks := fun _ _ => trivial
  refMade := fun _ _ h => nomatch h
  ready := fun _ _ h => nomatch h
  holder := fun _ _ ⟨_, hi, _⟩ => absurd hi (Nat.not_lt_zero _)
  rest := fun _ _ _ => rfl
  freeMade := fun _ h => nomatch h
  freeNodup := List.nodup_nil

/-- The request is for the sectors of the block. -/
theorem State.Asks.cell {s : State α} {bf : Nat} {r : Request} (h : s.Asks bf r) (i : Fin BLOCK_SECS) :
    r.cell i = s.place bf i := by
  rw [State.place, place_of h]

/-- **The disk is right** outside the blocks of the buffers that have changed. -/
theorem Kept.right {P : Prop} {keys : Set (Int × Nat)} {run : Option Nat} {refs : List (Nat × Nat)}
    {store : Disk.Cell → α} {s : State α} (h : Kept P keys run refs store s) (hP : P) {c : Disk.Cell}
    (hc : ∀ bf, s.Made bf → (s.buf bf).dirty = true → ∀ i, s.place bf i ≠ c) : s.disk c = store c := by
  by_cases hin : ∃ bf, s.Made bf ∧ ∃ i, s.place bf i = c
  · obtain ⟨bf, hb, i, rfl⟩ := hin
    exact (h.bufs bf hb).clean hP (Bool.eq_false_iff.mpr fun hd => hc bf hb hd i rfl) i
  · exact h.rest hP c fun bf hb i e => hin ⟨bf, hb, i, e⟩

/-! ## 3. One buffer is changed -/

section Edit

variable {P : Prop} {keys : Set (Int × Nat)} {run : Option Nat} {refs refs' : List (Nat × Nat)}
  {store store' : Disk.Cell → α} {s s' : State α} {t bf : Nat}

/-- The change concerns buffer `bf`, its block and the references of the running task to it. -/
structure Edit (P : Prop) (run : Option Nat) (bf : Nat) (refs refs' : List (Nat × Nat))
    (store store' : Disk.Cell → α) (s s' : State α) : Prop where
  pc : s'.pc = s.pc
  made : ∀ x, s'.Made x ↔ s.Made x ∨ x = bf
  other : ∀ x, x ≠ bf → s'.buf x = s.buf x
  free : ∀ x, x ≠ bf → (x ∈ s'.freeList ↔ x ∈ s.freeList)
  chains : ∀ x, x ≠ bf → ∀ i, x ∈ s'.hashTable i ↔ x ∈ s.hashTable i
  count : ∀ x, x ≠ bf → countRefs refs' x = countRefs refs x
  keep : ∀ t x, some t ≠ run ∨ x ≠ bf → ((t, x) ∈ refs' ↔ (t, x) ∈ refs)
  devices : s'.devices = s.devices
  outside : P → ∀ c, (∀ i, s'.place bf i ≠ c) → store' c = store c
  shared : P → ∀ x, s.Made x → x ≠ bf → ∀ i, store' (s.place x i) = store (s.place x i)
  disk : P → ∀ c, s.disk c = store c → store' c = store c → s'.disk c = store' c
  nodup : s'.freeList.Nodup

theorem Edit.key (e : Edit P run bf refs refs' store store' s s') {x : Nat} (hne : x ≠ bf) :
    s'.key x = s.key x := by
  rw [State.key, State.key, e.other x hne]

theorem Edit.place (e : Edit P run bf refs refs' store store' s s') {x : Nat} (hne : x ≠ bf) :
    s'.place x = s.place x := by
  rw [State.place, State.place, e.other x hne, e.devices]

theorem BufOk.edit (h : BufOk P keys refs store s t) (e : Edit P run bf refs refs' store store' s s')
    (hm : s.Made t) (hne : t ≠ bf) : BufOk P keys refs' store' s' t := by
  have hb := e.other t hne
  refine ⟨?_, ?_, ?_, ?_, ?_, ?_, ?_, ?_, ?_, ?_⟩
  · rw [hb, e.count t hne]
    exact h.count
  · rw [hb, e.free t hne]
    exact h.free
  · rw [hb, e.chains t hne]
    exact h.home
  · rw [e.key hne]
    exact h.asked
  · intro hP hv i
    rw [hb] at hv ⊢
    rw [e.place hne, e.shared hP t hm hne, h.data hP hv]
  · intro hP hd i
    rw [hb] at hd
    rw [e.place hne]
    exact e.disk hP _ (h.clean hP hd i) (e.shared hP t hm hne i)
  · intro hP hd
    rw [hb] at hd
    rw [e.key hne, e.devices]
    exact h.apart hP hd
  · rw [hb]
    exact h.dirty
  · rw [hb]
    exact h.idle
  · rw [hb]
    exact h.lock

/-- The same block, and as valid as before. -/
structure Alike (b b' : Buffer α) : Prop where
  dev : b'.dev = b.dev
  block : b'.block = b.block
  valid : b'.valid = b.valid

theorem Alike.of_eq {b b' : Buffer α} (h : b' = b) : Alike b b' := by
  subst h
  exact ⟨rfl, rfl, rfl⟩

theorem State.Asks.congr {x : Nat} {r : Request} (h : s.Asks x r) (hd : s'.devices = s.devices)
    (hb : Alike (s.buf x) (s'.buf x)) : s'.Asks x r := by
  rw [State.Asks, hd, hb.dev, hb.block]
  exact h

theorem place_congr {x : Nat} (hd : s'.devices = s.devices) (hb : Alike (s.buf x) (s'.buf x)) :
    s'.place x = s.place x := by
  rw [State.place, State.place, hd, hb.dev, hb.block]

theorem key_congr {x : Nat} (hb : Alike (s.buf x) (s'.buf x)) : s'.key x = s.key x := by
  rw [State.key, State.key, hb.dev, hb.block]

theorem TaskOk.congr {p : Pc} (h : TaskOk P refs store s t p) (hdev : s'.devices = s.devices)
    (hr : ∀ x, (t, x) ∈ refs → (t, x) ∈ refs') (hb : ∀ x ∈ p.buffer, Alike (s.buf x) (s'.buf x))
    (hread : ∀ x r done, p = .reading x r done → (s.buf x).lock.holder = some t →
      (s'.buf x).lock.holder = some t ∧ (P → ∀ i : Fin BLOCK_SECS, i.val < done →
        (s.buf x).data i = store (r.cell i) → (s'.buf x).data i = store' (r.cell i)))
    (hwrite : ∀ x r done rel, p = .writing x r done rel → P → ∀ i : Fin BLOCK_SECS, i.val < done →
      s.disk (r.cell i) = store (r.cell i) → s'.disk (r.cell i) = store' (r.cell i)) :
    TaskOk P refs' store' s' t p := by
  cases p with
  | out => trivial
  | asleep => trivial
  | locking x => exact hr x h
  | yielding x => exact hr x h
  | reading x r done =>
    obtain ⟨h1, h2, h3, h4, h5⟩ := h
    have e := hb x rfl
    obtain ⟨hl, hd⟩ := hread x r done rfl h4
    exact ⟨hr x h1, h2.congr hdev e, e.valid.trans h3, hl, fun hP i hi => hd hP i hi (h5 hP i hi)⟩
  | writing x r done rel =>
    obtain ⟨h1, h2, h3, h4⟩ := h
    have e := hb x rfl
    exact ⟨hr x h1, h2.congr hdev e, e.valid.trans h3,
      fun hP i hi => hwrite x r done rel rfl hP i hi (h4 hP i hi)⟩

theorem TaskOk.edit {p : Pc} (h : TaskOk P refs store s t p)
    (e : Edit P run bf refs refs' store store' s s') (ht : some t ≠ run) (hp : bf ∉ p.buffer)
    (hm : ∀ x, (t, x) ∈ refs → s.Made x) : TaskOk P refs' store' s' t p := by
  have hne : ∀ x ∈ p.buffer, x ≠ bf := fun x hx e' => hp (e' ▸ hx)
  refine h.congr e.devices (fun x => (e.keep t x (.inl ht)).mpr)
    (fun x hx => .of_eq (e.other x (hne x hx))) ?_ ?_
  · intro x r done hx hl
    subst hx
    rw [e.other x (hne x rfl)]
    refine ⟨hl, fun hP i _ hd => ?_⟩
    obtain ⟨href, hask, -, -, -⟩ := h
    rw [hask.cell] at hd ⊢
    rw [e.shared hP x (hm x href) (hne x rfl)]
    exact hd
  · intro x r done rel hx hP i _ hd
    subst hx
    obtain ⟨href, hask, -, -⟩ := h
    rw [hask.cell] at hd ⊢
    exact e.disk hP _ hd (e.shared hP x (hm x href) (hne x rfl) i)

/-- **A change of one buffer** keeps the invariant, if the buffer is in order afterwards, and so
    are the other tasks that stand at it. -/
theorem Kept.edit (h : Kept P keys run refs store s) (bf : Nat)
    (e : Edit P run bf refs refs' store store' s s') (hbf : BufOk P keys refs' store' s' bf)
    (htask : ∀ t, some t ≠ run → bf ∈ (s.pc t).buffer → TaskOk P refs store s t (s.pc t) →
      TaskOk P refs' store' s' t (s.pc t))
    (hready : ∀ t, (t, bf) ∈ refs → some t ≠ run → (s.buf bf).valid = true →
      (s'.buf bf).valid = true)
    (hholder : ∀ t, (s'.buf bf).lock.holder = some t → some t ≠ run →
      s.Made bf ∧ (s.buf bf).lock.holder = some t)
    (hrest : P → s.Made bf → ∀ i, (∀ j, s'.place bf j ≠ s.place bf i) →
      s.disk (s.place bf i) = store (s.place bf i)) :
    Kept P keys run refs' store' s' where
  bufs := fun x hx => by
    by_cases ex : x = bf
    · exact ex ▸ hbf
    · have hx := ((e.made x).mp hx).resolve_right ex
      exact (h.bufs x hx).edit e hx ex
  tasks := fun t ht => by
    rw [e.pc]
    by_cases hp : bf ∈ (s.pc t).buffer
    · exact htask t ht hp (h.tasks t ht)
    · exact (h.tasks t ht).edit e ht hp fun x => h.refMade t x
  refMade := fun t x hr => by
    rw [e.made]
    by_cases ex : x = bf
    · exact .inr ex
    · exact .inl (h.refMade t x ((e.keep t x (.inr ex)).mp hr))
  ready := fun t x hr ht => by
    have hr' := (e.keep t x (.inl ht)).mp hr
    rw [e.pc]
    refine (h.ready t x hr' ht).imp_left fun hv => ?_
    by_cases ex : x = bf
    · subst ex
      exact hready t hr' ht hv
    · rw [e.other x ex]
      exact hv
  holder := fun t x hx hl ht => by
    rw [e.pc]
    by_cases ex : x = bf
    · subst ex
      obtain ⟨hm, hl⟩ := hholder t hl ht
      exact h.holder t x hm hl ht
    · rw [e.other x ex] at hl
      exact h.holder t x (((e.made x).mp hx).resolve_right ex) hl ht
  rest := fun hP c hno => by
    have hnew := hno bf ((e.made bf).mpr (.inr rfl))
    refine e.disk hP c ?_ (e.outside hP c hnew)
    by_cases hold : s.Made bf ∧ ∃ i, s.place bf i = c
    · obtain ⟨hb, i, rfl⟩ := hold
      exact hrest hP hb i hnew
    · refine h.rest hP c fun x hx i ec => ?_
      by_cases ex : x = bf
      · subst ex
        exact hold ⟨hx, i, ec⟩
      · refine hno x ((e.made x).mpr (.inl hx)) i ?_
        rw [e.place ex]
        exact ec
  freeMade := fun x hx => by
    rw [e.made]
    by_cases ex : x = bf
    · exact .inr ex
    · exact .inl (h.freeMade x ((e.free x ex).mp hx))
  freeNodup := e.nodup

end Edit

/-! ## 4. What the running task does -/

section Running

variable {P : Prop} {keys : Set (Int × Nat)} {refs : List (Nat × Nat)} {store : Disk.Cell → α}
  {s s' : State α} {t bf : Nat} {p : Pc}

theorem Kept.run (h : Kept P keys none refs store s) : Kept P keys (some t) refs store s :=
  ⟨h.bufs, fun u _ => h.tasks u nofun, h.refMade, fun u x hr _ => h.ready u x hr nofun,
    fun u x hm hl _ => h.holder u x hm hl nofun, h.rest, h.freeMade, h.freeNodup⟩

/-- **The task stops** at `p`, in order there. -/
theorem Kept.stop (h : Kept P keys (some t) refs store s) (hm : Moved s s' t p)
    (hp : TaskOk P refs store s t p)
    (hr : ∀ bf, (t, bf) ∈ refs → (s.buf bf).valid = true ∨ p.Awaits bf)
    (hl : ∀ bf, s.Made bf → (s.buf bf).lock.holder = some t →
      ∃ r done, p = .reading bf r done) : Kept P keys none refs store s' := by
  have hmade : ∀ x, s'.Made x ↔ s.Made x := fun x => by rw [State.Made, State.Made, hm.bufferCount]
  have halike : ∀ x, Alike (s.buf x) (s'.buf x) := fun x => by
    obtain ⟨l, e⟩ := hm.buf x
    rw [e]
    exact ⟨rfl, rfl, rfl⟩
  have hplace : ∀ x, s'.place x = s.place x := fun x => place_congr hm.devices (halike x)
  have htask : ∀ u q, TaskOk P refs store s u q → TaskOk P refs store s' u q := by
    refine fun u q hq => hq.congr hm.devices (fun _ h => h) (fun x _ => halike x)
      (fun x _ _ _ hl => ?_) fun _ _ _ _ _ _ _ _ hd => by rw [hm.disk, hd]
    obtain ⟨l, e⟩ := hm.buf x
    rw [e]
    exact ⟨hl, fun _ _ _ hd => hd⟩
  refine ⟨fun x hx => ?_, fun u _ => ?_, fun u x hr => (hmade x).mpr (h.refMade u x hr),
    fun u x hu _ => ?_, fun u x hx hu _ => ?_, fun hP c hno => ?_, fun x hx => ?_, ?_⟩
  · have hb := h.bufs x ((hmade x).mp hx)
    have hk := key_congr (halike x)
    obtain ⟨l, e⟩ := hm.buf x
    refine ⟨?_, ?_, ?_, ?_, ?_, ?_, ?_, ?_, ?_, ?_⟩ <;> try rw [e]
    · exact hb.count
    · rw [hm.freeList]
      exact hb.free
    · rw [hm.hashTable]
      exact hb.home
    · rw [hk]
      exact hb.asked
    · rw [hplace]
      exact hb.data
    · rw [hm.disk, hplace]
      exact hb.clean
    · rw [hm.devices, hk]
      exact hb.apart
    · exact hb.dirty
    · exact hb.idle
    · exact hb.lock
  · rw [hm.pc]
    by_cases e : u = t
    · rw [e, Function.update_self]
      exact htask t p hp
    · rw [Function.update_of_ne e]
      exact htask u _ (h.tasks u fun e' => e (Option.some.inj e'))
  · obtain ⟨l, e⟩ := hm.buf x
    rw [e, hm.pc]
    by_cases eu : u = t
    · subst eu
      rw [Function.update_self]
      exact hr x hu
    · rw [Function.update_of_ne eu]
      exact h.ready u x hu fun e' => eu (Option.some.inj e')
  · obtain ⟨l, e⟩ := hm.buf x
    rw [e] at hu
    rw [hm.pc]
    by_cases eu : u = t
    · subst eu
      rw [Function.update_self]
      exact hl x ((hmade x).mp hx) hu
    · rw [Function.update_of_ne eu]
      exact h.holder u x ((hmade x).mp hx) hu fun e' => eu (Option.some.inj e')
  · rw [hm.disk]
    refine h.rest hP c fun x hx i => ?_
    rw [← hplace]
    exact hno x ((hmade x).mpr hx) i
  · rw [hm.freeList] at hx
    exact (hmade x).mpr (h.freeMade x hx)
  · rw [hm.freeList]
    exact h.freeNodup

/-- No other buffer has the block of `bf`. -/
def State.Alone (s : State α) (bf : Nat) : Prop := ∀ x, s.Made x → x ≠ bf → s.key x ≠ s.key bf

theorem Kept.alone {run : Option Nat} (h : Kept P keys run refs store s) (hT : Table s)
    (hb : s.Made bf) : s.Alone bf := by
  intro x hx hne hk
  refine hne ?_
  obtain ⟨hd, hbl⟩ := Prod.mk.inj hk
  exact hT.unique _ _ x bf (h.bufs x hx).home (h.bufs bf hb).home hd hbl

/-- A buffer nobody reads is not locked. -/
theorem Kept.unlocked {run : Option Nat} (h : Kept P keys run refs store s) (hb : s.Made bf)
    (hv : (s.buf bf).lock.value = false) :
    (s.buf bf).lock.holder = none := by
  have := (h.bufs bf hb).lock
  rw [Lock.Sound, hv] at this
  exact this.1

/-- The references of a task that runs outside the calls are to valid buffers, and it holds no
    lock. -/
structure Ready (refs : List (Nat × Nat)) (s : State α) (t : Nat) : Prop where
  valid : ∀ bf, (t, bf) ∈ refs → (s.buf bf).valid = true
  lock : ∀ bf, s.Made bf → (s.buf bf).lock.holder ≠ some t

theorem Kept.ready_of_pc (h : Kept P keys none refs store s)
    (hpc : ∀ bf, ¬ (s.pc t).Awaits bf) : Ready refs s t where
  valid := fun bf hr => (h.ready t bf hr nofun).resolve_right (hpc bf)
  lock := fun bf hm hl => by
    obtain ⟨r, done, e⟩ := h.holder t bf hm hl nofun
    exact hpc bf (.inr ⟨r, done, e⟩)

theorem Moved.refl (hpc : s.pc t = p) : Moved s s t p :=
  ⟨rfl, rfl, rfl, rfl, rfl, by rw [← hpc, Function.update_eq_self], fun _ => ⟨_, rfl⟩⟩

theorem Kept.leave (h : Kept P keys (some t) refs store s) (hm : Moved s s' t .out)
    (hr : Ready refs s t) : Kept P keys none refs store s' :=
  h.stop hm trivial (fun bf hb => .inl (hr.valid bf hb)) fun bf hm hl => absurd hl (hr.lock bf hm)

end Running

end Yuios.BufferCache
