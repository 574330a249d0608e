/-
  File:      Yuios/Cache/Users.lean
  Subject:   WHAT THE CALLS KEEP: the invariant of the cache and its users, call by call, and in
             every world that users reach.

  * `Kept.setBuf` -- a change of a buffer that keeps its block.
  * `Kept.hit`, `Kept.assigned`, `Kept.gotBlock` -- taking a reference, with the block in the cache
    and without.
  * `Kept.fetched`, `Kept.filled`, `Kept.touched`, `Kept.sent`, `Kept.completed`, `Kept.dropped` --
    a sector arrives, the last one has; the data is changed, a sector goes to the disk, the last one
    has; the reference is given back.
  * `used_kept` -- the invariant holds in every world reached; what it says of the bytes, provided
    that every change is made with care (`Careful`).
-/
import Yuios.Cache.Held

namespace Yuios.BufferCache

variable {α : Type}

/-! ## 1. A buffer that keeps its block -/

section SetBuf

variable {P : Prop} {keys : Set (Int × Nat)} {refs : List (Nat × Nat)} {store : Disk.Cell → α}
  {s s' : State α} {t bf : Nat}
  {b : Buffer α}

theorem setBuf_setBuf (b b' : Buffer α) : (s.setBuf bf b).setBuf bf b' = s.setBuf bf b' := by
  unfold State.setBuf
  simp only [Function.update_idem]

/-- The buffer is in order, if the changed data and flags are. -/
theorem BufOk.setBuf (h : BufOk P keys refs store s bf) (hd : b.dev = (s.buf bf).dev)
    (hk : b.block = (s.buf bf).block) (hc : b.count = (s.buf bf).count)
    (hdata : P → b.valid = true → ∀ i, b.data i = store (s.place bf i))
    (hclean : P → b.dirty = false → ∀ i, s.disk (s.place bf i) = store (s.place bf i))
    (hapart : P → b.dirty = true → Apart s.devices keys (s.key bf))
    (hdirty : b.dirty = true → b.valid = true ∧ b.count ≠ 0)
    (hidle : b.valid = false → b.count ≠ 0) (hl : b.lock.Sound) :
    BufOk P keys refs store (s.setBuf bf b) bf := by
  have hself : (s.setBuf bf b).buf bf = b := setBuf_self
  have hplace : (s.setBuf bf b).place bf = s.place bf := by
    rw [State.place, State.place, hself, hd, hk]
    rfl
  have hkey : (s.setBuf bf b).key bf = s.key bf := by
    rw [State.key, State.key, hself, hd, hk]
  refine ⟨?_, ?_, ?_, ?_, ?_, ?_, ?_, ?_, ?_, ?_⟩
  · rw [hself]
    exact hc.trans h.count
  · rw [hself, hc]
    exact h.free
  · rw [hself, hd, hk]
    exact h.home
  · rw [hkey]
    exact h.asked
  · rw [hself, hplace]
    exact hdata
  · rw [hself, hplace]
    exact hclean
  · rw [hself, hkey]
    exact hapart
  · rw [hself]
    exact hdirty
  · rw [hself]
    exact hidle
  · rw [hself]
    exact hl

theorem Kept.setBuf (h : Kept P keys (some t) refs store s) (hb : s.Made bf)
    (hd : b.dev = (s.buf bf).dev) (hk : b.block = (s.buf bf).block)
    (hbf : BufOk P keys refs store (s.setBuf bf b) bf)
    (htask : ∀ u, u ≠ t → bf ∈ (s.pc u).buffer → TaskOk P refs store s u (s.pc u) →
      TaskOk P refs store (s.setBuf bf b) u (s.pc u))
    (hready : (s.buf bf).valid = true → b.valid = true)
    (hholder : ∀ u, u ≠ t → b.lock.holder = some u → (s.buf bf).lock.holder = some u) :
    Kept P keys (some t) refs store (s.setBuf bf b) := by
  have hne : ∀ {u : Nat}, some u ≠ some t → u ≠ t := fun h e => h (congrArg some e)
  have hself : (s.setBuf bf b).buf bf = b := setBuf_self
  refine h.edit bf ⟨rfl, fun x => ?_, fun x hx => setBuf_of_ne hx, fun _ _ => Iff.rfl,
    fun _ _ _ => Iff.rfl, fun _ _ => rfl, fun _ _ _ => Iff.rfl, rfl, fun _ _ _ => rfl,
    fun _ _ _ _ _ => rfl, fun _ _ hd _ => hd, h.freeNodup⟩
    hbf (fun u hu => htask u (hne hu)) (fun u _ _ hv => ?_) (fun u hl hu => ?_)
    fun _ _ i hno => ?_
  · exact ⟨.inl, fun e => e.elim id fun e => e ▸ hb⟩
  · rw [hself]
    exact hready hv
  · rw [hself] at hl
    exact ⟨hb, hholder u (hne hu) hl⟩
  · refine absurd ?_ (hno i)
    rw [State.place, State.place, hself, hd, hk]
    rfl

end SetBuf

/-! ## 2. Taking a reference -/

section Take

variable {P : Prop} {keys : Set (Int × Nat)} {refs : List (Nat × Nat)} {store : Disk.Cell → α}
  {s s' s₁ : State α} {t bf : Nat}
  {dev : Int} {block : Nat}

/-- A lock that somebody holds is taken, once. -/
theorem Lock.Sound.of_holder {l : Lock} (h : l.Sound) {u : Nat} (hl : l.holder = some u) :
    l.value = true ∧ l.depth = 1 := by
  unfold Lock.Sound at h
  split at h
  next hv => exact ⟨hv, h.2⟩
  next =>
    rw [h.1] at hl
    cases hl

/-- The task takes the lock of a buffer nobody reads. -/
theorem Kept.lockBy (h : Kept P keys (some t) refs store s) (hb : s.Made bf)
    (hv : (s.buf bf).lock.value = false) : Kept P keys (some t) refs store (s.lockBy t bf) := by
  have hbf := h.bufs bf hb
  refine h.setBuf hb rfl rfl ?_ (fun u hu hp hu' => ?_) (fun hv => hv) (fun u hu hl => ?_)
  · exact hbf.setBuf rfl rfl rfl hbf.data hbf.clean hbf.apart hbf.dirty hbf.idle (by simp [Lock.Sound])
  · refine hu'.congr rfl (fun _ h => h) (fun x hx => ?_) (fun x r done hx hl => ?_)
      fun _ _ _ _ _ _ _ _ hd => hd
    · cases Option.mem_unique hx hp
      rw [setBuf_self]
      exact ⟨rfl, rfl, rfl⟩
    · rw [hx] at hp
      cases hp
      rw [h.unlocked hb hv] at hl
      cases hl
  · exact absurd (Option.some.inj hl).symm hu

/-- **The task starts to read** the buffer. -/
theorem Kept.toReading {r : Request} (h : Kept P keys (some t) refs store s) (hb : s.Made bf)
    (hr : (t, bf) ∈ refs) (hready : ∀ x, (t, x) ∈ refs → x ≠ bf → (s.buf x).valid = true)
    (hlock : ∀ x, s.Made x → (s.buf x).lock.holder ≠ some t)
    (hfree : (s.buf bf).lock.value = false) (hv : (s.buf bf).valid = false) (hask : s.Asks bf r)
    (hm : Moved (s.lockBy t bf) s' t (.reading bf r 0)) : Kept P keys none refs store s' := by
  have h₁ := h.lockBy hb hfree
  have hself : (s.lockBy t bf).buf bf = { s.buf bf with lock :=
      { (s.buf bf).lock with value := true, holder := some t, depth := 1 } } := setBuf_self
  have hother : ∀ x, x ≠ bf → (s.lockBy t bf).buf x = s.buf x := fun x hx => setBuf_of_ne hx
  refine h₁.stop hm ⟨hr, ?_, ?_, ?_, fun _ i hi => absurd hi (Nat.not_lt_zero _)⟩ (fun x hx => ?_)
    (fun x hx hl => ?_)
  · rw [State.Asks, hself]
    exact hask
  · rw [hself]
    exact hv
  · rw [hself]
  · by_cases e : x = bf
    · exact .inr (.inr ⟨_, _, by rw [e]⟩)
    · refine .inl ?_
      rw [hother x e]
      exact hready x hx e
  · by_cases e : x = bf
    · exact ⟨_, _, by rw [e]⟩
    · rw [hother x e] at hl
      exact absurd hl (hlock x hx)

/-- What follows `getblk` in `bread`, when the task has its reference. -/
theorem Kept.gotBlock (h : Kept P keys (some t) refs store s) (hb : s.Made bf)
    (hr : (t, bf) ∈ refs) (hready : ∀ x, (t, x) ∈ refs → x ≠ bf → (s.buf x).valid = true)
    (hlock : ∀ x, s.Made x → (s.buf x).lock.holder ≠ some t)
    (hg : gotBlock s t bf true = .ok s') : Kept P keys none refs store s' ∧ s'.got t = some bf := by
  have awaits : ∀ {p : Pc}, p.Awaits bf → ∀ x, (t, x) ∈ refs →
      (s.buf x).valid = true ∨ p.Awaits x := by
    intro p hp x hx
    by_cases e : x = bf
    · exact .inr (e ▸ hp)
    · exact .inl (hready x hx e)
  have hpc : ∀ {s₁ : State α} {p : Pc}, Moved s₁ s' t p → s'.pc t = p := fun hm => by
    rw [hm.pc, Function.update_self]
  rcases gotBlock_moved (h.unlocked hb) (hlock bf hb) hg with ⟨hv, hm, hret⟩ | ⟨-, -, hm⟩ |
    ⟨hfree, hv, r, hask, hm⟩
  · refine ⟨h.leave hm ⟨fun x hx => ?_, hlock⟩, ?_⟩
    · by_cases e : x = bf
      · exact e ▸ hv
      · exact hready x hx e
    · rw [State.got, hpc hm]
      exact hret
  · refine ⟨h.stop hm hr (awaits (.inl rfl)) fun x hx hl => absurd hl (hlock x hx), ?_⟩
    rw [State.got, hpc hm]
    rfl
  · refine ⟨h.toReading hb hr hready hlock hfree hv hask hm, ?_⟩
    rw [State.got, hpc hm]
    rfl

/-- What `get_from_hash_table` has found. -/
theorem getFromHashTable_some (h : getFromHashTable s dev block = some (bf, s₁)) :
    bf ∈ s.hashTable (hash dev block) ∧ s.holds dev block bf = true ∧
      s₁ = { s with freeList := s.freeList.erase bf } := by
  unfold getFromHashTable at h
  split at h
  next => cases h
  next x hf =>
    have hk := List.find?_some hf
    have hm := List.mem_of_find?_eq_some hf
    split at h
    next => cases h; exact ⟨hm, hk, rfl⟩
    next hno =>
      cases h
      exact ⟨hm, hk, by rw [List.erase_of_not_mem hno]⟩

/-- A reference more of the running task. -/
theorem keep_cons {u x : Nat} (h : some u ≠ some t ∨ x ≠ bf) :
    (u, x) ∈ (t, bf) :: refs ↔ (u, x) ∈ refs := by
  refine List.mem_cons.trans (or_iff_right fun e => ?_)
  cases e
  exact h.elim (fun h => h rfl) fun h => h rfl

theorem countRefs_cons_ne {x : Nat} (h : x ≠ bf) :
    countRefs ((t, bf) :: refs) x = countRefs refs x := by
  rw [countRefs_cons, if_neg (Ne.symm h), Nat.add_zero]

theorem countRefs_cons_self : countRefs ((t, bf) :: refs) bf = countRefs refs bf + 1 := by
  rw [countRefs_cons, if_pos rfl]

/-- **`getblk` finds the block**: the buffer leaves the free list, with a reference more. -/
theorem Kept.hit (h : Kept P keys (some t) refs store s) (hT : Table s)
    (hg : getFromHashTable s dev block = some (bf, s₁)) :
    Kept P keys (some t) ((t, bf) :: refs) store
      (s₁.setBuf bf { s₁.buf bf with count := (s₁.buf bf).count + 1 }) := by
  obtain ⟨hm, -, rfl⟩ := getFromHashTable_some hg
  have hb := hT.made _ _ hm
  have hbf := h.bufs bf hb
  obtain ⟨s₂, hs₂⟩ : ∃ s₂, s₂ = State.setBuf { s with freeList := s.freeList.erase bf } bf
    { s.buf bf with count := (s.buf bf).count + 1 } := ⟨_, rfl⟩
  have hself : s₂.buf bf = { s.buf bf with count := (s.buf bf).count + 1 } := by
    rw [hs₂]
    exact setBuf_self
  have halike : Alike (s.buf bf) (s₂.buf bf) := by
    rw [hself]
    exact ⟨rfl, rfl, rfl⟩
  have hdev : s₂.devices = s.devices := by
    rw [hs₂]
    rfl
  have hplace := place_congr hdev halike
  have hkey := key_congr halike
  have hdisk : s₂.disk = s.disk := by
    rw [hs₂]
    rfl
  have hfree : s₂.freeList = s.freeList.erase bf := by
    rw [hs₂]
    rfl
  have htab : s₂.hashTable = s.hashTable := by
    rw [hs₂]
    rfl
  show Kept P keys (some t) ((t, bf) :: refs) store (State.setBuf _ bf _)
  rw [← hs₂]
  refine h.edit bf ⟨by rw [hs₂]; rfl, fun x => ?_, fun x hx => ?_, fun x hx => ?_,
    fun _ _ _ => by rw [htab], fun x hx => countRefs_cons_ne hx, fun u x hx => keep_cons hx, hdev,
    fun _ _ _ => rfl, fun _ _ _ _ _ => rfl, fun _ _ hd _ => by rw [hdisk]; exact hd, ?_⟩
    ?_ (fun u hu hp hu' => ?_) (fun u _ _ hv => ?_) (fun u hl _ => ?_) fun _ _ i hno => ?_
  · rw [hs₂]
    exact ⟨.inl, fun e => e.elim id fun e => e ▸ hb⟩
  · rw [hs₂]
    exact setBuf_of_ne hx
  · rw [hfree]
    exact List.mem_erase_of_ne hx
  · rw [hfree]
    exact h.freeNodup.erase bf
  · have hpos : 0 ≤ (s.buf bf).count := by
      rw [hbf.count]
      exact Int.natCast_nonneg _
    refine ⟨?_, ?_, ?_, ?_, ?_, ?_, ?_, ?_, ?_, ?_⟩
    · rw [hself, countRefs_cons_self]
      exact congrArg (· + 1) hbf.count
    · rw [hself, hfree]
      refine iff_of_false h.freeNodup.not_mem_erase ?_
      dsimp only
      omega
    · rw [hself, htab]
      exact hbf.home
    · rw [hkey]
      exact hbf.asked
    · rw [hself, hplace]
      exact hbf.data
    · rw [hself, hplace, hdisk]
      exact hbf.clean
    · rw [hself, hkey, hdev]
      exact hbf.apart
    · rw [hself]
      exact fun hd => ⟨(hbf.dirty hd).1, by dsimp only; omega⟩
    · rw [hself]
      exact fun _ => by dsimp only; omega
    · rw [hself]
      exact hbf.lock
  · refine hu'.congr hdev (fun x => List.mem_cons_of_mem _) (fun x hx => ?_) (fun x r done hx hl => ?_)
      fun _ _ _ _ _ _ _ _ hd => by rw [hdisk]; exact hd
    · cases Option.mem_unique hx hp
      exact halike
    · rw [hx] at hp
      cases hp
      rw [hself]
      exact ⟨hl, fun _ _ _ hd => hd⟩
  · rw [hself]
    exact hv
  · rw [hself] at hl
    exact ⟨hb, hl⟩
  · exact absurd (congrFun hplace i) (hno i)

/-- Nobody has the buffer that is assigned anew. -/
theorem Assigned.noRefs {run : Option Nat} (ha : Assigned s s₁ bf dev block)
    (h : Kept P keys run refs store s) (hT : Table s) : countRefs refs bf = 0 := by
  rcases ha.origin with ⟨-, rfl, -, -⟩ | ⟨-, hlast, -, -⟩
  · exact List.countP_eq_zero.mpr fun r hr e =>
      hT.made_ne (h.refMade r.1 r.2 hr) (beq_iff_eq.mp e)
  · have hmem := List.mem_of_getLast? hlast
    have hbf := h.bufs bf (h.freeMade bf hmem)
    have h0 := hbf.free.mp hmem
    rw [hbf.count] at h0
    exact Int.natCast_eq_zero.mp h0

/-- **`getblk` assigns a buffer to the block**, which is not in the cache. -/
theorem Kept.assigned (h : Kept P keys (some t) refs store s) (hT : Table s) (hmiss : Miss s dev block)
    (hask : (dev, block) ∈ keys) (ha : Assigned s s₁ bf dev block) :
    s₁.Made bf ∧ Kept P keys (some t) ((t, bf) :: refs) store s₁ ∧
      ∀ x u, s₁.Made x → (s₁.buf x).lock.holder = some u →
        s.Made x ∧ (s.buf x).lock.holder = some u := by
  -- nobody has the buffer
  have hzero := ha.noRefs h hT
  have hmade : (∀ x, s₁.Made x ↔ s.Made x ∨ x = bf) ∧
      bf ∉ s₁.freeList ∧ s₁.freeList.Nodup ∧ (∀ x, x ≠ bf → (x ∈ s₁.freeList ↔ x ∈ s.freeList)) ∧
      (s₁.buf bf).lock.Sound ∧
      ∀ u, (s₁.buf bf).lock.holder = some u → s.Made bf ∧ (s.buf bf).lock.holder = some u := by
    rcases ha.origin with ⟨hn, rfl, hf, hl⟩ | ⟨hn, hlast, hf, hl⟩
    · have hnot : ¬ s.Made s.bufferPtr := fun hm => hT.made_ne hm rfl
      refine ⟨fun x => ?_, ?_, hf ▸ h.freeNodup, fun x _ => by rw [hf], ?_, fun u hu => ?_⟩
      · rw [← made_succ hT x, State.Made, hn]
      · rw [hf]
        exact fun hm => hnot (h.freeMade _ hm)
      · rw [hl]
        exact ⟨rfl, rfl⟩
      · rw [hl] at hu
        cases hu
    · have hmem := List.mem_of_getLast? hlast
      have hb := h.freeMade bf hmem
      refine ⟨fun x => ?_, ?_, ?_, fun x hx => ?_, hl ▸ (h.bufs bf hb).lock, fun u hu => ?_⟩
      · rw [State.Made, hn]
        exact ⟨.inl, fun e => e.elim id fun e => e ▸ hb⟩
      · rw [hf]
        exact h.freeNodup.not_mem_erase
      · rw [hf]
        exact h.freeNodup.erase bf
      · rw [hf]
        exact List.mem_erase_of_ne hx
      · rw [hl] at hu
        exact ⟨hb, hu⟩
  obtain ⟨hmade, hnotFree, hnodup, hfree, hsound, hholder⟩ := hmade
  have hnone : ∀ {u : Nat}, (u, bf) ∉ refs := fun hr => by
    have := countRefs_pos hr
    omega
  -- nor has another one the block
  have hother : ∀ x, s.Made x → (dev, block) ≠ s.key x := fun x hx e => by
    obtain ⟨hd, hk⟩ := Prod.mk.inj e
    exact absurd (holds_iff.mpr ⟨hd.symm, hk.symm⟩) (Bool.eq_false_iff.mp (hmiss _ x (h.bufs x hx).home))
  have hkey : s₁.key bf = (dev, block) := by
    rw [State.key, ha.onDev, ha.onBlock]
  have hplace : s₁.place bf = BufferCache.place s.devices dev block := by
    rw [State.place, ha.onDev, ha.onBlock, ha.devices]
  -- what has changed in the cache is no sector of the block
  have hright : P → ∀ i, s.disk (s₁.place bf i) = store (s₁.place bf i) := by
    intro hP i
    refine h.right hP fun x hx hd j e => ?_
    rw [hplace] at e
    exact (h.bufs x hx).apart hP hd _ hask (hother x hx) i j e.symm
  refine ⟨(hmade bf).mpr (.inr rfl), ?_, fun x u hx hl => ?_⟩
  case refine_2 =>
    by_cases e : x = bf
    · subst e
      exact hholder u hl
    · rw [ha.other x e] at hl
      exact ⟨((hmade x).mp hx).resolve_right e, hl⟩
  refine h.edit bf ⟨ha.pc, hmade, ha.other, hfree,
    ha.chains, fun x hx => countRefs_cons_ne hx, fun u x hx => keep_cons hx, ha.devices,
    fun _ _ _ => rfl, fun _ _ _ _ _ => rfl, fun _ _ hd _ => by rw [ha.disk]; exact hd, hnodup⟩
    ?_ (fun u _ hp hu' => ?_) (fun u hr => absurd hr hnone) (fun u hl _ => hholder u hl)
    fun hP hb i _ => ?_
  · refine ⟨?_, ?_, ?_, ?_, fun _ => ?_, fun hP _ i => ?_, fun _ => ?_, ?_, ?_, hsound⟩
    · rw [ha.count, countRefs_cons_self, hzero]
      rfl
    · rw [ha.count]
      exact iff_of_false hnotFree Int.one_ne_zero
    · rw [ha.onDev, ha.onBlock]
      exact ha.home
    · rw [hkey]
      exact hask
    · rw [ha.valid]
      exact Bool.noConfusion
    · rw [ha.disk]
      exact hright hP i
    · rw [ha.dirty]
      exact Bool.noConfusion
    · rw [ha.dirty]
      exact Bool.noConfusion
    · rw [ha.count]
      exact fun _ => Int.one_ne_zero
  · -- a task at the buffer would have a reference
    refine absurd (?_ : (u, bf) ∈ refs) hnone
    generalize s.pc u = p at hp hu'
    cases p with
    | out => cases hp
    | asleep => cases hp
    | locking x => cases hp; exact hu'
    | yielding x => cases hp; exact hu'
    | reading x => cases hp; exact hu'.1
    | writing x => cases hp; exact hu'.1
  · refine (h.bufs bf hb).clean hP (Bool.eq_false_iff.mpr fun hd => ?_) i
    have hc := ((h.bufs bf hb).dirty hd).2
    rw [(h.bufs bf hb).count, hzero] at hc
    exact hc rfl

end Take

/-! ## 3. The data of a buffer, and giving back a reference -/

section Data

variable {P : Prop} {keys : Set (Int × Nat)} {refs : List (Nat × Nat)} {store : Disk.Cell → α}
  {s s' : State α} {t bf : Nat}
  {r : Request} {done : Nat} {rel : Bool} {b : Buffer α}

theorem Ready.setBuf (h : Ready refs s t) (hv : (s.buf bf).valid = true → b.valid = true)
    (hl : b.lock.holder = (s.buf bf).lock.holder) : Ready refs (s.setBuf bf b) t where
  valid := fun x hx => by
    by_cases e : x = bf
    · subst e
      rw [setBuf_self]
      exact hv (h.valid x hx)
    · rw [setBuf_of_ne e]
      exact h.valid x hx
  lock := fun x hx => by
    by_cases e : x = bf
    · subst e
      rw [setBuf_self, hl]
      exact h.lock x hx
    · rw [setBuf_of_ne e]
      exact h.lock x hx

/-- The buffer when the disk has delivered all of its data, and its lock free. -/
def State.fill (s : State α) (bf : Nat) : State α :=
  (s.setBuf bf { s.buf bf with dirty := false, valid := true }).unlock bf

theorem fill_eq : s.fill bf = s.setBuf bf { s.buf bf with
    dirty := false, valid := true
    lock := { (s.buf bf).lock with value := false, holder := none, depth := 0 } } := by
  unfold State.fill State.unlock State.setLock
  rw [setBuf_self, setBuf_setBuf]

theorem fill_self : (s.fill bf).buf bf = { s.buf bf with
    dirty := false, valid := true
    lock := { (s.buf bf).lock with value := false, holder := none, depth := 0 } } := by
  rw [fill_eq, setBuf_self]

theorem fill_of_ne {x : Nat} (h : x ≠ bf) : (s.fill bf).buf x = s.buf x := by
  rw [fill_eq, setBuf_of_ne h]

/-- A buffer that is not valid has not been changed. -/
theorem BufOk.unchanged (h : BufOk P keys refs store s bf) (hv : (s.buf bf).valid = false) :
    (s.buf bf).dirty = false := by
  refine Bool.eq_false_iff.mpr fun hd => ?_
  rw [(h.dirty hd).1] at hv
  cases hv

/-- Where another task can stand at a buffer that is being read. -/
theorem TaskOk.besides {q : Pc} {u : Nat} {s₁ : State α} {store₁ : Disk.Cell → α} (h : TaskOk P refs store s u q)
    (hp : bf ∈ q.buffer) (hv : (s.buf bf).valid = false) (hl : (s.buf bf).lock.holder = some t)
    (hu : u ≠ t) : TaskOk P refs store₁ s₁ u q := by
  cases q with
  | out => cases hp
  | asleep => cases hp
  | locking x => exact h
  | yielding x => exact h
  | reading x r done =>
    cases hp
    exact absurd (Option.some.inj (hl.symm.trans h.2.2.2.1)).symm hu
  | writing x r done rel =>
    cases hp
    exact absurd (hv.symm.trans h.2.2.1) Bool.false_ne_true

/-- **The disk delivers a sector** of the data of a buffer that is not valid. -/
theorem Kept.fetched (h : Kept P keys (some t) refs store s) (hb : s.Made bf)
    (ht : TaskOk P refs store s t (.reading bf r done)) (hd : done < BLOCK_SECS) {s₁ : State α}
    (hs₁ : s₁ = s.setBuf bf { s.buf bf with
      data := Function.update (s.buf bf).data ⟨done, hd⟩ (s.disk (r.cell ⟨done, hd⟩)) }) :
    Kept P keys (some t) refs store s₁ ∧ TaskOk P refs store s₁ t (.reading bf r (done + 1)) := by
  obtain ⟨href, hask, hv, hl, hdata⟩ := ht
  subst hs₁
  have hbf := h.bufs bf hb
  refine ⟨?_, href, ?_, ?_, ?_, fun hP i hi => ?_⟩
  · refine h.setBuf hb rfl rfl (hbf.setBuf rfl rfl rfl (fun _ hv' => ?_) hbf.clean hbf.apart hbf.dirty
      hbf.idle hbf.lock) (fun u hu hp hu' => hu'.besides hp hv hl hu) (fun hv => hv) fun u _ hl => hl
    exact absurd (hv.symm.trans hv') Bool.false_ne_true
  · rw [State.Asks, setBuf_self]
    exact hask
  · rw [setBuf_self]
    exact hv
  · rw [setBuf_self]
    exact hl
  · rw [setBuf_self]
    by_cases e : i = ⟨done, hd⟩
    · rw [e, hask.cell]
      exact (Function.update_self ..).trans (hbf.clean hP (hbf.unchanged hv) _)
    · have hne : i.val ≠ done := fun e' => e (Fin.ext e')
      exact (Function.update_of_ne e ..).trans (hdata hP i (by omega))

/-- **The buffer is valid** when all sectors have arrived. -/
theorem Kept.filled (h : Kept P keys (some t) refs store s) (hb : s.Made bf)
    (ht : TaskOk P refs store s t (.reading bf r done)) (hd : ¬ done < BLOCK_SECS) :
    Kept P keys (some t) refs store (s.fill bf) := by
  obtain ⟨-, hask, hv, hl, hdata⟩ := ht
  have hbf := h.bufs bf hb
  rw [fill_eq]
  refine h.setBuf hb rfl rfl (hbf.setBuf rfl rfl rfl (fun hP _ i => ?_)
    (fun hP _ => hbf.clean hP (hbf.unchanged hv)) nofun nofun nofun ⟨rfl, rfl⟩)
    (fun u hu hp hu' => hu'.besides hp hv hl hu) (fun _ => rfl) fun u _ hu => nomatch hu
  rw [← hask.cell]
  exact hdata hP i (Nat.lt_of_lt_of_le i.isLt (Nat.le_of_not_lt hd))

/-- **A task changes the data** of a buffer it has. -/
theorem Kept.touched (h : Kept P keys (some t) refs store s) (ha : s.Alone bf) (hb : s.Made bf)
    (hr : (t, bf) ∈ refs) (hv : (s.buf bf).valid = true) {data : Sectors α}
    (hu : P → Careful keys s bf data) :
    Kept P keys (some t) refs (setBlock store (s.place bf) data)
      (s.setBuf bf { s.buf bf with data := data, dirty := true }) := by
  have hbf := h.bufs bf hb
  have hpos : (s.buf bf).count ≠ 0 := by
    rw [hbf.count]
    exact Int.natCast_ne_zero.mpr (countRefs_pos hr).ne'
  obtain ⟨s₁, hs₁⟩ : ∃ s₁, s₁ = s.setBuf bf { s.buf bf with data := data, dirty := true } := ⟨_, rfl⟩
  rw [← hs₁]
  have hself : s₁.buf bf = { s.buf bf with data := data, dirty := true } := by
    rw [hs₁]
    exact setBuf_self
  have halike : Alike (s.buf bf) (s₁.buf bf) := by
    rw [hself]
    exact ⟨rfl, rfl, rfl⟩
  have hdev : s₁.devices = s.devices := by
    rw [hs₁]
    rfl
  have hdisk : s₁.disk = s.disk := by
    rw [hs₁]
    rfl
  have hplace := place_congr hdev halike
  have hkey := key_congr halike
  have hat (i : Fin BLOCK_SECS) : setBlock store (s.place bf) data (s.place bf i) = data i :=
    setBlock_at store data i
  refine h.edit bf ⟨by rw [hs₁]; rfl, fun x => ?_, fun x hx => ?_, fun _ _ => by rw [hs₁]; rfl,
    fun _ _ _ => by rw [hs₁]; rfl, fun _ _ => rfl, fun _ _ _ => Iff.rfl, hdev,
    fun _ c hc => ?_, fun hP x hx hne i => ?_, fun _ c hc e => ?_, by rw [hs₁]; exact h.freeNodup⟩
    ?_ (fun u _ hp hu' => ?_) (fun u _ _ hv => ?_) (fun u hl _ => ?_) fun _ _ i hno => ?_
  · rw [hs₁]
    exact ⟨.inl, fun e => e.elim id fun e => e ▸ hb⟩
  · rw [hs₁]
    exact setBuf_of_ne hx
  · rw [hplace] at hc
    exact setBlock_of_ne _ _ fun i e => hc i e.symm
  · exact setBlock_of_ne _ _ fun j => (hu hP).apart _ (h.bufs x hx).asked (ha x hx hne) i j
  · rw [hdisk, e]
    exact hc
  · refine ⟨?_, ?_, ?_, ?_, fun _ _ i => ?_, fun _ hd => ?_, fun hP _ => ?_, ?_, ?_, ?_⟩
    · rw [hself]
      exact hbf.count
    · rw [hself, hs₁]
      exact hbf.free
    · rw [hself, hs₁]
      exact hbf.home
    · rw [hkey]
      exact hbf.asked
    · rw [hself, hplace]
      exact (hat i).symm
    · rw [hself] at hd
      cases hd
    · rw [hkey, hdev]
      exact (hu hP).apart
    · rw [hself]
      exact fun _ => ⟨hv, hpos⟩
    · rw [hself]
      exact hbf.idle
    · rw [hself]
      exact hbf.lock
  · refine hu'.congr hdev (fun _ h => h) (fun x hx => ?_) (fun x r done hx hl => ?_)
      fun x r done rel hx hP i hi hd => ?_
    · cases Option.mem_unique hx hp
      exact halike
    · rw [hx] at hp hu'
      cases hp
      -- nobody reads a buffer that is valid
      exact absurd (hu'.2.2.1.symm.trans hv) Bool.false_ne_true
    · have hx' := hx
      rw [hx] at hp hu'
      cases hp
      -- what the disk has already is as it was
      rw [hu'.2.1.cell] at hd ⊢
      rw [hdisk, hat, (hu hP).undisturbed u r done rel hx' i hi, hbf.data hP hv]
      exact hd
  · rw [hself]
    exact hv
  · rw [hself] at hl
    exact ⟨hb, hl⟩
  · exact absurd (congrFun hplace i) (hno i)

/-- **The disk gets a sector** of a write. -/
theorem Kept.sent (h : Kept P keys (some t) refs store s) (hb : s.Made bf)
    (ht : TaskOk P refs store s t (.writing bf r done rel)) (hd : done < BLOCK_SECS) {s₁ : State α}
    (hs₁ : s₁ = { s with
      disk := Function.update s.disk (r.cell ⟨done, hd⟩) ((s.buf bf).data ⟨done, hd⟩) }) :
    Kept P keys (some t) refs store s₁ ∧ TaskOk P refs store s₁ t (.writing bf r (done + 1) rel) := by
  obtain ⟨href, hask, hv, hdone⟩ := ht
  subst hs₁
  have hbf := h.bufs bf hb
  -- the sector is right now, and what was right still is
  have hnew (hP : P) : (s.buf bf).data ⟨done, hd⟩ = store (r.cell ⟨done, hd⟩) := by
    rw [hask.cell]
    exact hbf.data hP hv _
  have hself : Function.update s.disk (r.cell ⟨done, hd⟩) ((s.buf bf).data ⟨done, hd⟩) (r.cell ⟨done, hd⟩) =
      (s.buf bf).data ⟨done, hd⟩ := Function.update_self ..
  have hright (hP : P) (c : Disk.Cell) (hc : s.disk c = store c) :
      Function.update s.disk (r.cell ⟨done, hd⟩) ((s.buf bf).data ⟨done, hd⟩) c = store c := by
    by_cases e : c = r.cell ⟨done, hd⟩
    · rw [e, hself, hnew hP]
    · rw [Function.update_of_ne e, hc]
  refine ⟨?_, href, hask, hv, fun hP i hi => ?_⟩
  · refine h.edit bf ⟨rfl, fun x => ?_, fun _ _ => rfl, fun _ _ => Iff.rfl,
      fun _ _ _ => Iff.rfl, fun _ _ => rfl, fun _ _ _ => Iff.rfl, rfl, fun _ _ _ => rfl,
      fun _ _ _ _ _ => rfl, fun hP c hc _ => hright hP c hc, h.freeNodup⟩
      ?_ (fun u _ _ hu' => ?_) (fun _ _ _ hv => hv) (fun u hl _ => ⟨hb, hl⟩)
      fun _ _ i hno => absurd rfl (hno i)
    · exact ⟨.inl, fun e => e.elim id fun e => e ▸ hb⟩
    · exact ⟨hbf.count, hbf.free, hbf.home, hbf.asked, hbf.data,
        fun hP hd i => hright hP _ (hbf.clean hP hd i), hbf.apart, hbf.dirty, hbf.idle, hbf.lock⟩
    · exact hu'.congr rfl (fun _ h => h) (fun _ _ => .of_eq rfl)
        (fun _ _ _ _ hl => ⟨hl, fun _ _ _ hd => hd⟩) fun _ _ _ _ _ hP _ _ hd => hright hP _ hd
  · by_cases e : i = ⟨done, hd⟩
    · rw [e]
      exact hself.trans (hnew hP)
    · have hne : i.val ≠ done := fun e' => e (Fin.ext e')
      exact hright hP (r.cell i) (hdone hP i (by omega))

/-- **A write is completed** when the disk has all sectors. -/
theorem Kept.completed (h : Kept P keys (some t) refs store s) (hb : s.Made bf)
    (ht : TaskOk P refs store s t (.writing bf r done rel)) (hd : ¬ done < BLOCK_SECS) :
    Kept P keys (some t) refs store (s.setBuf bf { s.buf bf with dirty := false, valid := true }) := by
  obtain ⟨-, hask, hv, hdone⟩ := ht
  have hbf := h.bufs bf hb
  refine h.setBuf hb rfl rfl (hbf.setBuf rfl rfl rfl (fun hP _ => hbf.data hP hv) (fun hP _ i => ?_)
    nofun nofun nofun hbf.lock) (fun u _ hp hu' => ?_) (fun _ => rfl) fun u _ hl => hl
  · rw [← hask.cell]
    exact hdone hP i (Nat.lt_of_lt_of_le i.isLt (Nat.le_of_not_lt hd))
  · refine hu'.congr rfl (fun _ h => h) (fun x hx => ?_) (fun x r done hx hl => ?_)
      fun _ _ _ _ _ _ _ _ hd => hd
    · cases Option.mem_unique hx hp
      rw [setBuf_self]
      exact ⟨rfl, rfl, hv.symm⟩
    · rw [hx] at hp
      cases hp
      rw [setBuf_self]
      exact ⟨hl, fun _ _ _ hd => hd⟩

theorem drop_buf (x : Nat) : (s.drop bf).buf x =
    (s.setBuf bf { s.buf bf with count := (s.buf bf).count - 1 }).buf x := by
  unfold State.drop
  dsimp only
  split <;> rfl

/-- **A reference is given back.** -/
theorem Kept.dropped (h : Kept P keys (some t) refs store s) (hb : s.Made bf)
    (hr : (t, bf) ∈ refs) (hv : (s.buf bf).valid = true) (hd : (s.buf bf).dirty = false)
    (hno : (s.buf bf).count - 1 = 0 → bf ∉ s.freeList) :
    Kept P keys (some t) (refs.erase (t, bf)) store (s.drop bf) := by
  have hbf := h.bufs bf hb
  have hself : (s.drop bf).buf bf = { s.buf bf with count := (s.buf bf).count - 1 } :=
    (drop_buf bf).trans setBuf_self
  have hrest : (s.drop bf).pc = s.pc ∧ (s.drop bf).hashTable = s.hashTable ∧
      (s.drop bf).disk = s.disk ∧ (s.drop bf).bufferCount = s.bufferCount ∧
      (s.drop bf).devices = s.devices := by
    unfold State.drop
    dsimp only
    split <;> exact ⟨rfl, rfl, rfl, rfl, rfl⟩
  obtain ⟨hpc, htable, hdisk, hcount, hdev⟩ := hrest
  have halike : Alike (s.buf bf) ((s.drop bf).buf bf) := by
    rw [hself]
    exact ⟨rfl, rfl, rfl⟩
  have hplace := place_congr hdev halike
  have hkey := key_congr halike
  have hfree : (s.buf bf).count - 1 = 0 ∧ (s.drop bf).freeList = bf :: s.freeList ∨
      (s.buf bf).count - 1 ≠ 0 ∧ (s.drop bf).freeList = s.freeList := by
    unfold State.drop
    dsimp only
    split
    next e => exact .inl ⟨e, rfl⟩
    next e => exact .inr ⟨e, rfl⟩
  have hone := countRefs_erase hr
  refine h.edit bf ⟨hpc, fun x => ?_, fun x hx => ?_, fun x hx => ?_, fun x _ i => ?_,
    fun x hx => ?_, fun u x hx => ?_, hdev, fun _ _ _ => rfl, fun _ _ _ _ _ => rfl,
    fun _ _ hd _ => by rw [hdisk]; exact hd, ?_⟩
    ?_ (fun u hu hp hu' => ?_) (fun u _ _ hv => ?_) (fun u hl _ => ?_) fun _ _ i hno => ?_
  · rw [State.Made, hcount]
    exact ⟨.inl, fun e => e.elim id fun e => e ▸ hb⟩
  · rw [drop_buf, setBuf_of_ne hx]
  · rcases hfree with ⟨-, e⟩ | ⟨-, e⟩ <;> rw [e]
    exact List.mem_cons.trans (or_iff_right hx)
  · rw [htable]
  · rw [hone x, if_neg (Ne.symm hx), Nat.add_zero]
  · refine List.mem_erase_of_ne fun e => ?_
    cases e
    exact hx.elim (fun h => h rfl) fun h => h rfl
  · rcases hfree with ⟨e0, e⟩ | ⟨-, e⟩ <;> rw [e]
    · exact List.nodup_cons.mpr ⟨hno e0, h.freeNodup⟩
    · exact h.freeNodup
  · have hc := hbf.count
    have hb1 := hone bf
    rw [if_pos rfl] at hb1
    refine ⟨?_, ?_, ?_, ?_, ?_, ?_, ?_, ?_, ?_, ?_⟩
    · rw [hself]
      dsimp only
      omega
    · rw [hself]
      rcases hfree with ⟨e0, e⟩ | ⟨e0, e⟩ <;> rw [e]
      · exact iff_of_true (List.mem_cons_self ..) e0
      · refine iff_of_false (fun hm => ?_) e0
        have := hbf.free.mp hm
        omega
    · rw [hself, htable]
      exact hbf.home
    · rw [hkey]
      exact hbf.asked
    · rw [hself, hplace]
      exact hbf.data
    · rw [hself, hplace, hdisk]
      exact hbf.clean
    · rw [hself, hkey, hdev]
      exact hbf.apart
    · rw [hself]
      exact fun e => absurd (hd.symm.trans e) Bool.false_ne_true
    · rw [hself]
      exact fun e => absurd (e.symm.trans hv) Bool.false_ne_true
    · rw [hself]
      exact hbf.lock
  · refine hu'.congr hdev (fun x hx => ?_) (fun x hx => ?_) (fun x r done hx hl => ?_)
      fun _ _ _ _ _ _ _ _ hd => by rw [hdisk, hd]
    · refine (List.mem_erase_of_ne fun e => ?_).mpr hx
      cases e
      exact hu rfl
    · cases Option.mem_unique hx hp
      exact halike
    · rw [hx] at hp
      cases hp
      rw [hself]
      exact ⟨hl, fun _ _ _ hd => hd⟩
  · rw [hself]
    exact hv
  · rw [hself] at hl
    exact ⟨hb, hl⟩
  · exact absurd (congrFun hplace i) (hno i)

theorem Ready.drop (h : Ready refs s t) : Ready (refs.erase (t, bf)) (s.drop bf) t := by
  have h' : Ready refs (s.setBuf bf { s.buf bf with count := (s.buf bf).count - 1 }) t :=
    h.setBuf (fun hv => hv) rfl
  refine ⟨fun x hx => ?_, fun x hx => ?_⟩
  · rw [drop_buf]
    exact h'.valid x (List.mem_of_mem_erase hx)
  · rw [drop_buf]
    refine h'.lock x ?_
    have hcount : (s.drop bf).bufferCount = s.bufferCount := by
      unfold State.drop
      dsimp only
      split <;> rfl
    rw [State.Made, hcount] at hx
    exact hx

end Data

/-! ## 4. The calls -/

section Calls

variable {P : Prop} {keys : Set (Int × Nat)} {refs : List (Nat × Nat)} {store : Disk.Cell → α}
  {s s' : State α} {t bf : Nat}
  {dev : Int} {block : Nat} {rel : Bool}

/-- **`bread`**, up to its first blocking point. -/
theorem getBlock_kept (hi : Inv (some t) s) (h : Kept P keys none refs store s) (hpc : s.pc t = .out)
    (hask : (dev, block) ∈ keys) (hg : getBlock s t dev block true = .ok s') :
    Kept P keys none ((s'.got t).toList.map (fun bf => (t, bf)) ++ refs) store s' := by
  have hready : Ready refs s t := h.ready_of_pc fun bf e => by
    rw [hpc] at e
    rcases e with e | ⟨_, _, e⟩ <;> cases e
  have htail : ∀ {bf x : Nat}, (t, x) ∈ (t, bf) :: refs → x ≠ bf → (t, x) ∈ refs :=
    fun hx hne => (keep_cons (.inr hne)).mp hx
  unfold getBlock at hg
  split at hg
  next bf s₁ hs =>
    have hk := (h.run (t := t)).hit hi.toTable hs
    have hb := (getFromHashTable_hit hi hs).2
    obtain ⟨-, -, rfl⟩ := getFromHashTable_some hs
    have main : Kept P keys none ((t, bf) :: refs) store s' ∧ s'.got t = some bf := by
      refine hk.gotBlock hb (List.mem_cons_self ..) (fun x hx hne => ?_) (fun x hx => ?_) hg
      · rw [setBuf_of_ne hne]
        exact hready.valid x (htail hx hne)
      · by_cases e : x = bf
        · subst e
          rw [setBuf_self]
          exact hready.lock x hx
        · rw [setBuf_of_ne e]
          exact hready.lock x hx
    rw [main.2]
    exact main.1
  next hs =>
    have hmiss := getFromHashTable_miss hi hs
    rcases takeFree_assigned hg with hm | ⟨bf, s₁, ha, hg⟩
    · have hgot : s'.got t = none := by
        rw [State.got, hm.pc, Function.update_self]
        rfl
      rw [hgot]
      exact h.run.stop hm trivial (fun x hx => .inl (hready.valid x hx))
        fun x hx hl => absurd hl (hready.lock x hx)
    · obtain ⟨hb, hk, hlock⟩ := (h.run (t := t)).assigned hi.toTable hmiss hask ha
      obtain ⟨hk, hgot⟩ := hk.gotBlock hb (List.mem_cons_self ..)
        (fun x hx hne => by rw [ha.other x hne]; exact hready.valid x (htail hx hne))
        (fun x hx hl => hready.lock x (hlock x t hx hl).1 (hlock x t hx hl).2) hg
      rw [hgot]
      exact hk

/-- The lock in `bread`, once the task has been woken. -/
theorem lockTake_kept (hi : Inv none s) (h : Kept P keys none refs store s) (hpc : s.pc t = .locking bf)
    (hl : lockTake s t bf = .ok s') : Kept P keys none refs store s' := by
  have hb : s.Made bf := hi.inside t nofun bf (by rw [hpc]; rfl)
  have hr : (t, bf) ∈ refs := by
    have := h.tasks t nofun
    rw [hpc] at this
    exact this
  have hvalid : ∀ x, (t, x) ∈ refs → x ≠ bf → (s.buf x).valid = true := by
    refine fun x hx hne => (h.ready t x hx nofun).resolve_right fun ha => ?_
    rw [hpc] at ha
    rcases ha with e | ⟨_, _, e⟩
    · exact hne (Pc.locking.inj e).symm
    · cases e
  have hlock : ∀ x, s.Made x → (s.buf x).lock.holder ≠ some t := by
    intro x hx hl
    obtain ⟨_, _, e⟩ := h.holder t x hx hl nofun
    rw [hpc] at e
    cases e
  have hrun : Kept P keys (some t) refs store s := h.run
  rcases lockTake_moved (hrun.unlocked hb) hl with ⟨-, hm⟩ | ⟨-, hv, hm⟩ |
    ⟨hfree, hv, r, hask, hm⟩
  · refine hrun.stop hm hr (fun x hx => ?_) fun x hx hl => absurd hl (hlock x hx)
    by_cases e : x = bf
    · exact .inr (.inl (by rw [e]))
    · exact .inl (hvalid x hx e)
  · have hready : Ready refs s t := by
      refine ⟨fun x hx => ?_, hlock⟩
      by_cases e : x = bf
      · exact e ▸ hv
      · exact hvalid x hx e
    rcases hm with ⟨hm, -⟩ | hm
    · exact hrun.leave hm hready
    · exact hrun.stop hm hr (fun x hx => .inl (hready.valid x hx))
        fun x hx hl => absurd hl (hlock x hx)
  · exact hrun.toReading hb hr hvalid hlock hfree hv hask hm

/-- The end of `brelse`. -/
theorem release_kept (h : Kept P keys (some t) refs store s) (hready : Ready refs s t)
    (hr : (t, bf) ∈ refs) (hd : (s.buf bf).dirty = false) (hrel : release s t bf = .ok s') :
    Kept P keys none (refs.erase (t, bf)) store s' ∧ s'.pc t = .out := by
  have hb := h.refMade t bf hr
  obtain ⟨hm, -, hno⟩ := release_moved hrel
  refine ⟨(h.dropped hb hr (hready.valid bf hr) hd hno).leave hm hready.drop, ?_⟩
  rw [hm.pc, Function.update_self]

/-- `bwrite`, or `brelse`, up to its first blocking point. -/
theorem write_kept (h : Kept P keys none refs store s) (hpc : s.pc t = .out)
    (hr : (t, bf) ∈ refs) (hw : write s t bf rel = .ok s') :
    Kept P keys none (if rel = true ∧ s'.pc t = .out then refs.erase (t, bf) else refs) store s' := by
  have hready : Ready refs s t := h.ready_of_pc fun bf e => by
    rw [hpc] at e
    rcases e with e | ⟨_, _, e⟩ <;> cases e
  unfold write at hw
  dsimp only at hw
  split at hw
  next hd =>
    obtain ⟨r, hask, hw⟩ := ok_of_bind hw
    cases hw
    have hm : Moved s (s.setPc t (.writing bf r 0 rel)) t _ := (Quiet.refl s).setPc
    have hpc' : (s.setPc t (.writing bf r 0 rel)).pc t ≠ .out := by
      rw [hm.pc, Function.update_self]
      nofun
    rw [if_neg fun e => hpc' e.2]
    exact h.run.stop hm ⟨hr, hask, hready.valid bf hr, fun _ i hi => absurd hi (Nat.not_lt_zero _)⟩
      (fun x hx => .inl (hready.valid x hx)) fun x hx hl => absurd hl (hready.lock x hx)
  next hd =>
    unfold written at hw
    split at hw
    next hrel =>
      obtain ⟨hk, hpc'⟩ := release_kept h.run hready hr (Bool.eq_false_iff.mpr hd) hw
      rw [if_pos ⟨hrel, hpc'⟩]
      exact hk
    next hrel =>
      cases hw
      rw [if_neg fun e => hrel e.1]
      exact h.run.leave (Quiet.refl s).leave hready

/-- A task runs on. -/
theorem resume_kept {w : World α} (hi : Inv none w.cache) (h : Kept P keys none w.refs w.store w.cache)
    (hrun : runnable w.cache t = true) (hr : resume w.cache t = .ok s') :
    Kept P keys none (w.resumed t) w.store s' := by
  have htask := h.tasks t nofun
  have hinside := hi.inside t nofun
  unfold World.resumed
  unfold runnable at hrun
  unfold resume at hr
  cases hpc : w.cache.pc t with
  | out =>
    rw [hpc] at hrun
    cases hrun
  | asleep dev block read =>
    -- nobody has made it ready
    rw [hpc] at hrun
    rw [hi.asleep t nofun (by rw [hpc]; rfl)] at hrun
    cases hrun
  | locking bf =>
    rw [hpc] at hr
    exact lockTake_kept hi h hpc hr
  | reading bf r done =>
    rw [hpc] at hr htask hinside
    have hb := hinside bf rfl
    -- every other buffer the task has is valid, and it holds no other lock
    have hvalid : ∀ x, (t, x) ∈ w.refs → x ≠ bf → (w.cache.buf x).valid = true := by
      refine fun x hx e => (h.ready t x hx nofun).resolve_right fun ha => ?_
      rw [hpc] at ha
      rcases ha with e' | ⟨_, _, e'⟩
      · cases e'
      · cases e'
        exact e rfl
    have hlocks : ∀ x, w.cache.Made x → x ≠ bf → (w.cache.buf x).lock.holder ≠ some t := by
      intro x hx e hl
      obtain ⟨_, _, e'⟩ := h.holder t x hx hl nofun
      rw [hpc] at e'
      cases e'
      exact e rfl
    dsimp only at hr
    split at hr
    next hd =>
      obtain ⟨-, -, hr⟩ := ok_of_bind hr
      cases hr
      obtain ⟨hk, ht⟩ := (h.run (t := t)).fetched hb htask hd rfl
      refine hk.stop (Quiet.refl _).setPc ht (fun x hx => ?_) fun x hx hl => ?_
      · by_cases e : x = bf
        · exact .inr (.inr ⟨r, done + 1, by rw [e]⟩)
        · rw [setBuf_of_ne e]
          exact .inl (hvalid x hx e)
      · by_cases e : x = bf
        · exact ⟨r, done + 1, by rw [e]⟩
        · rw [setBuf_of_ne e] at hl
          exact absurd hl (hlocks x hx e)
    next hd =>
      have hlock := (h.bufs bf hb).lock.of_holder htask.2.2.2.1
      have hk := (h.run (t := t)).filled hb htask hd
      have hready : Ready w.refs (w.cache.fill bf) t := by
        refine ⟨fun x hx => ?_, fun x hx => ?_⟩
        · by_cases e : x = bf
          · rw [e, fill_self]
          · rw [fill_of_ne e]
            exact hvalid x hx e
        · by_cases e : x = bf
          · rw [e, fill_self]
            nofun
          · rw [fill_of_ne e]
            exact hlocks x hx e
      rcases lockRelease_moved (by rw [setBuf_self]; exact hlock.2) hr with ⟨hm, -⟩ | hm
      · exact hk.leave hm hready
      · exact hk.stop hm htask.1 (fun x hx => .inl (hready.valid x hx))
          fun x hx hl => absurd hl (hready.lock x hx)
  | yielding bf =>
    rw [hpc] at hr
    cases hr
    refine h.run.leave (Quiet.refl _).leave (h.ready_of_pc fun bf e => ?_)
    rw [hpc] at e
    rcases e with e | ⟨_, _, e⟩ <;> cases e
  | writing bf r done rel =>
    rw [hpc] at hr htask hinside
    have hb := hinside bf rfl
    have hready : Ready w.refs w.cache t := h.ready_of_pc fun bf e => by
      rw [hpc] at e
      rcases e with e | ⟨_, _, e⟩ <;> cases e
    dsimp only at hr
    split at hr
    next hd =>
      obtain ⟨-, -, hr⟩ := ok_of_bind hr
      cases hr
      obtain ⟨hk, ht⟩ := (h.run (t := t)).sent hb htask hd rfl
      have hends : (Pc.writing bf r done rel).ends = none := by
        cases rel with
        | true => exact if_pos hd
        | false => rfl
      rw [hends]
      exact hk.stop (Quiet.refl _).setPc ht (fun x hx => .inl (hready.valid x hx))
        fun x hx hl => absurd hl (hready.lock x hx)
    next hd =>
      have hk := (h.run (t := t)).completed hb htask hd
      have hready' : Ready w.refs (w.cache.setBuf bf
          { w.cache.buf bf with dirty := false, valid := true }) t :=
        hready.setBuf (fun _ => rfl) rfl
      unfold written at hr
      cases rel with
      | true =>
        have hends : (Pc.writing bf r done true).ends = some bf := if_neg hd
        rw [hends]
        exact (release_kept hk hready' htask.1 (by rw [setBuf_self]) hr).1
      | false =>
        cases hr
        exact hk.leave (Quiet.refl _).leave hready'

end Calls

/-! ## 5. Every world -/

section Worlds

variable {P : Prop} {keys : Set (Int × Nat)} {Ok : State α → Nat → Sectors α → Prop} {w w' : World α}

/-- **A step of the users keeps the invariants.** -/
theorem uses_kept (hok : P → ∀ s bf data, Ok s bf data → Careful keys s bf data) (hi : Inv none w.cache)
    (h : Kept P keys none w.refs w.store w.cache) (hs : Uses keys Ok w w') :
    Inv none w'.cache ∧ Kept P keys none w'.refs w'.store w'.cache := by
  cases hs with
  | bread t dev block hpc hask hstart =>
    refine ⟨start_inv (c := .bread dev block) hi hpc nofun hstart,
      getBlock_kept (hi.resumed (.inr fun bf e => ?_)) h hpc hask hstart⟩
    rw [hpc] at e
    cases e
  | touch t bf data hpc href hu hstart =>
    have hb := h.refMade t bf href
    have hready : Ready w.refs w.cache t := h.ready_of_pc fun bf e => by
      rw [hpc] at e
      rcases e with e | ⟨_, _, e⟩ <;> cases e
    refine ⟨start_inv (c := .touch bf data) hi hpc (fun x hx => Option.some.inj hx ▸ hb) hstart, ?_⟩
    cases hstart
    exact (h.run.touched (h.alone hi.toTable hb) hb href (hready.valid bf href)
      (fun hP => hok hP _ _ _ hu)).leave (Moved.refl hpc) (hready.setBuf (fun hv => hv) rfl)
  | bwrite t bf hpc href hstart =>
    have hb := h.refMade t bf href
    refine ⟨start_inv (c := .bwrite bf) hi hpc (fun x hx => Option.some.inj hx ▸ hb) hstart, ?_⟩
    have := write_kept h hpc href hstart
    rwa [if_neg (by simp)] at this
  | brelse t bf hpc href hstart =>
    have hb := h.refMade t bf href
    refine ⟨start_inv (c := .brelse bf) hi hpc (fun x hx => Option.some.inj hx ▸ hb) hstart, ?_⟩
    have := write_kept h hpc href hstart
    simp only [true_and] at this
    exact this
  | resume t hrun hr => exact ⟨resume_inv hi hrun hr, resume_kept hi h hrun hr⟩

/-- **The invariants hold in every world that users reach**, careful users or not. -/
theorem used_kept (hok : P → ∀ s bf data, Ok s bf data → Careful keys s bf data)
    (h : Used keys Ok w) : Inv none w.cache ∧ Kept P keys none w.refs w.store w.cache := by
  induction h with
  | init buf devices disk top => exact ⟨inv_initUpTo buf devices disk top, kept_init P keys buf devices disk top⟩
  | step _ hs ih => exact uses_kept hok ih.1 ih.2 hs

end Worlds

end Yuios.BufferCache
