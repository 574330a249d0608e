/-
  File:      Yuios/Fs/InodeTurns.lean
  Subject:   ONE TURN OF `iget` AND `iput`: what each of them does before it waits for the disk,
             where it waits, and what is left to do when it wakes.

  * `upTo_bread`, `upTo_bwrite` -- the two points where the calls wait.
  * `IputTurn`, `IgetTurn` -- the ways a turn of a call ends: at its end or asleep before
    `iputRest`, `crossRest` or `loadRest`. `iput_turn`, `iget_turn`: there are no others.
-/
import Yuios.Lib.Interleave
import Yuios.Fs.Placed

namespace Yuios

open Lib Prog Code

/-! ## 1. Turns that come to an end -/

section Quiet

variable {α : Type} {s : Kernel}

/-- A program that never waits stops the machine or comes to its end. -/
theorem upTo_quiet {p : Code α} (hq : Quiet p) (s : Kernel) :
    (∃ e, upTo p s = .stopped e) ∨ ∃ a t, upTo p s = .done a t ∧ Ends p s a t := by
  have hs := hq s
  clear hq
  induction p generalizing s with
  | ret a => exact .inr ⟨a, s, rfl, rfl, rfl⟩
  | stop e => exact .inl ⟨e, rfl⟩
  | get k ih => exact ih s s hs
  | put t p ih => exact ih t hs
  | block l p ih => exact hs.1.elim

theorem quiet_superTable (dev : Int) : Quiet (superOf dev) :=
  quiet_bind (quiet_reads _) fun _ => quiet_bind (quiet_need _ _) fun _ => quiet_pure _

theorem quiet_onInode (x : Nat) (f : Inode → Inode) : Quiet (onInode x f) := quiet_modify _

theorem quiet_findInode (dev : Int) (nr : Nat) : Quiet (findInode dev nr) :=
  quiet_bind (quiet_superTable dev) fun _ => quiet_bind (quiet_reads _) fun _ => quiet_pure _

theorem quiet_getFreeInode : Quiet getFreeInode :=
  quiet_bind (quiet_reads _) fun _ => quiet_need _ _

theorem quiet_putFreeInode (x : Nat) : Quiet (putFreeInode x) :=
  quiet_bind (quiet_check _ _) fun _ => quiet_bind (quiet_reads _) fun _ =>
    quiet_bind (quiet_check _ _) fun _ => quiet_modify _

theorem quiet_listRemoveInode (x : Nat) : Quiet (listRemoveInode x) :=
  quiet_bind (quiet_reads _) fun _ => quiet_bind (quiet_need _ _) fun _ => quiet_modify _

theorem quiet_listPushInode (dev : Int) (x : Nat) : Quiet (listPushInode dev x) :=
  quiet_bind (quiet_reads _) fun _ => quiet_bind (quiet_need _ _) fun _ =>
    quiet_bind (quiet_check _ _) fun _ => quiet_modify _

/-- `bread` waits unless the buffer is valid. -/
theorem upTo_bread (dev : Int) (block : Nat) :
    upTo (bread dev block) s =
      if (s.cache.buf ⟨dev, block⟩).data.isSome then
        .done ⟨dev, block⟩ { s with cache := s.cache.addCount ⟨dev, block⟩ 1 }
      else
        .asleep [.bread ⟨dev, block⟩]
          (do onCache (·.load ⟨dev, block⟩); return ⟨dev, block⟩)
          { s with cache := s.cache.addCount ⟨dev, block⟩ 1 } := by
  have hd : ((s.cache.addCount ⟨dev, block⟩ 1).buf ⟨dev, block⟩).data =
      (s.cache.buf ⟨dev, block⟩).data := by simp [Cache.addCount]
  unfold bread
  rw [upTo_bind]
  simp only [onCache, upTo_modify]
  rw [upTo_bind]
  simp only [upTo_reads, hd]
  split <;> rfl

/-- `bwrite` waits if the buffer is dirty. -/
theorem upTo_bwrite (k : Key) :
    upTo (bwrite k) s =
      if (s.cache.buf k).dirty then
        .asleep [.bwrite k] (onCache (·.flushed k)) { s with cache := s.cache.flush k }
      else .done () s := by
  unfold bwrite
  rw [upTo_bind]
  simp only [upTo_reads]
  split <;> rfl

theorem upTo_onInode {β : Type} {x : Nat} {f : Inode → Inode} {g : Unit → Code β} :
    upTo (onInode x f >>= g) s = upTo (g ()) (s.setInode x (f (s.tab.inodeTable x))) := rfl

theorem upTo_onCache {β : Type} {f : Cache → Cache} {g : Unit → Code β} :
    upTo (onCache f >>= g) s = upTo (g ()) { s with cache := f s.cache } := rfl

theorem upTo_inodeAt {β : Type} {x : Nat} {g : Inode → Code β} :
    upTo (inodeAt x >>= g) s = upTo (g (s.tab.inodeTable x)) s := rfl

/-- A clean buffer is released at once. -/
theorem upTo_brelse {k : Key} (hd : (s.cache.buf k).dirty = false) :
    upTo (brelse k) s = .stopped .assertion ∨
      upTo (brelse k) s = .done () { s with cache := s.cache.addCount k (-1) } := by
  unfold brelse
  rw [upTo_bind, upTo_bwrite, hd]
  simp only [Bool.false_eq_true, if_false]
  rw [upTo_bind]
  simp only [onCache, upTo_modify]
  rw [upTo_bind]
  simp only [upTo_reads, Code.assert, Prog.check]
  split
  · exact .inr rfl
  · exact .inl rfl

end Quiet

/-! ## 2. `iput` -/

/-- What `iput` does when the buffer is clean. -/
def iputRest (x : Nat) : Code Unit := do
  onInode x fun i => { i with count := i.count - 1 }
  let i ← inodeAt x
  if i.count ≠ 0 then
    return ()
  else
    brelse i.buf
    listRemoveInode x
    putFreeInode x

/-- The reference has been given back: it was not the last one, or the slot is free now. -/
inductive PutBack (x : Nat) (s t : Kernel) : Prop where
  | kept (hc : (s.tab.inodeTable x).count - 1 ≠ 0)
      (ht : t = s.setInode x
        { s.tab.inodeTable x with count := (s.tab.inodeTable x).count - 1 })
  | freed (hc : (s.tab.inodeTable x).count - 1 = 0) (i : Nat)
      (hi : x ∈ (s.tab.superTable i).inodeList)
      (htab : t.tab = (s.tab.setInode x
        { s.tab.inodeTable x with count := 0, dev := devEOF }).setSuper i
        { s.tab.superTable i with inodeList := (s.tab.superTable i).inodeList.erase x })
      (hcache : t.cache = s.cache.addCount (s.tab.inodeTable x).buf (-1))

section Iput

variable {s : Kernel} {x : Nat}

theorem upTo_iput (hp : (s.tab.inodeTable x).pipe = false) :
    upTo (iput x) s =
      if (s.cache.buf (s.tab.inodeTable x).buf).dirty then
        .asleep [.bwrite (s.tab.inodeTable x).buf]
          (do onCache (·.flushed (s.tab.inodeTable x).buf); iputRest x)
          { s with cache := s.cache.flush (s.tab.inodeTable x).buf }
      else upTo (iputRest x) s := by
  unfold iput inodeAt
  rw [upTo_bind]
  simp only [upTo_reads, hp, Bool.false_eq_true, if_false]
  rw [upTo_bind, upTo_bwrite]
  by_cases hd : (s.cache.buf (s.tab.inodeTable x).buf).dirty
  · simp only [hd, if_true]
    rfl
  · simp only [hd]
    rfl

/-- With a clean buffer `iput` does not wait. -/
theorem iputRest_turn (hd : (s.cache.buf (s.tab.inodeTable x).buf).dirty = false) :
    (∃ e, upTo (iputRest x) s = .stopped e) ∨
      ∃ t, upTo (iputRest x) s = .done () t ∧ PutBack x s t := by
  unfold iputRest
  rw [upTo_onInode, upTo_inodeAt]
  generalize hs₁ : s.setInode x _ = s₁
  have hself : s₁.tab.inodeTable x =
      { s.tab.inodeTable x with count := (s.tab.inodeTable x).count - 1 } := by
    rw [← hs₁]
    exact Function.update_self ..
  rw [hself]
  dsimp only
  split
  · rename_i hc
    exact .inr ⟨s₁, rfl, .kept hc hs₁.symm⟩
  · rename_i hc
    have hc : (s.tab.inodeTable x).count - 1 = 0 := by simpa using hc
    have hd₁ : (s₁.cache.buf (s.tab.inodeTable x).buf).dirty = false := by rw [← hs₁]; exact hd
    rw [upTo_bind]
    obtain hb | hb := upTo_brelse hd₁ <;> rw [hb]
    · exact .inl ⟨_, rfl⟩
    dsimp only
    have hq : Quiet (do listRemoveInode x; putFreeInode x : Code Unit) :=
      quiet_bind (quiet_listRemoveInode x) fun _ => quiet_putFreeInode x
    obtain hstop | ⟨u, t, ht, hends⟩ := upTo_quiet hq
      { s₁ with cache := s₁.cache.addCount (s.tab.inodeTable x).buf (-1) }
    · exact .inl hstop
    · refine .inr ⟨t, ht, ?_⟩
      obtain ⟨_, s₂, h₂, h⟩ := runs_bind.mp hends
      obtain ⟨i, hi, rfl⟩ := runs_listRemoveInode h₂
      obtain ⟨-, rfl⟩ := runs_putFreeInode h
      subst hs₁
      refine .freed hc i hi ?_ rfl
      simp [Tables.setInode, Tables.setSuper, hc]

end Iput

/-! ## 3. `iget` -/

/-- What `fit_inode` does when the covered directory's buffer is clean. -/
def crossRest (x : Nat) (sb : SuperBlock) : Code Nat := do
  iputRest x
  let y ← Prog.need .fault sb.iroot
  onInode y fun i => { i with count := i.count + 1 }
  return y

/-- What `iget` does when the block has been read. -/
def loadRest (x nr : Nat) (k : Key) : Code Nat := do
  onCache (·.load k)
  onInode x fun i => { i with buf := k, desc := 32 * ((nr - 1) % BLOCK_INODES) }
  return x

/-- The slot for an inode that is not in memory yet: taken and in the list, buffer and descriptor
    as they were. -/
def igetSlot (dev : Int) (nr : Nat) : Code (Nat × Nat) := do
  let sb ← superOf dev
  assert (nr ≤ sb.inodes)
  let x ← getFreeInode
  onInode x fun i => { i with dev := dev, nr := nr, count := i.count + 1 }
  listPushInode dev x
  return (x, inodeBlock sb nr)

/-- The ways a turn of `iget` ends. -/
inductive IgetTurn (s : Kernel) (dev : Int) (nr : Nat) :
    Pause Stop Kernel (List Frame) Nat → Prop where
  | stopped (e : Stop) : IgetTurn s dev nr (.stopped e)
  | found {i x : Nat} (hi : s.tab.getSuper dev = some i)
      (hx : x ∈ (s.tab.superTable i).inodeList) (hnr : (s.tab.inodeTable x).nr = nr)
      (hm : (s.tab.inodeTable x).mount = 0) :
      IgetTurn s dev nr (.done x { s with tab := s.tab.took x })
  | crossed {i x j y : Nat} (hi : s.tab.getSuper dev = some i)
      (hx : x ∈ (s.tab.superTable i).inodeList) (hnr : (s.tab.inodeTable x).nr = nr)
      (hm : (s.tab.inodeTable x).mount ≠ 0) (hj : s.tab.getSuper (s.tab.inodeTable x).mount = some j)
      (hy : (s.tab.superTable j).iroot = some y) :
      IgetTurn s dev nr (.done y { s with tab := s.tab.took y })
  | crossing {i x j : Nat} (hi : s.tab.getSuper dev = some i)
      (hx : x ∈ (s.tab.superTable i).inodeList) (hnr : (s.tab.inodeTable x).nr = nr)
      (hm : (s.tab.inodeTable x).mount ≠ 0)
      (hj : s.tab.getSuper (s.tab.inodeTable x).mount = some j) :
      IgetTurn s dev nr (.asleep [.bwrite (s.tab.inodeTable x).buf]
        (do onCache (·.flushed (s.tab.inodeTable x).buf); crossRest x (s.tab.superTable j))
        { s with tab := s.tab.took x, cache := s.cache.flush (s.tab.inodeTable x).buf })
  | loaded {i x : Nat} {k : Key} (hi : s.tab.getSuper dev = some i)
      (hnr : ∀ y ∈ (s.tab.superTable i).inodeList, (s.tab.inodeTable y).nr ≠ nr)
      (hlt : x < INODE_NR) (hfree : (s.tab.inodeTable x).dev = devEOF)
      (hx : x ∉ (s.tab.superTable i).inodeList)
      (hk : k = ⟨dev, inodeBlock (s.tab.superTable i) nr⟩) (hv : (s.cache.buf k).data.isSome) :
      IgetTurn s dev nr (.done x
        { s with
          tab := s.tab.claimed i x
            { s.tab.inodeTable x with
              dev := dev, nr := nr, count := (s.tab.inodeTable x).count + 1, buf := k,
              desc := 32 * ((nr - 1) % BLOCK_INODES) }
          cache := s.cache.addCount k 1 })
  | loading {i x : Nat} {k : Key} (hi : s.tab.getSuper dev = some i)
      (hnr : ∀ y ∈ (s.tab.superTable i).inodeList, (s.tab.inodeTable y).nr ≠ nr)
      (hlt : x < INODE_NR) (hfree : (s.tab.inodeTable x).dev = devEOF)
      (hx : x ∉ (s.tab.superTable i).inodeList)
      (hk : k = ⟨dev, inodeBlock (s.tab.superTable i) nr⟩) :
      IgetTurn s dev nr (.asleep [.bread k] (loadRest x nr k)
        { s with
          tab := s.tab.claimed i x
            { s.tab.inodeTable x with
              dev := dev, nr := nr, count := (s.tab.inodeTable x).count + 1 }
          cache := s.cache.addCount k 1 })

section Iget

variable {s : Kernel} {x nr : Nat} {dev : Int}

theorem crossRest_turn (sb : SuperBlock)
    (hd : (s.cache.buf (s.tab.inodeTable x).buf).dirty = false) :
    (∃ e, upTo (crossRest x sb) s = .stopped e) ∨ ∃ y t, sb.iroot = some y ∧ PutBack x s t ∧
      upTo (crossRest x sb) s = .done y { t with tab := t.tab.took y } := by
  unfold crossRest
  rw [upTo_bind]
  obtain ⟨e, he⟩ | ⟨t, ht, hput⟩ := iputRest_turn hd
  · exact .inl ⟨e, by rw [he]⟩
  · rw [ht]
    cases hy : sb.iroot with
    | none => exact .inl ⟨_, rfl⟩
    | some y => exact .inr ⟨y, t, rfl, hput, rfl⟩

theorem quiet_igetSlot (dev : Int) (nr : Nat) : Quiet (igetSlot dev nr) :=
  quiet_bind (quiet_superTable dev) fun _ => quiet_bind (quiet_check _ _) fun _ =>
    quiet_bind quiet_getFreeInode fun _ => quiet_bind (quiet_onInode _ _) fun _ =>
      quiet_bind (quiet_listPushInode _ _) fun _ => quiet_pure _

theorem runs_igetSlot {r : Nat × Nat} {t : Kernel} {i : Nat} (hi : s.tab.getSuper dev = some i)
    (h : Ends (igetSlot dev nr) s r t) :
    r.1 < INODE_NR ∧ (s.tab.inodeTable r.1).dev = devEOF ∧
      r.1 ∉ (s.tab.superTable i).inodeList ∧ r.2 = inodeBlock (s.tab.superTable i) nr ∧
      t = { s with tab := s.tab.claimed i r.1 { s.tab.inodeTable r.1 with
        dev := dev, nr := nr, count := (s.tab.inodeTable r.1).count + 1 } } := by
  obtain ⟨sb, s₁, h₁, h⟩ := runs_bind.mp h
  obtain ⟨⟨j, hj, rfl⟩, rfl⟩ := runs_superOf.mp h₁
  obtain rfl : i = j := Option.some.inj (hi.symm.trans hj)
  obtain ⟨_, s₁, h₁, h⟩ := runs_bind.mp h
  rw [runs_assert] at h₁
  obtain ⟨-, rfl⟩ := h₁
  obtain ⟨x, s₁, h₁, h⟩ := runs_bind.mp h
  obtain ⟨hlt, hfree, rfl⟩ := runs_getFreeInode h₁
  obtain ⟨_, s₂, h₂, h⟩ := runs_bind.mp h
  obtain ⟨_, s₃, h₃, rfl, rfl⟩ := runs_bind.mp h
  have h₂ := runs_onInode h₂
  obtain ⟨j, hj, hx, rfl⟩ := runs_listPushInode h₃
  have hj' : s.tab.getSuper dev = some j := by rw [h₂] at hj; exact hj
  obtain rfl : i = j := Option.some.inj (hi.symm.trans hj')
  rw [h₂] at hx
  refine ⟨hlt, hfree, hx, rfl, ?_⟩
  rw [h₂]
  rfl

theorem iget_eq : iget dev nr = (findInode dev nr >>= fun r =>
    match r with
    | some x => do
      onInode x fun i => { i with count := i.count + 1 }
      fitInode x
    | none => do
      let r ← igetSlot dev nr
      let buf ← bread dev r.2
      onInode r.1 fun i => { i with buf := buf, desc := 32 * ((nr - 1) % BLOCK_INODES) }
      return r.1) := by
  unfold iget
  congr 1
  funext r
  cases r with
  | some x => rfl
  | none => simp [igetSlot]

/-- The inode is in memory: `fit_inode` goes on with a reference of its own. -/
theorem fitInode_turn {i : Nat} (hi : s.tab.getSuper dev = some i)
    (hx : x ∈ (s.tab.superTable i).inodeList) (hnr : (s.tab.inodeTable x).nr = nr)
    (hc : (s.tab.inodeTable x).count ≠ 0) (hp : (s.tab.inodeTable x).pipe = false) :
    IgetTurn s dev nr (upTo (fitInode x) (s.setInode x
      { s.tab.inodeTable x with count := (s.tab.inodeTable x).count + 1 })) := by
  generalize hs₁ : s.setInode x _ = s₁
  have htook : s₁ = { s with tab := s.tab.took x } := hs₁.symm
  have hself : s₁.tab.inodeTable x =
      { s.tab.inodeTable x with count := (s.tab.inodeTable x).count + 1 } := by
    rw [← hs₁]
    exact Function.update_self ..
  unfold fitInode
  rw [upTo_inodeAt, hself]
  dsimp only
  by_cases hm : (s.tab.inodeTable x).mount = 0
  · rw [if_pos hm]
    exact htook ▸ .found hi hx hnr hm
  rw [if_neg hm, upTo_bind]
  obtain ⟨e, he⟩ | ⟨sb, t, ht, hends⟩ :=
    upTo_quiet (quiet_superTable (s.tab.inodeTable x).mount) s₁
  · rw [he]
    exact .stopped e
  obtain ⟨⟨j, hj, rfl⟩, rfl⟩ := runs_superOf.mp hends
  rw [ht]
  dsimp only
  have hj' : s.tab.getSuper (s.tab.inodeTable x).mount = some j := by rw [htook] at hj; exact hj
  have hsb : s₁.tab.superTable j = s.tab.superTable j := by rw [htook]; rfl
  have hbuf : (s₁.tab.inodeTable x).buf = (s.tab.inodeTable x).buf := by rw [hself]
  rw [upTo_bind, upTo_iput (by rw [hself]; exact hp), hbuf, hsb]
  have hcache : s₁.cache = s.cache := by rw [htook]
  by_cases hd : (s₁.cache.buf (s.tab.inodeTable x).buf).dirty
  · rw [if_pos hd]
    have := IgetTurn.crossing hi hx hnr hm hj'
    rw [htook]
    exact this
  rw [if_neg hd]
  obtain ⟨e, he⟩ | ⟨t, ht', hput⟩ := iputRest_turn (s := s₁) (x := x) (by simpa [hbuf] using hd)
  · rw [he]
    exact .stopped e
  rw [ht']
  cases hy : (s.tab.superTable j).iroot with
  | none => exact .stopped _
  | some y =>
    cases hput with
    | freed hc' =>
      rw [hself] at hc'
      exact absurd hc' (by simpa using hc)
    | kept _ ht =>
      have hback : t = s := by
        rw [ht, hself, ← hs₁]
        simp [Kernel.setInode, Tables.setInode]
      rw [hback]
      exact .crossed hi hx hnr hm hj' hy

/-- **A turn of `iget`** ends in one of these ways. -/
theorem iget_turn (hlive : ∀ i, ∀ x ∈ (s.tab.superTable i).inodeList,
      (s.tab.inodeTable x).count ≠ 0 ∧ (s.tab.inodeTable x).pipe = false) :
    IgetTurn s dev nr (upTo (iget dev nr) s) := by
  rw [iget_eq, upTo_bind]
  obtain ⟨e, he⟩ | ⟨r, t, ht, hends⟩ := upTo_quiet (quiet_findInode dev nr) s
  · rw [he]
    exact .stopped e
  obtain ⟨i, hi, rfl, hr⟩ := runs_findInode hends
  rw [ht]
  dsimp only
  cases r with
  | some x =>
    have hx := List.mem_of_find?_eq_some hr.symm
    have hnr : (s.tab.inodeTable x).nr = nr := by simpa using List.find?_some hr.symm
    obtain ⟨hc, hp⟩ := hlive i x hx
    dsimp only
    rw [upTo_onInode]
    exact fitInode_turn hi hx hnr hc hp
  | none =>
    have hnr : ∀ y ∈ (s.tab.superTable i).inodeList, (s.tab.inodeTable y).nr ≠ nr := by
      simpa using List.find?_eq_none.mp hr.symm
    dsimp only
    rw [upTo_bind]
    obtain ⟨e, he⟩ | ⟨⟨x, block⟩, t, ht, hends⟩ := upTo_quiet (quiet_igetSlot dev nr) s
    · rw [he]
      exact .stopped e
    obtain ⟨hlt, hfree, hx, rfl, rfl⟩ := runs_igetSlot hi hends
    rw [ht]
    dsimp only
    rw [upTo_bind, upTo_bread]
    by_cases hv : (s.cache.buf ⟨dev, inodeBlock (s.tab.superTable i) nr⟩).data.isSome
    · dsimp only
      rw [if_pos hv]
      dsimp only
      rw [upTo_onInode]
      have := IgetTurn.loaded hi hnr hlt hfree hx rfl hv
      simpa [Kernel.setInode, Tables.claimed, Tables.setInode, Tables.setSuper] using this
    · dsimp only
      rw [if_neg hv]
      exact .loading hi hnr hlt hfree hx rfl

end Iget

end Yuios
