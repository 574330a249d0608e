/-
  File:      Yuios/Fs/Ledger.lean
  Subject:   WHO HOLDS WHAT: the reference counts of buffers and in-memory inodes, and what a piece
             of kernel code owes at its end.

  * `Booked` -- the in-memory tables are in order: a slot is free or has a count, the lists of the
    super blocks hold used slots, each once, and what is mounted has its inodes in memory.
  * `Tables.owners` -- every used slot that is no pipe holds one reference to the buffer of its
    descriptor.
  * `Holding s₀ held kept s` -- since `s₀`, the code has taken a reference to each inode in `held`
    and to each buffer in `kept`, and has changed nothing else in the books.
  * One rule a call: `holding_bread`, `holding_iput`, `holding_iget`, ...
-/
import Yuios.Fs.View

namespace Yuios

open Lib Prog Code

/-! ## 1. The books -/

/-- The slot is used. -/
def Inode.Live (i : Inode) : Prop := i.dev ≠ devEOF

/-- The slot holds a reference to the buffer of `k`. -/
def Inode.owns (i : Inode) (k : Key) : Bool := i.dev != devEOF && !i.pipe && decide (i.buf = k)

/-- The slots that hold a reference to the buffer of `k`. -/
def Tables.owners (t : Tables) (k : Key) : Nat :=
  (List.range INODE_NR).countP fun x => (t.inodeTable x).owns k

/-- **The in-memory tables are in order.** -/
structure Booked (t : Tables) : Prop where
  free : ∀ x, ¬ (t.inodeTable x).Live → (t.inodeTable x).count = 0 ∧ (t.inodeTable x).pipe = false
  live : ∀ x, (t.inodeTable x).Live → (t.inodeTable x).count ≠ 0 ∧ x < INODE_NR
  mount : ∀ x, (t.inodeTable x).mount ≠ devEOF
  listed : ∀ i, ∀ x ∈ (t.superTable i).inodeList,
    (t.inodeTable x).Live ∧ (t.inodeTable x).pipe = false
  nodup : ∀ i, (t.superTable i).inodeList.Nodup
  apart : ∀ i j x, x ∈ (t.superTable i).inodeList → x ∈ (t.superTable j).inodeList → i = j
  roots : ∀ i, (t.superTable i).dev ≠ devEOF → ∀ y,
    (t.superTable i).iroot = some y ∨ (t.superTable i).imount = some y → (t.inodeTable y).Live
  task : (t.inodeTable (t.task t.running).ipwd).Live ∧ (t.inodeTable (t.task t.running).iroot).Live

/-- **What the code holds**, since `s₀`. -/
structure Holding (s₀ : Kernel) (held : List Nat) (kept : List Key) (s : Kernel) : Prop where
  start : Booked s₀.tab
  booked : Booked s.tab
  count : ∀ x, (s.tab.inodeTable x).count = (s₀.tab.inodeTable x).count + held.count x
  keep : ∀ x, (s₀.tab.inodeTable x).Live →
    s.tab.inodeTable x = { s₀.tab.inodeTable x with count := (s.tab.inodeTable x).count }
  fresh : ∀ x, ¬ (s₀.tab.inodeTable x).Live → (s.tab.inodeTable x).pipe = false
  balance : ∀ k, (s.cache.buf k).count + s₀.tab.owners k =
    (s₀.cache.buf k).count + s.tab.owners k + kept.count k
  super : ∀ i, s.tab.superTable i =
    { s₀.tab.superTable i with inodeList := (s.tab.superTable i).inodeList }
  task : s.tab.task = s₀.tab.task
  running : s.tab.running = s₀.tab.running

theorem holding_refl {s : Kernel} (h : Booked s.tab) : Holding s [] [] s :=
  ⟨h, h, fun _ => rfl, fun _ _ => rfl, fun x hx => (h.free x hx).2, fun _ => by simp, fun _ => rfl, rfl, rfl⟩

/-- `p` leads from `P` to `Q`. -/
abbrev Leads {α : Type} (P : Kernel → Prop) (p : Code α) (Q : α → Kernel → Prop) : Prop :=
  Triple (fun _ _ => True) P p Q

section Books

variable {s₀ s t : Kernel} {held : List Nat} {kept : List Key} {x y : Nat} {k : Key}

/-- A slot with a count is used. -/
theorem Booked.live_of_count {t : Tables} (h : Booked t) (hc : (t.inodeTable x).count ≠ 0) :
    (t.inodeTable x).Live := by
  by_contra hn
  exact hc (h.free x hn).1

theorem Holding.live_of_mem (h : Holding s₀ held kept s) (hx : x ∈ held) :
    (s.tab.inodeTable x).Live := by
  have := List.count_pos_iff.mpr hx
  refine h.booked.live_of_count ?_
  rw [h.count x]
  omega

/-- What was used at the start is used. -/
theorem Holding.live_of_start (h : Holding s₀ held kept s) (hx : (s₀.tab.inodeTable x).Live) :
    (s.tab.inodeTable x).Live := by
  have := h.keep x hx
  unfold Inode.Live at hx ⊢
  rw [this]
  exact hx

theorem Holding.perm (h : Holding s₀ held kept s) {held' : List Nat} (hp : held.Perm held') :
    Holding s₀ held' kept s :=
  { h with count := fun x => by rw [h.count x, hp.count_eq] }

/-- The books depend on the tables and on the counts of the buffers. -/
theorem Holding.congr (h : Holding s₀ held kept s) (ht : t.tab = s.tab) {kept' : List Key}
    (hb : ∀ k, (t.cache.buf k).count + kept.count k = (s.cache.buf k).count + kept'.count k) :
    Holding s₀ held kept' t := by
  refine ⟨h.start, ?_, ?_, ?_, ?_, fun k => ?_, ?_, ?_, ?_⟩
  · exact ht ▸ h.booked
  · exact ht ▸ h.count
  · exact ht ▸ h.keep
  · exact ht ▸ h.fresh
  · rw [ht]
    have := h.balance k
    have := hb k
    omega
  · exact ht ▸ h.super
  · exact ht ▸ h.task
  · exact ht ▸ h.running

end Books

/-! ## 2. The calls on buffers -/

section Buffers

variable {c : Cache} {k k' : Key}

@[simp] theorem count_setBuf {b : Buffer} (h : b.count = (c.buf k).count) :
    ((c.setBuf k b).buf k').count = (c.buf k').count := by
  by_cases e : k' = k
  · rw [e, setBuf_buf_self, h]
  · rw [setBuf_buf_of_ne e]

theorem count_addCount {n : Int} :
    ((c.addCount k n).buf k').count = (c.buf k').count + if k' = k then n else 0 := by
  unfold Cache.addCount
  by_cases e : k' = k
  · rw [if_pos e, e, setBuf_buf_self]
  · rw [if_neg e, setBuf_buf_of_ne e, Int.add_zero]

@[simp] theorem count_load : ((c.load k).buf k').count = (c.buf k').count := by
  unfold Cache.load
  split
  · rfl
  · exact count_setBuf rfl

@[simp] theorem count_flush : ((c.flush k).buf k').count = (c.buf k').count := rfl

@[simp] theorem count_flushed : ((c.flushed k).buf k').count = (c.buf k').count := count_setBuf rfl

@[simp] theorem count_setDirty : ((c.setDirty k).buf k').count = (c.buf k').count := count_setBuf rfl

@[simp] theorem count_poke {f : Bytes → Bytes} :
    ((c.poke k f).buf k').count = (c.buf k').count := count_setBuf rfl

variable {s₀ : Kernel} {held : List Nat} {kept : List Key}

/-- The counts of the buffers are as before. -/
def SameCounts (s t : Kernel) : Prop := ∀ k, (t.cache.buf k).count = (s.cache.buf k).count

instance : Steady SameCounts where
  refl _ _ := rfl
  trans h h' k := (h' k).trans (h k)

theorem onCache_counts {f : Cache → Cache} (h : ∀ c k, ((f c).buf k).count = (c.buf k).count) :
    Obeys SameCounts (onCache f) := obeys_modify fun s => h s.cache

theorem bwrite_counts (k : Key) : Obeys SameCounts (bwrite k) := by
  refine obeys_bind (obeys_reads _) fun _ => obeys_ite (fun _ => ?_) fun _ => obeys_pure _
  exact obeys_bind (onCache_counts fun _ _ => count_flush) fun _ =>
    obeys_bind (obeys_sleep _) fun _ => onCache_counts fun _ _ => count_flushed

theorem bread_counts {dev : Int} {block : Nat} {s t : Kernel} {k k' : Key}
    (h : Ends (bread dev block) s k t) :
    (t.cache.buf k').count = (s.cache.buf k').count + if k' = ⟨dev, block⟩ then 1 else 0 := by
  obtain ⟨_, s₁, h₁, h⟩ := runs_bind.mp h
  rw [onCache, runs_modify] at h₁
  have hrest : SameCounts s₁ t := by
    obtain ⟨b, s₂, ⟨-, rfl⟩, h⟩ := runs_bind.mp h
    obtain ⟨-, -, rfl⟩ | ⟨-, h⟩ := runs_ite.mp h
    · exact Steady.refl _
    · obtain ⟨_, s₃, h₃, h⟩ := runs_bind.mp h
      obtain ⟨_, s₄, h₄, -, rfl⟩ := runs_bind.mp h
      rw [runs_sleep] at h₃
      rw [onCache, runs_modify] at h₄
      rw [← h₄, ← h₃.2]
      exact fun k' => count_load
  rw [hrest k', ← h₁]
  exact count_addCount

theorem brelse_counts {s t : Kernel} {k k' : Key} {u : Unit} (h : Ends (brelse k) s u t) :
    (t.cache.buf k').count = (s.cache.buf k').count + if k' = k then -1 else 0 := by
  obtain ⟨_, s₁, h₁, h⟩ := runs_bind.mp h
  obtain ⟨_, s₂, h₂, h⟩ := runs_bind.mp h
  obtain ⟨b, s₃, ⟨-, rfl⟩, h⟩ := runs_bind.mp h
  rw [runs_assert] at h
  rw [onCache, runs_modify] at h₂
  rw [← h.2, ← h₂, ← bwrite_counts k _ _ _ h₁ k']
  exact count_addCount

/-- A call that changes neither the tables nor the counts. -/
theorem holding_of_same {α : Type} {p : Code α} (h : Obeys Same p) (h' : Obeys SameCounts p) :
    Leads (Holding s₀ held kept) p fun _ => Holding s₀ held kept := fun s a t hs hr =>
  hs.congr (h s a t hr).tab fun k => by rw [h' s a t hr k]

theorem holding_hold (k : Key) :
    Leads (Holding s₀ held kept) (onCache (·.addCount k 1)) fun _ => Holding s₀ held (k :: kept) := by
  refine triple_modify fun s hs =>
    hs.congr (t := { s with cache := s.cache.addCount k 1 }) rfl fun k' => ?_
  simp only [count_addCount, List.count_cons, beq_iff_eq, eq_comm (a := k)]
  split <;> simp
  omega

theorem holding_bread (dev : Int) (block : Nat) :
    Leads (Holding s₀ held kept) (bread dev block) fun k t =>
      k = ⟨dev, block⟩ ∧ Holding s₀ held (k :: kept) t := by
  intro s k t hs h
  have hk := bread_key h
  refine ⟨hk, hs.congr (bread_same _ _ s k t h).tab fun k' => ?_⟩
  rw [bread_counts h, hk, List.count_cons]
  simp only [beq_iff_eq, eq_comm (a := k')]
  split <;> simp
  omega

theorem holding_bwrite (k : Key) :
    Leads (Holding s₀ held kept) (bwrite k) fun _ => Holding s₀ held kept :=
  holding_of_same (bwrite_same k) (bwrite_counts k)

theorem holding_brelse (k : Key) :
    Leads (Holding s₀ held (k :: kept)) (brelse k) fun _ => Holding s₀ held kept := by
  intro s u t hs h
  refine hs.congr (brelse_same _ s u t h).tab fun k' => ?_
  rw [brelse_counts h, List.count_cons]
  simp only [beq_iff_eq, eq_comm (a := k')]
  split <;> simp
  omega

theorem holding_brelse? (buf : Option Key) :
    Leads (Holding s₀ held (buf.toList ++ kept)) (brelse? buf) fun _ => Holding s₀ held kept := by
  cases buf with
  | none => exact keeps_pure _
  | some k => exact holding_brelse k

end Buffers

/-! ## 3. One slot of the inode table is changed -/

section Slot

variable {s₀ s t : Kernel} {held held' : List Nat} {kept kept' : List Key} {x : Nat} {k : Key}

theorem countP_update {l : List Nat} (hl : l.Nodup) (hx : x ∈ l) {p q : Nat → Bool}
    (h : ∀ y, y ≠ x → q y = p y) :
    l.countP q + (if p x then 1 else 0) = l.countP p + if q x then 1 else 0 := by
  have hp := List.perm_cons_erase hx
  have hrest : (l.erase x).countP q = (l.erase x).countP p :=
    List.countP_congr fun y hy => by rw [h y fun e => hl.not_mem_erase (e ▸ hy)]
  rw [hp.countP_eq q, hp.countP_eq p, List.countP_cons, List.countP_cons, hrest]
  omega

/-- The machine with the slot `x` changed. -/
abbrev Kernel.setInode (s : Kernel) (x : Nat) (i : Inode) : Kernel :=
  { s with tab := s.tab.setInode x i }

/-- The machine with the super block `i` changed. -/
abbrev Kernel.setSuper (s : Kernel) (i : Nat) (sb : SuperBlock) : Kernel :=
  { s with tab := s.tab.setSuper i sb }

/-- A slot changed changes its own part of the owners. -/
theorem owners_update (T T' : Tables) {i : Inode} (hx : x < INODE_NR)
    (hT : T'.inodeTable = Function.update T.inodeTable x i) (k : Key) :
    T'.owners k + (if (T.inodeTable x).owns k then 1 else 0) =
      T.owners k + if i.owns k then 1 else 0 := by
  have := countP_update (l := List.range INODE_NR) List.nodup_range (List.mem_range.mpr hx)
    (p := fun y => (T.inodeTable y).owns k) (q := fun y => (T'.inodeTable y).owns k) ?_
  · simpa [Tables.owners, hT] using this
  · intro y hy
    simp [hT, hy]

/-- The books after a used slot's count has changed. -/
theorem Holding.setCount (h : Holding s₀ held kept s) (hx : (s.tab.inodeTable x).Live) {n : Nat}
    (hn : n ≠ 0) (hc : n = (s₀.tab.inodeTable x).count + held'.count x)
    (ho : ∀ y, y ≠ x → held'.count y = held.count y) :
    Holding s₀ held' kept (s.setInode x { s.tab.inodeTable x with count := n }) := by
  have hself : (s.tab.setInode x { s.tab.inodeTable x with count := n }).inodeTable x =
      { s.tab.inodeTable x with count := n } := Function.update_self ..
  have hother : ∀ y, y ≠ x → (s.tab.setInode x { s.tab.inodeTable x with count := n }).inodeTable y =
      s.tab.inodeTable y := fun y hy => Function.update_of_ne hy ..
  have hlive : ∀ y, ((s.tab.setInode x { s.tab.inodeTable x with count := n }).inodeTable y).Live ↔
      (s.tab.inodeTable y).Live := by
    intro y
    by_cases e : y = x
    · rw [e, hself]
      exact Iff.rfl
    · rw [hother y e]
  have hrest : ∀ y, ((s.tab.setInode x { s.tab.inodeTable x with count := n }).inodeTable y) =
      { s.tab.inodeTable y with count := ((s.tab.setInode x
        { s.tab.inodeTable x with count := n }).inodeTable y).count } := by
    intro y
    by_cases e : y = x
    · rw [e, hself]
    · rw [hother y e]
  have hb := h.booked
  refine ⟨h.start, ⟨fun y hy => ?_, fun y hy => ?_, fun y => ?_, fun i y hy => ?_, hb.nodup,
    hb.apart, fun i hi y hy => (hlive y).mpr (hb.roots i hi y hy),
    ⟨(hlive _).mpr hb.task.1, (hlive _).mpr hb.task.2⟩⟩, fun y => ?_, fun y hy => ?_,
    fun y hy => ?_, fun k => ?_, h.super, h.task, h.running⟩
  · have e : y ≠ x := fun e => hy ((hlive y).mpr (e ▸ hx))
    rw [hother y e]
    exact hb.free y fun hl => hy ((hlive y).mpr hl)
  · refine ⟨?_, (hb.live y ((hlive y).mp hy)).2⟩
    by_cases e : y = x
    · rw [e, hself]
      exact hn
    · rw [hother y e]
      exact (hb.live y ((hlive y).mp hy)).1
  · rw [hrest y]
    exact hb.mount y
  · rw [hlive y, hrest y]
    exact hb.listed i y hy
  · by_cases e : y = x
    · rw [e, hself]
      exact hc
    · rw [hother y e, h.count y, ho y e]
  · rw [hrest y, h.keep y hy]
  · rw [hrest y]
    exact h.fresh y hy
  · have ho : (s.tab.setInode x { s.tab.inodeTable x with count := n }).owners k = s.tab.owners k := by
      have := owners_update s.tab
        (s.tab.setInode x { s.tab.inodeTable x with count := n }) (hb.live x hx).2 rfl k
      simpa [Inode.owns] using this
    rw [ho]
    exact h.balance k

/-- **The books after a slot that was free at the start has changed**, with the lists of the super
    blocks: the slot is in one list, or in none. -/
theorem Holding.slot (h : Holding s₀ held kept s) (hx : ¬ (s₀.tab.inodeTable x).Live)
    (hlt : x < INODE_NR) (i : Inode) (L : Nat → List Nat) (j₀ : Nat)
    (hinode : t.tab.inodeTable = Function.update s.tab.inodeTable x i)
    (hsuper : ∀ j, t.tab.superTable j = { s.tab.superTable j with inodeList := L j })
    (htask : t.tab.task = s.tab.task) (hrunning : t.tab.running = s.tab.running)
    (hi : i.Live ↔ i.count ≠ 0) (hp : i.pipe = false) (hm : i.mount ≠ devEOF)
    (hL : ∀ j, ∀ y ∈ L j, (y ≠ x ∧ y ∈ (s.tab.superTable j).inodeList) ∨
      (y = x ∧ i.Live ∧ j = j₀))
    (hnd : ∀ j, (L j).Nodup) (hc : i.count = held'.count x)
    (ho : ∀ y, y ≠ x → held'.count y = held.count y)
    (hbal : ∀ k, (t.cache.buf k).count + (if (s.tab.inodeTable x).owns k then 1 else 0) +
      kept.count k = (s.cache.buf k).count + (if i.owns k then 1 else 0) + kept'.count k) :
    Holding s₀ held' kept' t := by
  have hself : t.tab.inodeTable x = i := by simp [hinode]
  have hother : ∀ y, y ≠ x → t.tab.inodeTable y = s.tab.inodeTable y := by
    intro y hy
    simp [hinode, hy]
  have hold : ∀ y, (s₀.tab.inodeTable y).Live → y ≠ x ∧ (t.tab.inodeTable y).Live := by
    intro y hy
    have e : y ≠ x := fun e => hx (e ▸ hy)
    exact ⟨e, hother y e ▸ h.live_of_start hy⟩
  have hsup : ∀ j, t.tab.superTable j = { s₀.tab.superTable j with inodeList := L j } := by
    intro j
    rw [hsuper j, h.super j]
  have hb := h.booked
  refine ⟨h.start, ⟨?_, ?_, ?_, ?_, ?_, ?_, ?_, ?_⟩, ?_, ?_, ?_, ?_, ?_, ?_, ?_⟩
  · intro y hy
    by_cases e : y = x
    · rw [e, hself] at hy ⊢
      exact ⟨by simpa [hi] using hy, hp⟩
    · rw [hother y e] at hy ⊢
      exact hb.free y hy
  · intro y hy
    by_cases e : y = x
    · rw [e, hself] at hy ⊢
      exact ⟨hi.mp hy, hlt⟩
    · rw [hother y e] at hy ⊢
      exact hb.live y hy
  · intro y
    by_cases e : y = x
    · rwa [e, hself]
    · rw [hother y e]
      exact hb.mount y
  · intro j y hy
    simp only [hsup] at hy
    obtain ⟨e, hy⟩ | ⟨rfl, hl, -⟩ := hL j y hy
    · rw [hother y e]
      exact hb.listed j y hy
    · rw [hself]
      exact ⟨hl, hp⟩
  · intro j
    simp only [hsup]
    exact hnd j
  · intro j j' y hy hy'
    simp only [hsup] at hy hy'
    obtain ⟨e, hy⟩ | ⟨e, -, rfl⟩ := hL j y hy
    · obtain ⟨-, hy'⟩ | ⟨e', -⟩ := hL j' y hy'
      · exact hb.apart j j' y hy hy'
      · exact absurd e' e
    · obtain ⟨e', -⟩ | ⟨-, -, rfl⟩ := hL j' y hy'
      · exact absurd e e'
      · rfl
  · intro j hj y hy
    simp only [hsup] at hj hy
    exact (hold y (h.start.roots j hj y hy)).2
  · rw [htask, hrunning, h.task, h.running]
    exact ⟨(hold _ h.start.task.1).2, (hold _ h.start.task.2).2⟩
  · intro y
    by_cases e : y = x
    · rw [e, hself, hc, (h.start.free x hx).1, Nat.zero_add]
    · rw [hother y e, h.count y, ho y e]
  · intro y hy
    rw [hother y (hold y hy).1]
    exact h.keep y hy
  · intro y hy
    by_cases e : y = x
    · rw [e, hself, hp]
    · rw [hother y e]
      exact h.fresh y hy
  · intro k
    have := owners_update s.tab t.tab hlt hinode k
    have := h.balance k
    have := hbal k
    grind
  · intro j
    simp [hsup]
  · rw [htask, h.task]
  · rw [hrunning, h.running]

end Slot

/-! ## 4. What the calls on the inode table do -/

section Runs

variable {C : List Frame → Kernel → Prop} {s t : Kernel} {x nr : Nat} {dev : Int} {u : Unit}

theorem runs_onInode {f : Inode → Inode} (h : Runs C (onInode x f) s u t) :
    t = s.setInode x (f (s.tab.inodeTable x)) := by
  rw [onInode, onTables, runs_modify] at h
  exact h.symm

theorem runs_findInode {r : Option Nat} (h : Runs C (findInode dev nr) s r t) :
    ∃ i, s.tab.getSuper dev = some i ∧ s = t ∧
      r = (s.tab.superTable i).inodeList.find? fun x => (s.tab.inodeTable x).nr == nr := by
  obtain ⟨sb, s₁, h₁, h⟩ := runs_bind.mp h
  obtain ⟨⟨i, hi, rfl⟩, rfl⟩ := runs_superOf.mp h₁
  obtain ⟨tab, s₂, ⟨rfl, rfl⟩, hr, ht⟩ := runs_bind.mp h
  exact ⟨i, hi, ht, hr.symm⟩

theorem runs_getFreeInode (h : Runs C getFreeInode s x t) :
    x < INODE_NR ∧ (s.tab.inodeTable x).dev = devEOF ∧ s = t := by
  obtain ⟨tab, s₁, ⟨rfl, rfl⟩, h⟩ := runs_bind.mp h
  rw [runs_need] at h
  refine ⟨List.mem_range.mp (List.mem_of_find?_eq_some h.1), ?_, h.2⟩
  simpa using List.find?_some h.1

theorem runs_putFreeInode (h : Runs C (putFreeInode x) s u t) :
    (s.tab.inodeTable x).count = 0 ∧
      t = s.setInode x { s.tab.inodeTable x with dev := devEOF } := by
  obtain ⟨_, s₁, h₁, h⟩ := runs_bind.mp h
  obtain ⟨i, s₂, ⟨rfl, rfl⟩, h⟩ := runs_bind.mp h
  obtain ⟨_, s₃, h₃, h⟩ := runs_bind.mp h
  rw [runs_assert] at h₁ h₃
  obtain ⟨-, rfl⟩ := h₁
  obtain ⟨hc, rfl⟩ := h₃
  exact ⟨by simpa using hc, runs_onInode h⟩

theorem runs_listRemoveInode (h : Runs C (listRemoveInode x) s u t) :
    ∃ i, x ∈ (s.tab.superTable i).inodeList ∧ t = s.setSuper i
      { s.tab.superTable i with inodeList := (s.tab.superTable i).inodeList.erase x } := by
  obtain ⟨tab, s₁, ⟨rfl, rfl⟩, h⟩ := runs_bind.mp h
  obtain ⟨i, s₂, hi, h⟩ := runs_bind.mp h
  rw [runs_need] at hi
  obtain ⟨hi, rfl⟩ := hi
  rw [onTables, runs_modify] at h
  exact ⟨i, by simpa using List.find?_some hi, h.symm⟩

theorem runs_listPushInode (h : Runs C (listPushInode dev x) s u t) :
    ∃ i, s.tab.getSuper dev = some i ∧ x ∉ (s.tab.superTable i).inodeList ∧
      t = s.setSuper i
        { s.tab.superTable i with inodeList := x :: (s.tab.superTable i).inodeList } := by
  obtain ⟨tab, s₁, ⟨rfl, rfl⟩, h⟩ := runs_bind.mp h
  obtain ⟨i, s₂, hi, h⟩ := runs_bind.mp h
  obtain ⟨_, s₃, hn, h⟩ := runs_bind.mp h
  rw [runs_need] at hi
  rw [runs_assert] at hn
  obtain ⟨hi, rfl⟩ := hi
  obtain ⟨hn, rfl⟩ := hn
  rw [onTables, runs_modify] at h
  exact ⟨i, hi, by simpa using hn, h.symm⟩

/-- `get_super` answers a slot with the device asked for. -/
theorem getSuper_dev {T : Tables} {i : Nat} (h : T.getSuper dev = some i) :
    (T.superTable i).dev = dev := by
  simpa using List.find?_some h

end Runs

/-! ## 5. The calls on inodes -/

section Inodes

variable {s₀ s t : Kernel} {held : List Nat} {kept : List Key} {x : Nat}

/-- A reference is taken to a used slot. -/
theorem Holding.take (h : Holding s₀ held kept s) (hx : (s.tab.inodeTable x).Live) :
    Holding s₀ (x :: held) kept (s.setInode x
      { s.tab.inodeTable x with count := (s.tab.inodeTable x).count + 1 }) := by
  refine h.setCount hx (by omega) ?_ fun y hy => ?_
  · simp [h.count x]
    omega
  · simp [hy.symm]

/-- A reference is given back that is not the last one. -/
theorem Holding.drop (h : Holding s₀ (x :: held) kept s)
    (hn : (s₀.tab.inodeTable x).count + held.count x ≠ 0) :
    Holding s₀ held kept (s.setInode x
      { s.tab.inodeTable x with count := (s.tab.inodeTable x).count - 1 }) := by
  have hc : (s.tab.inodeTable x).count - 1 = (s₀.tab.inodeTable x).count + held.count x := by
    simp [h.count x]
  refine h.setCount (h.live_of_mem List.mem_cons_self) (hc ▸ hn) hc fun y hy => ?_
  simp [hy.symm]

theorem holding_count (x : Nat) :
    Leads (fun s => Holding s₀ held kept s ∧ (s.tab.inodeTable x).Live)
      (onInode x fun i => { i with count := i.count + 1 }) fun _ => Holding s₀ (x :: held) kept := by
  intro s u t ⟨hs, hx⟩ h
  rw [runs_onInode h]
  exact hs.take hx

/-- The last reference of a slot that was free at the start is given back: the slot leaves its
    list, its buffer is released, and it is free again. -/
theorem Holding.free (h : Holding s₀ (x :: held) kept s) (hx : ¬ (s₀.tab.inodeTable x).Live)
    (hh : held.count x = 0) {i : Nat} (hi : x ∈ (s.tab.superTable i).inodeList)
    (ht : t.tab = (s.tab.setInode x { s.tab.inodeTable x with count := 0, dev := devEOF }).setSuper i
      { s.tab.superTable i with inodeList := (s.tab.superTable i).inodeList.erase x })
    (hc : ∀ k, (t.cache.buf k).count =
      (s.cache.buf k).count + if k = (s.tab.inodeTable x).buf then -1 else 0) :
    Holding s₀ held kept t := by
  have hb := h.booked
  have hl := h.live_of_mem List.mem_cons_self
  have hp := h.fresh x hx
  refine h.slot hx (hb.live x hl).2 { s.tab.inodeTable x with count := 0, dev := devEOF }
    (fun j => if j = i then (s.tab.superTable i).inodeList.erase x else
      (s.tab.superTable j).inodeList) 0 ?_ ?_ ?_ ?_ ?_ hp (hb.mount x) ?_ ?_ hh.symm ?_ ?_
  · rw [ht]
    rfl
  · intro j
    rw [ht]
    by_cases e : j = i
    · simp [Tables.setSuper, e]
    · simp [Tables.setSuper, e, Tables.setInode]
  · rw [ht]
    rfl
  · rw [ht]
    rfl
  · simp [Inode.Live]
  · intro j y hy
    by_cases e : j = i
    · rw [if_pos e] at hy
      rw [e]
      exact .inl ⟨fun e => (hb.nodup i).not_mem_erase (e ▸ hy), List.mem_of_mem_erase hy⟩
    · rw [if_neg e] at hy
      exact .inl ⟨fun e' => e (hb.apart j i x (e' ▸ hy) hi), hy⟩
  · intro j
    split
    · exact (hb.nodup i).erase x
    · exact hb.nodup j
  · intro y hy
    simp [hy.symm]
  · intro k
    have ho : (s.tab.inodeTable x).owns k = decide ((s.tab.inodeTable x).buf = k) := by
      simp [Inode.owns, hp]
      exact fun _ => hl
    rw [hc k, ho]
    simp [Inode.owns, eq_comm (a := k)]
    split <;> simp

/-- A free slot is taken: it comes into a list, and holds the buffer of its descriptor. -/
theorem Holding.claim (h : Holding s₀ held kept s) (hx : ¬ (s.tab.inodeTable x).Live)
    (hlt : x < INODE_NR) {dev : Int} (hdev : dev ≠ devEOF) (nr desc : Nat) (buf : Key) {i : Nat}
    (hi : x ∉ (s.tab.superTable i).inodeList)
    (ht : t.tab = (s.tab.setInode x { s.tab.inodeTable x with
      dev := dev, nr := nr, count := 1, buf := buf, desc := desc }).setSuper i
      { s.tab.superTable i with inodeList := x :: (s.tab.superTable i).inodeList })
    (hc : ∀ k, (t.cache.buf k).count = (s.cache.buf k).count + if k = buf then 1 else 0) :
    Holding s₀ (x :: held) kept t := by
  have hb := h.booked
  have hx₀ : ¬ (s₀.tab.inodeTable x).Live := fun hl => hx (h.live_of_start hl)
  obtain ⟨hz, hp⟩ := hb.free x hx
  have hh : held.count x = 0 := by
    have := h.count x
    omega
  refine h.slot hx₀ hlt
    { s.tab.inodeTable x with dev := dev, nr := nr, count := 1, buf := buf, desc := desc }
    (fun j => if j = i then x :: (s.tab.superTable i).inodeList else
      (s.tab.superTable j).inodeList) i ?_ ?_ ?_ ?_ ?_ hp (hb.mount x) ?_ ?_ ?_ ?_ ?_
  · rw [ht]
    rfl
  · intro j
    rw [ht]
    by_cases e : j = i
    · simp [Tables.setSuper, e]
    · simp [Tables.setSuper, e, Tables.setInode]
  · rw [ht]
    rfl
  · rw [ht]
    rfl
  · simp [Inode.Live, hdev]
  · intro j y hy
    have hne : ∀ j, ∀ y ∈ (s.tab.superTable j).inodeList, y ≠ x :=
      fun j y hy e => hx (e ▸ (hb.listed j y hy).1)
    by_cases e : j = i
    · rw [if_pos e] at hy
      obtain rfl | hy := List.mem_cons.mp hy
      · exact .inr ⟨rfl, hdev, e⟩
      · exact .inl ⟨hne i y hy, e ▸ hy⟩
    · rw [if_neg e] at hy
      exact .inl ⟨hne j y hy, hy⟩
  · intro j
    split
    · exact List.nodup_cons.mpr ⟨hi, hb.nodup i⟩
    · exact hb.nodup j
  · simp [hh]
  · intro y hy
    simp [hy.symm]
  · intro k
    have ho : (s.tab.inodeTable x).owns k = false := by
      have hx : (s.tab.inodeTable x).dev = devEOF := not_not.mp hx
      simp [Inode.owns, hx]
    rw [hc k, ho]
    simp [Inode.owns, hp, hdev, eq_comm (a := k)]

/-- `iput` gives a reference back. -/
theorem holding_iput (x : Nat) :
    Leads (Holding s₀ (x :: held) kept) (iput x) fun _ => Holding s₀ held kept := by
  intro s u t hs h
  have hc : (s.tab.inodeTable x).count - 1 = (s₀.tab.inodeTable x).count + held.count x := by
    simp [hs.count x]
  obtain ⟨i, s₁, ⟨rfl, rfl⟩, h⟩ := runs_bind.mp h
  obtain ⟨hp, h⟩ | ⟨hp, h⟩ := runs_ite.mp h
  · -- a pipe was in use at the start, so this is not its last reference
    have h₀ : (s₀.tab.inodeTable x).Live := by
      by_contra hn
      simp [hs.fresh x hn] at hp
    have hn : (s₀.tab.inodeTable x).count + held.count x ≠ 0 := by
      have := (hs.start.live x h₀).1
      omega
    obtain ⟨_, s₁, h₁, h⟩ := runs_bind.mp h
    obtain ⟨i, s₂, ⟨rfl, rfl⟩, h⟩ := runs_bind.mp h
    rw [runs_onInode h₁] at h
    obtain ⟨-, h⟩ | ⟨hz, -⟩ := runs_ite.mp h
    · exact h.2 ▸ hs.drop hn
    · simp [Tables.setInode, hc] at hz
      omega
  · obtain ⟨_, s₁, h₁, h⟩ := runs_bind.mp h
    have hs₁ := holding_bwrite _ _ _ _ hs h₁
    have htab := (bwrite_same _ _ _ _ h₁).tab
    obtain ⟨_, s₂, h₂, h⟩ := runs_bind.mp h
    obtain ⟨i, s₃, ⟨rfl, rfl⟩, h⟩ := runs_bind.mp h
    have h₂ := runs_onInode h₂
    rw [← htab] at hc
    obtain ⟨hn, h⟩ | ⟨hz, h⟩ := runs_ite.mp h
    · have hn : (s₀.tab.inodeTable x).count + held.count x ≠ 0 := by
        simpa [h₂, Tables.setInode, hc] using hn
      exact h.2 ▸ h₂ ▸ hs₁.drop hn
    · have hz : (s₀.tab.inodeTable x).count = 0 ∧ held.count x = 0 := by
        simpa [h₂, Tables.setInode, hc] using hz
      obtain ⟨_, s₄, h₄, h⟩ := runs_bind.mp h
      obtain ⟨_, s₅, h₅, h⟩ := runs_bind.mp h
      have htab₄ := (brelse_same _ _ _ _ h₄).tab
      obtain ⟨j, hj, rfl⟩ := runs_listRemoveInode h₅
      obtain ⟨-, rfl⟩ := runs_putFreeInode h
      have hx : ¬ (s₀.tab.inodeTable x).Live := fun hl => (hs.start.live x hl).1 hz.1
      rw [htab₄, h₂] at hj
      refine hs₁.free hx hz.2 hj ?_ fun k => ?_
      · simp [htab₄, h₂, Tables.setInode, Tables.setSuper, hc, hz]
      · show (s₄.cache.buf k).count = _
        rw [brelse_counts h₄, h₂]
        simp [Tables.setInode]

/-- `fit_inode` answers an inode with the reference it was given. -/
theorem holding_fitInode (x : Nat) :
    Leads (Holding s₀ (x :: held) kept) (fitInode x) fun y => Holding s₀ (y :: held) kept := by
  intro s y t hs h
  obtain ⟨i, s₁, ⟨rfl, rfl⟩, h⟩ := runs_bind.mp h
  obtain ⟨-, rfl, rfl⟩ | ⟨-, h⟩ := runs_ite.mp h
  · exact hs
  · obtain ⟨sb, s₁, h₁, h⟩ := runs_bind.mp h
    obtain ⟨⟨i, hi, rfl⟩, rfl⟩ := runs_superOf.mp h₁
    obtain ⟨_, s₂, h₂, h⟩ := runs_bind.mp h
    obtain ⟨y', s₃, h₃, h⟩ := runs_bind.mp h
    rw [runs_need] at h₃
    obtain ⟨hroot, rfl⟩ := h₃
    obtain ⟨_, s₄, h₄, rfl, rfl⟩ := runs_bind.mp h
    have hs₂ := holding_iput x _ _ _ hs h₂
    have hroot₀ : (s₀.tab.inodeTable y').Live := by
      refine hs.start.roots i ?_ y' (.inl ?_)
      · have := getSuper_dev hi
        rw [hs.super i] at this
        exact this ▸ hs.booked.mount x
      · rwa [hs.super i] at hroot
    exact holding_count y' _ _ _ ⟨hs₂, hs₂.live_of_start hroot₀⟩ h₄

/-- `iget` answers an inode with a reference of its own. -/
theorem holding_iget {dev : Int} (hdev : dev ≠ devEOF) (nr : Nat) :
    Leads (Holding s₀ held kept) (iget dev nr) fun y => Holding s₀ (y :: held) kept := by
  intro s y t hs h
  obtain ⟨r, s₁, h₁, h⟩ := runs_bind.mp h
  obtain ⟨i, hi, rfl, hr⟩ := runs_findInode h₁
  cases r with
  | some x =>
    obtain ⟨_, s₂, h₂, h⟩ := runs_bind.mp h
    have hl := (hs.booked.listed i x (List.mem_of_find?_eq_some hr.symm)).1
    exact holding_fitInode x _ _ _ (holding_count x _ _ _ ⟨hs, hl⟩ h₂) h
  | none =>
    obtain ⟨sb, s₁, h₁, h⟩ := runs_bind.mp h
    obtain ⟨-, rfl⟩ := runs_superOf.mp h₁
    obtain ⟨_, s₁, h₁, h⟩ := runs_bind.mp h
    rw [runs_assert] at h₁
    obtain ⟨-, rfl⟩ := h₁
    obtain ⟨x, s₁, h₁, h⟩ := runs_bind.mp h
    obtain ⟨hlt, hfree, rfl⟩ := runs_getFreeInode h₁
    obtain ⟨_, s₂, h₂, h⟩ := runs_bind.mp h
    obtain ⟨_, s₃, h₃, h⟩ := runs_bind.mp h
    obtain ⟨k, s₄, h₄, h⟩ := runs_bind.mp h
    obtain ⟨_, s₅, h₅, rfl, rfl⟩ := runs_bind.mp h
    have h₂ := runs_onInode h₂
    obtain ⟨j, -, hnot, h₃⟩ := runs_listPushInode h₃
    have htab := (bread_same _ _ _ _ _ h₄).tab
    rw [runs_onInode h₅]
    have hx : ¬ (s.tab.inodeTable x).Live := fun hl => hl hfree
    have hz := (hs.booked.free x hx).1
    rw [h₂] at hnot
    refine hs.claim hx hlt hdev nr (32 * ((nr - 1) % BLOCK_INODES)) k hnot ?_ fun k' => ?_
    · simp [htab, h₃, h₂, Tables.setInode, Tables.setSuper, hz]
    · show (s₄.cache.buf k').count = _
      rw [bread_counts h₄, bread_key h₄, h₃, h₂]

end Inodes

/-! ## 6. The walk -/

section Walk

variable {s₀ : Kernel} {held : List Nat} {kept : List Key}

theorem holding_bmapSlot (x level : Nat) (buf : Key) (slot : Nat) :
    Leads (Holding s₀ held (buf :: kept)) (bmapSlot x false level buf slot) fun _ =>
      Holding s₀ held kept := by
  refine triple_mapLabel (triple_bind (keeps_of_eq ?_) fun _ => holding_brelse buf)
  exact bmapFill_false_obeys x buf slot

theorem holding_bmapReckon (x level : Nat) (buf : Key) (array index block divider : Nat) :
    Leads (Holding s₀ held (buf :: kept)) (bmapReckon x false level buf array index block divider)
      fun _ => Holding s₀ held kept := by
  induction level generalizing buf array index block divider with
  | zero =>
    exact triple_bind (holding_bmapSlot x 0 buf _) fun _ =>
      keeps_bind (keeps_reads _) fun _ => keeps_pure _
  | succ level ih =>
    refine triple_bind (holding_bmapSlot x _ buf _) fun _ =>
      triple_bind (keeps_reads _) fun _ => ?_
    refine triple_ite (fun _ => keeps_pure _) fun _ => triple_bind (keeps_reads _) fun _ => ?_
    refine triple_bind (holding_bread _ _) fun k => ?_
    exact triple_pre (ih k _ _ _ _) fun _ h => h.2

theorem holding_bmap (x block : Nat) :
    Leads (Holding s₀ held kept) (bmap x block false) fun _ => Holding s₀ held kept := by
  refine triple_bind (keeps_check _ _) fun _ => triple_bind (keeps_reads _) fun _ =>
    triple_bind (holding_hold _) fun _ => ?_
  refine triple_ite (fun _ => holding_bmapReckon _ _ _ _ _ _ _) fun _ => ?_
  refine triple_ite (fun _ => holding_bmapReckon _ _ _ _ _ _ _) fun _ => ?_
  exact triple_bind (keeps_check _ _) fun _ => holding_bmapReckon _ _ _ _ _ _ _

theorem holding_dentryAt (dir i : Nat) (buf : Option Key) (entry : Nat) :
    Leads (Holding s₀ held (buf.toList ++ kept)) (dentryAt dir false i buf entry) fun r =>
      Holding s₀ held (r.1 :: kept) := by
  unfold dentryAt
  split
  · rename_i k hk
    refine triple_pure fun s h => ?_
    split at hk
    · simpa [hk] using h
    · cases hk
  · refine triple_bind (holding_brelse? buf) fun _ => triple_bind (holding_bmap dir _) fun _ =>
      triple_bind (keeps_check _ _) fun _ => triple_bind (keeps_reads _) fun _ => ?_
    exact triple_bind (holding_bread _ _) fun k => triple_pure fun s h => h.2

/-- `find_entry` answers an entry with its buffer. -/
theorem holding_findEntryLoop (dir : Nat) (name : List UInt8) (n i : Nat) (buf : Option Key)
    (entry : Nat) :
    Leads (Holding s₀ held (buf.toList ++ kept)) (findEntryLoop dir name n i buf entry) fun r =>
      Holding s₀ held ((r.map (·.1)).toList ++ kept) := by
  induction n generalizing i buf entry with
  | zero => exact triple_bind (holding_brelse? buf) fun _ => triple_pure fun _ h => h
  | succ n ih =>
    refine triple_bind (holding_dentryAt dir i buf entry) fun ⟨k, entry⟩ =>
      triple_bind (keeps_reads _) fun b => ?_
    split
    · exact triple_ite (fun _ => triple_pure fun _ h => h) fun _ => ih _ (some k) _
    · exact ih _ (some k) _

theorem holding_crossMount (dir : Nat) (name : List UInt8) :
    Leads (Holding s₀ (dir :: held) kept) (crossMount dir name) fun d =>
      Holding s₀ (d :: held) kept := by
  intro s d t hs h
  obtain ⟨ino, s₁, ⟨rfl, rfl⟩, h⟩ := runs_bind.mp h
  obtain ⟨-, h⟩ | ⟨-, rfl, rfl⟩ := runs_ite.mp h
  · obtain ⟨sb, s₁, h₁, h⟩ := runs_bind.mp h
    obtain ⟨⟨i, hi, rfl⟩, rfl⟩ := runs_superOf.mp h₁
    obtain ⟨mnt, s₁, h₁, h⟩ := runs_bind.mp h
    rw [runs_need] at h₁
    obtain ⟨hmnt, rfl⟩ := h₁
    obtain ⟨_, s₂, h₂, h⟩ := runs_bind.mp h
    obtain ⟨_, s₃, h₃, rfl, rfl⟩ := runs_bind.mp h
    have hl : (s.tab.inodeTable mnt).Live := by
      refine hs.booked.roots i ?_ mnt (.inr hmnt)
      exact getSuper_dev hi ▸ hs.live_of_mem List.mem_cons_self
    have hs₂ := holding_count mnt _ _ _ ⟨hs, hl⟩ h₂
    exact holding_iput dir _ _ _ (hs₂.perm (.swap dir mnt held)) h₃
  · exact hs

theorem holding_findEntry (dir : Nat) (name : List UInt8) :
    Leads (Holding s₀ (dir :: held) kept) (findEntry dir name) fun r =>
      Holding s₀ (r.1 :: held) ((r.2.map (·.1)).toList ++ kept) := by
  refine triple_bind (keeps_of_eq (descGet_obeys dir _)) fun _ =>
    triple_bind (keeps_check _ _) fun _ => triple_bind (holding_crossMount dir name) fun d => ?_
  exact triple_bind (keeps_of_eq (descGet_obeys d _)) fun _ =>
    triple_bind (holding_findEntryLoop d name _ 0 none 0) fun _ => triple_pure fun _ h => h

end Walk

end Yuios
