/-
  File:      Yuios/Fs/InodeTasks.lean
  Subject:   TASKS THAT GET AND PUT INODES: any number of tasks in `iget` and `iput`, in any order
             of turns.

  * `Tasks` -- the kernel, what every task is inside of, and the pointers the tasks hold.
    `Tasks.Turns`: any number of turns. A task puts back what it holds.
  * `World` -- the invariant between turns. An inode whose block is still being read has stale
    pointers; `I` is the table as it will be when all of them have been filled in, and `I` is what
    the books are about.
  * **`inodes_shared`** -- what the tasks hold is right, as long as nobody asks for an inode whose
    block another task is reading.
-/
import Yuios.Fs.InodeTurns
import Yuios.Fs.NameiRefs

namespace Yuios

open Lib Prog Code

/-! ## 1. Tasks -/

/-- A pointer, and the inode it was asked for. -/
structure Ref where
  dev : Int
  nr : Nat
  slot : Nat
  deriving DecidableEq

/-- What a task is inside of: where it waits and what it has left to do. -/
inductive Inside where
  | idle
  | iget (dev : Int) (nr : Nat) (l : List Frame) (p : Code Nat)
  | iput (r : Ref) (l : List Frame) (p : Code Unit)

/-- The tasks and the pointers they hold. -/
structure Tasks (ι : Type) where
  kernel : Kernel
  inside : ι → Inside
  held : List (ι × Ref)

namespace Tasks

variable {ι : Type} [DecidableEq ι]

/-- Task `i` runs `p`, the rest of an `iget`, up to its next blocking point. -/
def getTurn (M : Tasks ι) (i : ι) (dev : Int) (nr : Nat) (p : Code Nat) : Option (Tasks ι) :=
  match upTo p M.kernel with
  | .done x s => some ⟨s, Function.update M.inside i .idle, (i, ⟨dev, nr, x⟩) :: M.held⟩
  | .asleep l q s => some ⟨s, Function.update M.inside i (.iget dev nr l q), M.held⟩
  | .stopped _ => none

/-- Task `i` runs `p`, the rest of an `iput`, up to its next blocking point. -/
def putTurn (M : Tasks ι) (i : ι) (r : Ref) (p : Code Unit) : Option (Tasks ι) :=
  match upTo p M.kernel with
  | .done _ s => some ⟨s, Function.update M.inside i .idle, M.held.erase (i, r)⟩
  | .asleep l q s => some ⟨s, Function.update M.inside i (.iput r l q), M.held⟩
  | .stopped _ => none

/-- **Any number of turns**, with a condition on the inodes that are asked for. -/
inductive Turns (Ok : Tasks ι → Int → Nat → Prop) (M : Tasks ι) : Tasks ι → Prop where
  | start : Turns Ok M M
  | iget {N K : Tasks ι} (h : Turns Ok M N) (i : ι) (hi : N.inside i = .idle) (dev : Int)
      (nr : Nat) (hdev : dev ≠ devEOF) (hok : Ok N dev nr)
      (ht : N.getTurn i dev nr (Yuios.iget dev nr) = some K) : Turns Ok M K
  | iput {N K : Tasks ι} (h : Turns Ok M N) (i : ι) (hi : N.inside i = .idle) (r : Ref)
      (hr : (i, r) ∈ N.held) (ht : N.putTurn i r (Yuios.iput r.slot) = some K) : Turns Ok M K
  | getOn {N K : Tasks ι} (h : Turns Ok M N) (i : ι) {dev : Int} {nr : Nat} {l : List Frame}
      {p : Code Nat} (hi : N.inside i = .iget dev nr l p) (ht : N.getTurn i dev nr p = some K) :
      Turns Ok M K
  | putOn {N K : Tasks ι} (h : Turns Ok M N) (i : ι) {r : Ref} {l : List Frame} {p : Code Unit}
      (hi : N.inside i = .iput r l p) (ht : N.putTurn i r p = some K) : Turns Ok M K

/-- No task is reading the block of the inode that is asked for. -/
def Settled (M : Tasks ι) (dev : Int) (nr : Nat) : Prop :=
  ∀ i k p, M.inside i ≠ .iget dev nr [.bread k] p

end Tasks

/-! ## 2. What the tasks rely on -/

/-- The inode in slot `x` is counted, and its descriptor lies where its number says, in a block
    that has been read. -/
structure Located (s : Kernel) (x : Nat) : Prop where
  count : (s.tab.inodeTable x).count ≠ 0
  place : ∃ i, s.tab.getSuper (s.tab.inodeTable x).dev = some i ∧
    (s.tab.inodeTable x).buf = ⟨(s.tab.inodeTable x).dev,
      inodeBlock (s.tab.superTable i) (s.tab.inodeTable x).nr⟩ ∧
    (s.tab.inodeTable x).desc = 32 * (((s.tab.inodeTable x).nr - 1) % BLOCK_INODES)
  valid : (s.cache.buf (s.tab.inodeTable x).buf).data.isSome

/-- A volume is mounted on the inode that was asked for, and the slot is its root. -/
def Tables.Covered (T : Tables) (r : Ref) : Prop :=
  ∃ x j, (T.inodeTable x).dev = r.dev ∧ (T.inodeTable x).nr = r.nr ∧
    (T.inodeTable x).mount ≠ 0 ∧ T.getSuper (T.inodeTable x).mount = some j ∧
    (T.superTable j).iroot = some r.slot

/-- The slot holds the inode that was asked for, or the root of the volume that is mounted on it. -/
def Tables.Names (T : Tables) (r : Ref) : Prop :=
  ((T.inodeTable r.slot).dev = r.dev ∧ (T.inodeTable r.slot).nr = r.nr) ∨ T.Covered r

/-- **What the tasks rely on**: their pointers are right, no inode is in memory twice, and what is
    on the free table has no references. -/
structure Tasks.Sound {ι : Type} (M : Tasks ι) : Prop where
  right : ∀ i r, (i, r) ∈ M.held → Located M.kernel r.slot ∧ M.kernel.tab.Names r
  once : ∀ x y, (M.kernel.tab.inodeTable x).Live → (M.kernel.tab.inodeTable y).Live →
    (M.kernel.tab.inodeTable x).pipe = false → (M.kernel.tab.inodeTable y).pipe = false →
    (M.kernel.tab.inodeTable x).dev = (M.kernel.tab.inodeTable y).dev →
    (M.kernel.tab.inodeTable x).nr = (M.kernel.tab.inodeTable y).nr → x = y
  free : ∀ x, ¬ (M.kernel.tab.inodeTable x).Live → (M.kernel.tab.inodeTable x).count = 0

/-! ## 3. The invariant of the kernel -/

/-- **The start**: the tables are in order, the inodes in memory are in their places and their
    blocks have been read. -/
structure InOrder (s : Kernel) : Prop where
  booked : Booked s.tab
  placed : Placed s.tab
  valid : ∀ i, ∀ x ∈ (s.tab.superTable i).inodeList,
    (s.cache.buf (s.tab.inodeTable x).buf).data.isSome
  mount : ∀ x, ¬ (s.tab.inodeTable x).Live → (s.tab.inodeTable x).mount = 0
  roots : ∀ i, (s.tab.superTable i).dev ≠ devEOF → ∀ y, (s.tab.superTable i).iroot = some y →
    (s.tab.inodeTable y).pipe = false

/-- The kernel with the inode table `I`. -/
abbrev Kernel.filled (s : Kernel) (I : Nat → Inode) : Kernel :=
  { s with tab := { s.tab with inodeTable := I } }

/-- The table with another count in slot `x`. -/
def recount (I : Nat → Inode) (x n : Nat) : Nat → Inode :=
  Function.update I x { I x with count := n }

theorem recount_keeps (I : Nat → Inode) (x n y : Nat) :
    ∃ m, recount I x n y = { I y with count := m } := by
  by_cases e : y = x
  · exact ⟨n, by simp [recount, e]⟩
  · exact ⟨(I y).count, by simp [recount, e]⟩

/-- **The invariant**: with `I`, the table as it will be when the inodes in `L` have been read, the
    books count the references `refs` besides those of the start. -/
structure World (s₀ s : Kernel) (I : Nat → Inode) (refs : List Nat) (L : Nat → Prop) : Prop where
  books : Holding s₀ refs [] (s.filled I)
  placed : Placed (s.filled I).tab
  valid : ∀ i, ∀ x ∈ (s.tab.superTable i).inodeList, ¬ L x → (s.cache.buf (I x).buf).data.isSome
  slot : ∀ x, ∃ b d, s.tab.inodeTable x = { I x with buf := b, desc := d }
  same : ∀ x, ¬ L x → s.tab.inodeTable x = I x
  loading : ∀ x, L x → refs.count x = 1 ∧ ¬ (s₀.tab.inodeTable x).Live
  fresh : ∀ x, ¬ (s₀.tab.inodeTable x).Live → (I x).mount = 0

section World

variable {s₀ s t : Kernel} {I : Nat → Inode} {refs refs' : List Nat} {L : Nat → Prop} {x i : Nat}

theorem InOrder.world (h : InOrder s) : World s s s.tab.inodeTable [] fun _ => False :=
  ⟨holding_refl h.booked, h.placed, fun i x hx _ => h.valid i x hx,
    fun _ => ⟨_, _, rfl⟩, fun _ _ => rfl, fun _ h => h.elim, h.mount⟩

theorem World.live_iff (h : World s₀ s I refs L) : (s.tab.inodeTable x).Live ↔ (I x).Live := by
  obtain ⟨b, d, e⟩ := h.slot x
  rw [e]
  exact Iff.rfl

theorem valid_flushed (k : Key) {c : Cache} (k' : Key) (h : (c.buf k').data.isSome) :
    ((c.flushed k).buf k').data.isSome := by
  unfold Cache.flushed
  by_cases e : k' = k
  · rw [e, setBuf_buf_self]
    rfl
  · rwa [setBuf_buf_of_ne e]

theorem dirty_flushed (k : Key) {c : Cache} : ((c.flushed k).buf k).dirty = false := by
  rw [Cache.flushed, setBuf_buf_self]

/-- What has a reference is not about to be read by another task. -/
theorem World.not_loading (h : World s₀ s I (x :: refs) L) (hx : x ∈ refs) : ¬ L x := by
  intro hL
  have h1 := (h.loading x hL).1
  have h2 := List.count_pos_iff.mpr hx
  rw [List.count_cons_self] at h1
  omega

theorem World.congr (h : World s₀ s I refs L) (hr : refs.Perm refs') {L' : Nat → Prop}
    (hL : ∀ x, L' x ↔ L x) : World s₀ s I refs' L' := by
  refine ⟨h.books.perm hr, h.placed, fun i x hx hn => h.valid i x hx (by rwa [← hL]), h.slot,
    fun x hn => h.same x (by rwa [← hL]), fun x hx => ?_, h.fresh⟩
  rw [← hr.count_eq]
  exact h.loading x ((hL x).mp hx)

/-- The buffers may be written back and read. -/
theorem World.onCache (h : World s₀ s I refs L) {c : Cache}
    (hcount : ∀ k, (c.buf k).count = (s.cache.buf k).count)
    (hdata : ∀ k, (s.cache.buf k).data.isSome → (c.buf k).data.isSome) :
    World s₀ { s with cache := c } I refs L := by
  refine ⟨h.books.congr (t := Kernel.filled { s with cache := c } I) rfl fun k => ?_, h.placed,
    fun i x hx hn => hdata _ (h.valid i x hx hn), h.slot, h.same, h.loading, h.fresh⟩
  rw [hcount]

/-- A count changes. -/
theorem World.setCount (h : World s₀ s I refs L) (hL : ¬ L x) {n : Nat}
    (hbooks : Holding s₀ refs' [] ((s.filled I).setInode x { I x with count := n }))
    (hrefs : ∀ y, y ≠ x → refs'.count y = refs.count y) :
    World s₀ (s.setInode x { s.tab.inodeTable x with count := n }) (recount I x n) refs' L := by
  have hself : s.tab.inodeTable x = I x := h.same x hL
  refine ⟨hbooks, h.placed.setCount n, fun i y hy hn => ?_, fun y => ?_, fun y hn => ?_,
    fun y hy => ?_, fun y hy => ?_⟩
  · obtain ⟨m, hm⟩ := recount_keeps I x n y
    rw [hm]
    exact h.valid i y hy hn
  · by_cases e : y = x
    · exact ⟨(I x).buf, (I x).desc, by simp [Tables.setInode, recount, e, hself]⟩
    · obtain ⟨b, d, hbd⟩ := h.slot y
      exact ⟨b, d, by simp [Tables.setInode, recount, e, hbd]⟩
  · by_cases e : y = x
    · simp [Tables.setInode, recount, e, hself]
    · simp [Tables.setInode, recount, e, h.same y hn]
  · rw [hrefs y fun e => hL (e ▸ hy)]
    exact h.loading y hy
  · obtain ⟨m, hm⟩ := recount_keeps I x n y
    rw [hm]
    exact h.fresh y hy

theorem World.take (h : World s₀ s I refs L) (hx : (I x).Live) (hL : ¬ L x) :
    World s₀ { s with tab := s.tab.took x } (recount I x ((I x).count + 1)) (x :: refs) L := by
  have := h.setCount (n := (I x).count + 1) hL (h.books.take hx) fun y hy => by simp [hy.symm]
  rw [← h.same x hL] at this ⊢
  exact this

/-- A reference is given back. -/
theorem World.put (h : World s₀ s I (x :: refs) L) (hL : ¬ L x) (hput : PutBack x s t) :
    ∃ I', World s₀ t I' refs L ∧ ∀ y ∈ refs, ∃ m, I' y = { I y with count := m } := by
  have hself : s.tab.inodeTable x = I x := h.same x hL
  have hc : (I x).count = (s₀.tab.inodeTable x).count + (refs.count x + 1) := by
    have := h.books.count x
    simpa using this
  cases hput with
  | kept hn ht =>
    rw [hself] at hn
    refine ⟨_, ?_, fun y _ => recount_keeps I x ((I x).count - 1) y⟩
    have := h.setCount (n := (I x).count - 1) hL (h.books.drop (by omega))
      fun y hy => by simp [hy.symm]
    rw [← hself] at this ⊢
    exact ht ▸ this
  | freed hz i hi htab hcache =>
    rw [hself] at hz
    have hr : refs.count x = 0 := by omega
    have hx : ¬ (s₀.tab.inodeTable x).Live := by
      intro hl
      have := (h.books.start.live x hl).1
      omega
    have hnot : ∀ y ∈ refs, y ≠ x := fun y hy e => by
      have := List.count_pos_iff.mpr (e ▸ hy)
      omega
    refine ⟨Function.update I x { I x with count := 0, dev := devEOF }, ?_,
      fun y hy => ⟨(I y).count, by simp [hnot y hy]⟩⟩
    rw [hself] at htab hcache
    have hfill : (t.filled (Function.update I x { I x with count := 0, dev := devEOF })).tab =
        ((s.filled I).tab.setInode x { I x with count := 0, dev := devEOF }).setSuper i
          { s.tab.superTable i with inodeList := (s.tab.superTable i).inodeList.erase x } := by
      simp [htab, Tables.setInode, Tables.setSuper]
    have hcount : ∀ k, (t.cache.buf k).count =
        (s.cache.buf k).count + if k = (I x).buf then -1 else 0 := by
      intro k
      rw [hcache, count_addCount]
    have hdata : ∀ k, (t.cache.buf k).data = (s.cache.buf k).data := by
      intro k
      rw [hcache, Cache.addCount]
      by_cases e : k = (I x).buf
      · rw [e, setBuf_buf_self]
      · rw [setBuf_buf_of_ne e]
    have hlist : ∀ j y, y ∈ (t.tab.superTable j).inodeList →
        y ≠ x ∧ y ∈ (s.tab.superTable j).inodeList := by
      intro j y hy
      by_cases e : j = i
      · rw [htab, e] at hy
        rw [e]
        simp only [Tables.setSuper, Function.update_self] at hy
        exact (h.books.booked.nodup i).mem_erase_iff.mp hy
      · have hy : y ∈ (s.tab.superTable j).inodeList := by
          rw [htab] at hy
          simpa [Tables.setSuper, Tables.setInode, e] using hy
        exact ⟨fun e' => e (h.books.booked.apart j i x (e' ▸ hy) hi), hy⟩
    refine ⟨h.books.free hx hr hi hfill hcount, hfill ▸ h.placed.free h.books.booked.lists hi rfl,
      fun j y hy hn => ?_, fun y => ?_, fun y hn => ?_, fun y hy => ?_, fun y hy => ?_⟩
    · obtain ⟨hne, hy⟩ := hlist j y hy
      simp only [Function.update_of_ne hne, hdata]
      exact h.valid j y hy hn
    · by_cases e : y = x
      · exact ⟨(I x).buf, (I x).desc, by simp [htab, Tables.setInode, Tables.setSuper, e]⟩
      · obtain ⟨b, d, hbd⟩ := h.slot y
        exact ⟨b, d, by simp [htab, Tables.setInode, Tables.setSuper, e, hbd]⟩
    · by_cases e : y = x
      · simp [htab, Tables.setInode, Tables.setSuper, e]
      · simp [htab, Tables.setInode, Tables.setSuper, e, h.same y hn]
    · have hne : y ≠ x := fun e => hL (e ▸ hy)
      have := h.loading y hy
      rwa [List.count_cons_of_ne hne.symm] at this
    · by_cases e : y = x
      · simpa [e] using h.fresh x (e ▸ hy)
      · simpa [e] using h.fresh y hy

/-- A free slot is taken, with its pointers in place (`L' = L`) or still to be filled in. -/
theorem World.claim (h : World s₀ s I refs L) {dev : Int} {nr : Nat} {k : Key} {ino : Inode}
    (hi : s.tab.getSuper dev = some i)
    (hnr : ∀ y ∈ (s.tab.superTable i).inodeList, (s.tab.inodeTable y).nr ≠ nr)
    (hdev : dev ≠ devEOF) (hlt : x < INODE_NR) (hfree : (s.tab.inodeTable x).dev = devEOF)
    (hx : x ∉ (s.tab.superTable i).inodeList)
    (hk : k = ⟨dev, inodeBlock (s.tab.superTable i) nr⟩)
    (hino : ∃ b d, ino = { s.tab.inodeTable x with
      dev := dev, nr := nr, count := (s.tab.inodeTable x).count + 1, buf := b, desc := d })
    {L' : Nat → Prop} (hL : ∀ y, y ≠ x → (L' y ↔ L y))
    (hin : ¬ L' x → (s.cache.buf k).data.isSome ∧ ino = { s.tab.inodeTable x with
      dev := dev, nr := nr, count := (s.tab.inodeTable x).count + 1, buf := k,
      desc := 32 * ((nr - 1) % BLOCK_INODES) }) :
    ∃ I', World s₀ { s with tab := s.tab.claimed i x ino, cache := s.cache.addCount k 1 } I'
        (x :: refs) L' ∧ (∀ y, y ≠ x → I' y = I y) ∧ x ∉ refs ∧
      (I' x).buf = k ∧ (I' x).desc = 32 * ((nr - 1) % BLOCK_INODES) ∧ (I' x).dev = dev ∧
      (I' x).nr = nr ∧ (I' x).pipe = false := by
  have hxl : ¬ (s.tab.inodeTable x).Live := fun hl => hl hfree
  have hxI : ¬ (I x).Live := fun hl => hxl (h.live_iff.mpr hl)
  have hx₀ : ¬ (s₀.tab.inodeTable x).Live := fun hl => hxI (h.books.live_of_start hl)
  obtain ⟨hz, hp⟩ := h.books.booked.free x hxI
  have hr : refs.count x = 0 := by
    have := h.books.count x
    have hz : ((s.filled I).tab.inodeTable x).count = 0 := hz
    omega
  have hLx : ¬ L x := fun hL => by
    have := (h.loading x hL).1
    omega
  have hself := h.same x hLx
  obtain ⟨full, hfull⟩ : ∃ full : Inode, full = { I x with
    dev := dev, nr := nr, count := 1, buf := k, desc := 32 * ((nr - 1) % BLOCK_INODES) } := ⟨_, rfl⟩
  have hnot : ∀ j, ∀ y ∈ (s.tab.superTable j).inodeList, y ≠ x :=
    fun j y hy e => hxI (e ▸ (h.books.booked.listed j y hy).1)
  have hlist : ∀ j y, y ∈ ((s.tab.claimed i x ino).superTable j).inodeList →
      y = x ∨ y ∈ (s.tab.superTable j).inodeList := by
    intro j y hy
    by_cases e : j = i
    · simpa [Tables.claimed, Tables.setSuper, e] using hy
    · exact .inr (by simpa [Tables.claimed, Tables.setSuper, Tables.setInode, e] using hy)
  have hcount : (s.tab.inodeTable x).count = 0 := by rw [hself]; exact hz
  have hdata : ∀ k', ((s.cache.addCount k 1).buf k').data = (s.cache.buf k').data := by
    intro k'
    unfold Cache.addCount
    by_cases e : k' = k
    · rw [e, setBuf_buf_self]
    · rw [setBuf_buf_of_ne e]
  have hclaim : (Kernel.filled { s with tab := s.tab.claimed i x ino } (Function.update I x full)).tab =
      (s.filled I).tab.claimed i x full := by
    simp [Tables.claimed, Tables.setInode, Tables.setSuper]
  refine ⟨Function.update I x full, ⟨?_, ?_, fun j y hy hn => ?_, fun y => ?_, fun y hn => ?_,
    fun y hy => ?_, fun y hy => ?_⟩, fun y hy => by simp [hy], ?_, ?_⟩
  · refine h.books.claim hxI hlt hdev nr (32 * ((nr - 1) % BLOCK_INODES)) k hx ?_ fun k' => ?_
    · rw [← hfull]
      exact hclaim
    · exact count_addCount
  · have hnr' : ∀ y ∈ (s.tab.superTable i).inodeList, (I y).nr ≠ full.nr := by
      intro y hy
      obtain ⟨b, d, e⟩ := h.slot y
      have := hnr y hy
      rw [e] at this
      rwa [hfull]
    exact hclaim ▸ h.placed.claim h.books.booked.lists hxI (by rw [hfull]; exact hi) hnr'
      (by rw [hfull]; exact hk) (by rw [hfull])
  · rw [hdata]
    by_cases e : y = x
    · rw [e] at hn ⊢
      simpa [hfull] using (hin hn).1
    · have hy : y ∈ (s.tab.superTable j).inodeList := (hlist j y hy).resolve_left e
      simpa [e] using h.valid j y hy fun hl => hn ((hL y e).mpr hl)
  · by_cases e : y = x
    · obtain ⟨b, d, hbd⟩ := hino
      exact ⟨b, d, by simp [Tables.claimed, Tables.setInode, Tables.setSuper, e, hbd, hfull, hself,
        hself ▸ hcount]⟩
    · obtain ⟨b, d, hbd⟩ := h.slot y
      exact ⟨b, d, by simp [Tables.claimed, Tables.setInode, Tables.setSuper, e, hbd]⟩
  · by_cases e : y = x
    · rw [e] at hn ⊢
      simp [Tables.claimed, Tables.setInode, Tables.setSuper, (hin hn).2, hfull, hself, hself ▸ hcount]
    · simp [Tables.claimed, Tables.setInode, Tables.setSuper, e,
        h.same y fun hl => hn ((hL y e).mpr hl)]
  · by_cases e : y = x
    · rw [e]
      exact ⟨by simp [hr], hx₀⟩
    · have := h.loading y ((hL y e).mp hy)
      rwa [List.count_cons_of_ne (Ne.symm e)]
  · by_cases e : y = x
    · simpa [e, hfull] using h.fresh x hx₀
    · simpa [e] using h.fresh y hy
  · exact List.count_eq_zero.mp hr
  · simp [hfull]
    exact hp

/-- The block has been read: the pointers are filled in. -/
theorem World.arrive (h : World s₀ s I refs L) {k : Key} {d : Nat} (hk : (I x).buf = k)
    (hd : (I x).desc = d) :
    World s₀ (Kernel.setInode { s with cache := s.cache.load k } x
      { s.tab.inodeTable x with buf := k, desc := d }) I refs fun y => L y ∧ y ≠ x := by
  obtain ⟨b, d', e⟩ := h.slot x
  have hself : { s.tab.inodeTable x with buf := k, desc := d } = I x := by
    rw [e, ← hk, ← hd]
  have hvalid : ∀ k', (s.cache.buf k').data.isSome → ((s.cache.load k).buf k').data.isSome := by
    intro k' hv
    unfold Cache.load
    split
    · exact hv
    · by_cases ek : k' = k
      · rw [ek, setBuf_buf_self]
        rfl
      · rwa [setBuf_buf_of_ne ek]
  have hhere : ((s.cache.load k).buf k).data.isSome := by
    unfold Cache.load
    split
    · simp [*]
    · rw [setBuf_buf_self]
      rfl
  rw [hself]
  refine ⟨h.books.congr (t := Kernel.filled { s with cache := s.cache.load k } I) rfl fun k' => ?_,
    h.placed, fun i y hy hn => ?_, fun y => ?_, fun y hn => ?_, fun y hy => h.loading y hy.1, h.fresh⟩
  · rw [count_load]
  · by_cases e : y = x
    · rw [e, hk]
      exact hhere
    · exact hvalid _ (h.valid i y hy fun hl => hn ⟨hl, e⟩)
  · by_cases e : y = x
    · exact ⟨(I x).buf, (I x).desc, by simp [Tables.setInode, e]⟩
    · obtain ⟨b, d, hbd⟩ := h.slot y
      exact ⟨b, d, by simp [Tables.setInode, e, hbd]⟩
  · by_cases e : y = x
    · simp [Tables.setInode, e]
    · simp [Tables.setInode, e, h.same y fun hl => hn ⟨hl, e⟩]

/-- What is mounted does not change. -/
theorem World.covered_iff (h : World s₀ s I refs L) (h₀ : InOrder s₀) {r : Ref} :
    s.tab.Covered r ↔ s₀.tab.Covered r := by
  have hsup : ∀ dev, s.tab.getSuper dev = s₀.tab.getSuper dev :=
    getSuper_congr fun j => by
      have := h.books.super j
      rw [this]
  have hroot : ∀ j, (s.tab.superTable j).iroot = (s₀.tab.superTable j).iroot := by
    intro j
    have := h.books.super j
    rw [this]
  have hx : ∀ x, ((s.tab.inodeTable x).mount = 0 ∧ (s₀.tab.inodeTable x).mount = 0) ∨
      ((s.tab.inodeTable x).mount = (s₀.tab.inodeTable x).mount ∧
        (s.tab.inodeTable x).dev = (s₀.tab.inodeTable x).dev ∧
        (s.tab.inodeTable x).nr = (s₀.tab.inodeTable x).nr) := by
    intro x
    obtain ⟨b, d, e⟩ := h.slot x
    rw [e]
    by_cases hl : (s₀.tab.inodeTable x).Live
    · have hk : I x = _ := h.books.keep x hl
      rw [hk]
      exact .inr ⟨rfl, rfl, rfl⟩
    · exact .inl ⟨h.fresh x hl, h₀.mount x hl⟩
  unfold Tables.Covered
  simp only [hsup, hroot]
  refine exists_congr fun x => exists_congr fun j => ?_
  obtain ⟨h1, h2⟩ | ⟨h1, h2, h3⟩ := hx x
  · simp [h1, h2]
  · rw [h1, h2, h3]

/-- The root of a mounted volume is in use from the start on. -/
theorem InOrder.root (h₀ : InOrder s₀) {r : Ref} (hr : s₀.tab.Covered r) :
    (s₀.tab.inodeTable r.slot).Live ∧ (s₀.tab.inodeTable r.slot).pipe = false := by
  obtain ⟨x, j, -, -, -, hj, hy⟩ := hr
  have hdev : (s₀.tab.superTable j).dev ≠ devEOF := getSuper_dev hj ▸ h₀.booked.mount x
  exact ⟨h₀.booked.roots j hdev _ (.inl hy), h₀.roots j hdev _ hy⟩

end World

/-! ## 4. The invariant of the tasks -/

namespace Tasks

variable {ι : Type} [DecidableEq ι]

/-- The references taken: what the tasks hold, and what the calls that wait have taken. -/
def refs (held : List (ι × Ref)) (pend : List (ι × Nat × Bool)) : List Nat :=
  held.map (·.2.slot) ++ pend.map (·.2.1)

/-- A call waits for the block of the inode in slot `x`. -/
def Loading (pend : List (ι × Nat × Bool)) (x : Nat) : Prop := ∃ i, (i, x, true) ∈ pend

/-- What the calls of task `i` that wait have taken. -/
def taken (pend : List (ι × Nat × Bool)) (i : ι) : List (Nat × Bool) :=
  (pend.filter fun e => e.1 = i).map (·.2)

/-- The pointer is right once its inode has been read. -/
def Good (s₀ : Kernel) (I : Nat → Inode) (r : Ref) : Prop :=
  (I r.slot).pipe = false ∧
    (((I r.slot).dev = r.dev ∧ (I r.slot).nr = r.nr) ∨ s₀.tab.Covered r)

/-- Where task `i` can be, and what its call has taken. -/
inductive Doing (s₀ : Kernel) (I : Nat → Inode) (held : List (ι × Ref)) (i : ι) :
    Inside → List (Nat × Bool) → Prop where
  | idle : Doing s₀ I held i .idle []
  | load {dev : Int} {nr x : Nat} {k : Key} (hbuf : (I x).buf = k)
      (hdesc : (I x).desc = 32 * ((nr - 1) % BLOCK_INODES)) (hpipe : (I x).pipe = false)
      (hdev : (I x).dev = dev) (hnr : (I x).nr = nr) :
      Doing s₀ I held i (.iget dev nr [.bread k] (loadRest x nr k)) [(x, true)]
  | cross {dev : Int} {nr x : Nat} {k : Key} {sb : SuperBlock} (hbuf : (I x).buf = k)
      (hroot : ∀ y, sb.iroot = some y → s₀.tab.Covered ⟨dev, nr, y⟩) :
      Doing s₀ I held i
        (.iget dev nr [.bwrite k] (do onCache (·.flushed k); crossRest x sb)) [(x, false)]
  | put {r : Ref} {k : Key} (hbuf : (I r.slot).buf = k) (hr : (i, r) ∈ held) :
      Doing s₀ I held i (.iput r [.bwrite k] (do onCache (·.flushed k); iputRest r.slot)) []

/-- **The invariant between turns.** -/
structure Inv (s₀ : Kernel) (M : Tasks ι) (I : Nat → Inode) (pend : List (ι × Nat × Bool)) :
    Prop where
  world : World s₀ M.kernel I (refs M.held pend) (Loading pend)
  doing : ∀ i, Doing s₀ I M.held i (M.inside i) (taken pend i)
  good : ∀ e ∈ M.held, Good s₀ I e.2

section Inv

variable {s₀ : Kernel} {M : Tasks ι} {I I' : Nat → Inode} {pend pend' : List (ι × Nat × Bool)}
  {held held' : List (ι × Ref)} {i : ι} {r : Ref} {x : Nat}

omit [DecidableEq ι] in
theorem Good.congr (h : Good s₀ I r) (hI : ∃ m, I' r.slot = { I r.slot with count := m }) :
    Good s₀ I' r := by
  obtain ⟨m, hm⟩ := hI
  unfold Good
  rw [hm]
  exact h

omit [DecidableEq ι] in
theorem Doing.congr {P : Inside} {l : List (Nat × Bool)} (h : Doing s₀ I held i P l)
    (hI : ∀ x, x ∈ l.map (·.1) ∨ (∃ r, (i, r) ∈ held ∧ r.slot = x) →
      ∃ m, I' x = { I x with count := m })
    (hheld : ∀ r, (i, r) ∈ held → (i, r) ∈ held') : Doing s₀ I' held' i P l := by
  cases h with
  | idle => exact .idle
  | @load dev nr x k hbuf hdesc hpipe hdev hnr =>
    obtain ⟨m, hm⟩ := hI x (.inl (by simp))
    exact .load (by rw [hm, hbuf]) (by rw [hm, hdesc]) (by rw [hm, hpipe]) (by rw [hm, hdev])
      (by rw [hm, hnr])
  | @cross dev nr x k sb hbuf hroot =>
    obtain ⟨m, hm⟩ := hI x (.inl (by simp))
    exact .cross (by rw [hm, hbuf]) hroot
  | put hbuf hr =>
    obtain ⟨m, hm⟩ := hI _ (.inr ⟨_, hr, rfl⟩)
    exact .put (by rw [hm, hbuf]) (hheld _ hr)

/-- One task's turn leaves the others where they are. -/
theorem Inv.step (h : Inv s₀ M I pend) (i : ι) {s : Kernel} {P : Inside}
    (hworld : World s₀ s I' (refs held' pend') (Loading pend'))
    (hpend : ∀ j, j ≠ i → taken pend' j = taken pend j)
    (hheld : ∀ j, j ≠ i → ∀ r, (j, r) ∈ M.held → (j, r) ∈ held')
    (hI : ∀ x ∈ refs held' pend', x ∈ refs M.held pend → ∃ m, I' x = { I x with count := m })
    (hdoing : Doing s₀ I' held' i P (taken pend' i))
    (hgood : ∀ e ∈ held', e ∈ M.held ∨ Good s₀ I' e.2) :
    Inv s₀ ⟨s, Function.update M.inside i P, held'⟩ I' pend' := by
  have hmem : ∀ (p : List (ι × Nat × Bool)) j x, x ∈ (taken p j).map (·.1) → x ∈ p.map (·.2.1) := by
    intro p j x hx
    simp only [taken, List.mem_map, List.mem_filter] at hx ⊢
    obtain ⟨e, ⟨e', ⟨he, -⟩, rfl⟩, rfl⟩ := hx
    exact ⟨e', he, rfl⟩
  refine ⟨hworld, fun j => ?_, fun e he => ?_⟩
  · show Doing s₀ I' held' j (Function.update M.inside i P j) _
    by_cases e : j = i
    · rw [e, Function.update_self]
      exact hdoing
    · rw [Function.update_of_ne e, hpend j e]
      refine (h.doing j).congr (fun x hx => ?_) (hheld j e)
      obtain hx | ⟨r, hr, rfl⟩ := hx
      · refine hI x (List.mem_append_right _ ?_) (List.mem_append_right _ (hmem _ j x hx))
        exact hmem _ j x (hpend j e ▸ hx)
      · exact hI r.slot (List.mem_append_left _ (List.mem_map.mpr ⟨_, hheld j e r hr, rfl⟩))
          (List.mem_append_left _ (List.mem_map.mpr ⟨_, hr, rfl⟩))
  · obtain hm | hg := hgood e he
    · exact (h.good e hm).congr (hI _ (List.mem_append_left _ (List.mem_map.mpr ⟨e, he, rfl⟩))
        (List.mem_append_left _ (List.mem_map.mpr ⟨e, hm, rfl⟩)))
    · exact hg

theorem taken_cons (j : ι) (b : Bool) : taken ((i, x, b) :: pend) j =
    if j = i then (x, b) :: taken pend j else taken pend j := by
  by_cases e : j = i
  · simp [taken, e]
  · simp [taken, e, Ne.symm e]

omit [DecidableEq ι] in
theorem loading_cons_false (i : ι) (x : Nat) (pend : List (ι × Nat × Bool)) (y : Nat) :
    Loading ((i, x, false) :: pend) y ↔ Loading pend y := by
  simp [Loading]

omit [DecidableEq ι] in
theorem loading_cons_true (i : ι) (x : Nat) (pend : List (ι × Nat × Bool)) (y : Nat) (h : y ≠ x) :
    Loading ((i, x, true) :: pend) y ↔ Loading pend y := by
  simp [Loading, h]

/-- The list without what the calls of task `i` have taken. -/
def released (pend : List (ι × Nat × Bool)) (i : ι) : List (ι × Nat × Bool) :=
  pend.filter fun e => e.1 ≠ i

theorem taken_released (j : ι) : taken (released pend i) j = if j = i then [] else taken pend j := by
  unfold taken released
  rw [List.filter_filter]
  by_cases e : j = i
  · rw [if_pos e, e, List.filter_eq_nil_iff.mpr]
    · rfl
    · simp
  · rw [if_neg e]
    congr 2
    funext a
    by_cases ea : a.1 = j
    · simp [ea, e]
    · simp [ea]

theorem taken_perm {b : Bool} (h : taken pend i = [(x, b)]) :
    pend.Perm ((i, x, b) :: released pend i) := by
  have hf : (pend.filter fun e => e.1 = i) = [(i, x, b)] := by
    cases hl : pend.filter fun e => e.1 = i with
    | nil => simp [taken, hl] at h
    | cons a l =>
      have ha : a.1 = i := by
        have : a ∈ pend.filter fun e => e.1 = i := by simp [hl]
        simpa using (List.mem_filter.mp this).2
      simp only [taken, hl, List.map_cons, List.cons.injEq, List.map_eq_nil_iff] at h
      rw [h.2, ← ha, ← h.1]
  have := List.filter_append_perm (fun e => decide (e.1 = i)) pend
  rw [hf] at this
  refine this.symm.trans (List.Perm.of_eq ?_)
  simp [released]

theorem refs_perm {b : Bool} (h : taken pend i = [(x, b)]) :
    (refs held pend).Perm (x :: refs held (released pend i)) := by
  have := ((taken_perm h).map (·.2.1)).append_left (held.map (·.2.slot))
  exact this.trans List.perm_middle

omit [DecidableEq ι] in
theorem refs_erase [DecidableEq ι] (h : (i, r) ∈ held) :
    (refs held pend).Perm (r.slot :: refs (held.erase (i, r)) pend) := by
  have := (List.perm_cons_erase h).map (·.2.slot)
  exact this.append_right _

/-- A slot that is being read has no other references. -/
theorem Inv.read_once (h : Inv s₀ M I pend) {l : List Nat} (hp : (refs M.held pend).Perm (x :: l))
    (hx : x ∈ l) : ¬ Loading pend x :=
  (h.world.congr hp fun _ => Iff.rfl).not_loading hx

theorem Inv.held_settled (h : Inv s₀ M I pend) (hr : (i, r) ∈ M.held) : ¬ Loading pend r.slot := by
  intro hl
  obtain ⟨j, hj⟩ := hl
  refine h.read_once (refs_erase hr) ?_ ⟨j, hj⟩
  exact List.mem_append_right _ (List.mem_map.mpr ⟨_, hj, rfl⟩)

/-- The invariant gives the tasks what they rely on. -/
theorem Inv.sound (h : Inv s₀ M I pend) (h₀ : InOrder s₀) : M.Sound := by
  have hw := h.world
  have hb := hw.books.booked
  refine ⟨fun i r hr => ?_, fun x y hx hy hpx hpy hd hn => ?_, fun x hx => ?_⟩
  · have hself := hw.same _ (h.held_settled hr)
    obtain ⟨hp, hname⟩ := h.good (i, r) hr
    have hl : (I r.slot).Live := hw.books.live_of_mem
      (List.mem_append_left _ (List.mem_map.mpr ⟨_, hr, rfl⟩))
    obtain ⟨j, hj⟩ := hw.placed.onList _ hl hp
    obtain ⟨hbuf, hdesc⟩ := hw.placed.filled j _ hj
    refine ⟨⟨?_, ⟨j, ?_, ?_, ?_⟩, ?_⟩, ?_⟩
    · rw [hself]
      exact (hb.live _ hl).1
    · rw [hself]
      exact hw.placed.home j _ hj
    · rw [hself]
      exact hbuf
    · rw [hself]
      exact hdesc
    · rw [hself]
      exact hw.valid j _ hj (h.held_settled hr)
    · obtain hname | hc := hname
      · rw [Tables.Names, hself]
        exact .inl hname
      · exact .inr ((hw.covered_iff h₀).mpr hc)
  · obtain ⟨b, d, ex⟩ := hw.slot x
    obtain ⟨b', d', ey⟩ := hw.slot y
    rw [ex] at hpx hd hn
    rw [ey] at hpy hd hn
    obtain ⟨j, hj⟩ := hw.placed.onList x (hw.live_iff.mp hx) hpx
    obtain ⟨j', hj'⟩ := hw.placed.onList y (hw.live_iff.mp hy) hpy
    have h1 := hw.placed.home j x hj
    have h2 := hw.placed.home j' y hj'
    have hd : ((M.kernel.filled I).tab.inodeTable x).dev = ((M.kernel.filled I).tab.inodeTable y).dev := hd
    rw [hd, h2] at h1
    obtain rfl : j' = j := Option.some.inj h1
    exact hw.placed.distinct j' x hj y hj' hn
  · obtain ⟨b, d, ex⟩ := hw.slot x
    rw [ex]
    exact (hb.free x fun hl => hx (hw.live_iff.mpr hl)).1

/-! ## 5. The turns -/

theorem Inv.idle_taken (h : Inv s₀ M I pend) (hi : M.inside i = .idle) : taken pend i = [] := by
  have hd := h.doing i
  rw [hi] at hd
  generalize taken pend i = l at hd
  cases hd
  rfl

/-- An inode that is settled is not being read. -/
theorem Inv.not_loading (h : Inv s₀ M I pend) {dev : Int} {nr : Nat} (hok : M.Settled dev nr)
    (hdev : (I x).dev = dev) (hnr : (I x).nr = nr) : ¬ Loading pend x := by
  rintro ⟨j, hj⟩
  have hd := h.doing j
  have hm : (x, true) ∈ taken pend j := by simpa [taken] using hj
  generalize hP : M.inside j = P at hd
  generalize taken pend j = l at hd hm
  cases hd with
  | idle => simp at hm
  | @load dev' nr' x' k hbuf hdesc hpipe hdev' hnr' =>
    obtain rfl : x = x' := by simpa using hm
    exact hok j k _ (by rw [hP, ← hdev', ← hnr', hdev, hnr])
  | cross => simp at hm
  | put => simp at hm

/-- What a list holds, in the books. -/
theorem Inv.listed (h : Inv s₀ M I pend) {j : Nat} (hx : x ∈ (M.kernel.tab.superTable j).inodeList) :
    (I x).Live ∧ (I x).pipe = false ∧ (M.kernel.tab.inodeTable x).count ≠ 0 ∧
      (M.kernel.tab.inodeTable x).pipe = false ∧ (M.kernel.tab.inodeTable x).nr = (I x).nr ∧
      ∀ dev, M.kernel.tab.getSuper dev = some j → (I x).dev = dev := by
  have hb := h.world.books.booked
  obtain ⟨hl, hp⟩ := hb.listed j x hx
  obtain ⟨b, d, e⟩ := h.world.slot x
  refine ⟨hl, hp, ?_, ?_, ?_, fun dev hdev => ?_⟩
  · rw [e]
    exact (hb.live x hl).1
  · rw [e]
    exact hp
  · rw [e]
  · have h1 := getSuper_dev (h.world.placed.home j x hx)
    exact h1.symm.trans (getSuper_dev hdev)

/-- A task gets a pointer to an inode in memory. -/
theorem Inv.gets (h : Inv s₀ M I pend) (hi : taken pend i = []) (hx : (I x).Live)
    (hL : ¬ Loading pend x) {dev : Int} {nr : Nat} (hgood : Good s₀ I ⟨dev, nr, x⟩) :
    Inv s₀ ⟨{ M.kernel with tab := M.kernel.tab.took x }, Function.update M.inside i .idle,
      (i, ⟨dev, nr, x⟩) :: M.held⟩ (recount I x ((I x).count + 1)) pend := by
  refine h.step i (h.world.take hx hL) (fun _ _ => rfl)
    (fun j hj r hr => List.mem_cons_of_mem _ hr) (fun y _ _ => recount_keeps I x _ y)
    (hi ▸ .idle) fun e he => ?_
  obtain rfl | he := List.mem_cons.mp he
  · exact .inr (hgood.congr (recount_keeps I x _ x))
  · exact .inl he

/-- A task begins an `iget`. -/
theorem Inv.get (h : Inv s₀ M I pend) (h₀ : InOrder s₀) (hi : M.inside i = .idle) {dev : Int}
    {nr : Nat} (hdev : dev ≠ devEOF) (hok : M.Settled dev nr) {K : Tasks ι}
    (ht : M.getTurn i dev nr (iget dev nr) = some K) : ∃ I' pend', Inv s₀ K I' pend' := by
  have htaken := h.idle_taken hi
  have hturn : IgetTurn M.kernel dev nr (upTo (iget dev nr) M.kernel) := iget_turn fun j x hx =>
    ⟨(h.listed hx).2.2.1, (h.listed hx).2.2.2.1⟩
  unfold getTurn at ht
  generalize upTo (iget dev nr) M.kernel = P at hturn ht
  cases hturn with
  | stopped e => cases ht
  | @found j x hj hx hnr hm =>
    cases ht
    obtain ⟨hl, hp, -, -, hn, hd⟩ := h.listed hx
    have hn' := hn.symm.trans hnr
    exact ⟨_, pend, h.gets htaken hl (h.not_loading hok (hd dev hj) hn')
      ⟨hp, .inl ⟨hd dev hj, hn'⟩⟩⟩
  | @crossed j x j' y hj hx hnr hm hj' hy =>
    cases ht
    obtain ⟨hl, hp, -, -, hn, hd⟩ := h.listed hx
    have hxL := h.not_loading hok (hd dev hj) (hn.symm.trans hnr)
    have hself := h.world.same x hxL
    have hc : s₀.tab.Covered ⟨dev, nr, y⟩ := (h.world.covered_iff h₀).mp
      ⟨x, j', by rw [hself]; exact hd dev hj, hnr, hm, hj', hy⟩
    obtain ⟨hy₀, hyp⟩ := h₀.root hc
    have hyI := h.world.books.live_of_start hy₀
    have hyk : I y = _ := h.world.books.keep y hy₀
    refine ⟨_, pend, h.gets htaken hyI (fun hL => (h.world.loading y hL).2 hy₀) ⟨?_, .inr hc⟩⟩
    rw [hyk]
    exact hyp
  | @crossing j x j' hj hx hnr hm hj' =>
    cases ht
    obtain ⟨hl, hp, -, -, hn, hd⟩ := h.listed hx
    have hxL := h.not_loading hok (hd dev hj) (hn.symm.trans hnr)
    have hself := h.world.same x hxL
    have hroot : ∀ y, (M.kernel.tab.superTable j').iroot = some y →
        s₀.tab.Covered ⟨dev, nr, y⟩ := fun y hy => (h.world.covered_iff h₀).mp
      ⟨x, j', by rw [hself]; exact hd dev hj, hnr, hm, hj', hy⟩
    have hw := (h.world.take hl hxL).onCache (c := M.kernel.cache.flush (I x).buf)
      (fun _ => rfl) (fun _ hv => hv)
    rw [hself]
    refine ⟨recount I x ((I x).count + 1), (i, x, false) :: pend,
      h.step i (hw.congr List.perm_middle.symm (loading_cons_false i x pend)) (fun j hj => ?_)
        (fun _ _ _ hr => hr) (fun y _ _ => recount_keeps I x _ y) ?_ fun e he => .inl he⟩
    · rw [taken_cons, if_neg hj]
    · rw [taken_cons, if_pos rfl, htaken]
      obtain ⟨m, hm⟩ := recount_keeps I x ((I x).count + 1) x
      exact .cross (by rw [hm]) hroot
  | @loaded j x k hj hnr hlt hfree hx hk hv =>
    cases ht
    obtain ⟨I', hw, hother, hnot, -, -, hd, hn, hp⟩ := h.world.claim hj hnr hdev hlt hfree hx hk
      ⟨_, _, rfl⟩ (fun _ _ => Iff.rfl) fun _ => ⟨hv, rfl⟩
    refine ⟨I', pend, h.step i hw (fun _ _ => rfl) (fun _ _ r hr => List.mem_cons_of_mem _ hr)
      (fun y _ hy => ⟨(I y).count, hother y fun e => hnot (e ▸ hy)⟩) (htaken ▸ .idle) fun e he => ?_⟩
    obtain rfl | he := List.mem_cons.mp he
    · exact .inr ⟨hp, .inl ⟨hd, hn⟩⟩
    · exact .inl he
  | @loading j x k hj hnr hlt hfree hx hk =>
    cases ht
    obtain ⟨I', hw, hother, hnot, hbuf, hdesc, hd, hn, hp⟩ := h.world.claim hj hnr hdev hlt hfree hx
      hk ⟨_, _, rfl⟩ (loading_cons_true i x pend)
      fun hL => absurd ⟨i, List.mem_cons_self⟩ hL
    refine ⟨I', (i, x, true) :: pend, h.step i (hw.congr List.perm_middle.symm fun _ => Iff.rfl)
      (fun j hj => ?_) (fun _ _ _ hr => hr)
      (fun y _ hy => ⟨(I y).count, hother y fun e => hnot (e ▸ hy)⟩) ?_ fun e he => .inl he⟩
    · rw [taken_cons, if_neg hj]
    · rw [taken_cons, if_pos rfl, htaken]
      exact .load hbuf hdesc hp hd hn

/-- A task goes on with an `iget`. -/
theorem Inv.getOn (h : Inv s₀ M I pend) (h₀ : InOrder s₀) {dev : Int} {nr : Nat} {l : List Frame}
    {p : Code Nat} (hi : M.inside i = .iget dev nr l p) {K : Tasks ι}
    (ht : M.getTurn i dev nr p = some K) : ∃ I' pend', Inv s₀ K I' pend' := by
  have hd := h.doing i
  rw [hi] at hd
  generalize hl : taken pend i = tk at hd
  have hpend : ∀ j, j ≠ i → taken (released pend i) j = taken pend j := fun j hj => by
    rw [taken_released, if_neg hj]
  have hidle : ∀ J held', Doing s₀ J held' i .idle (taken (released pend i) i) := fun J held' => by
    rw [taken_released, if_pos rfl]
    exact .idle
  cases hd with
  | @load _ _ x k hbuf hdesc hpipe hdev hnr =>
    cases ht
    have hperm : (refs M.held pend).Perm _ := refs_perm hl
    have hrel : ∀ y, Loading (released pend i) y ↔ Loading pend y ∧ y ≠ x := by
      intro y
      have hx : x ∉ refs M.held (released pend i) := fun hx => by
        refine h.read_once hperm hx ⟨i, ?_⟩
        exact (taken_perm hl).mem_iff.mpr List.mem_cons_self
      constructor
      · rintro ⟨j, hj⟩
        refine ⟨⟨j, (List.mem_filter.mp hj).1⟩, ?_⟩
        rintro rfl
        exact hx (List.mem_append_right _ (List.mem_map.mpr ⟨_, hj, rfl⟩))
      · rintro ⟨⟨j, hj⟩, hne⟩
        obtain e | hj := List.mem_cons.mp ((taken_perm hl).mem_iff.mp hj)
        · cases e
          exact absurd rfl hne
        · exact ⟨j, hj⟩
    have hw := (h.world.arrive hbuf hdesc).congr hperm hrel
    refine ⟨I, released pend i, h.step i hw hpend (fun _ _ r hr => List.mem_cons_of_mem _ hr)
      (fun y _ _ => ⟨(I y).count, rfl⟩) (hidle _ _) fun e he => ?_⟩
    obtain rfl | he := List.mem_cons.mp he
    · exact .inr ⟨hpipe, .inl ⟨hdev, hnr⟩⟩
    · exact .inl he
  | @cross _ _ x k sb hbuf hroot =>
    have hperm : (refs M.held pend).Perm _ := refs_perm hl
    have hxL : ¬ Loading pend x := by
      rintro ⟨j, hj⟩
      obtain e | hj' := List.mem_cons.mp ((taken_perm hl).mem_iff.mp hj)
      · cases e
      · exact h.read_once hperm (List.mem_append_right _ (List.mem_map.mpr ⟨_, hj', rfl⟩)) ⟨j, hj⟩
    have hrel : ∀ y, Loading (released pend i) y ↔ Loading pend y := by
      refine fun y => exists_congr fun j => ?_
      rw [(taken_perm hl).mem_iff, List.mem_cons]
      simp
    have hw := (h.world.onCache (fun _ => count_flushed) (valid_flushed k)).congr hperm hrel
    obtain hstop | ⟨y, t, hy, hput, hdone⟩ := crossRest_turn (x := x) sb
      (s := { M.kernel with cache := M.kernel.cache.flushed k })
      (by rw [h.world.same x hxL, hbuf]; exact dirty_flushed k)
    · obtain ⟨e, he⟩ := hstop
      unfold getTurn at ht
      rw [upTo_onCache, he] at ht
      cases ht
    · unfold getTurn at ht
      rw [upTo_onCache, hdone] at ht
      cases ht
      obtain ⟨I₁, hw₁, hk₁⟩ := hw.put (fun hL => hxL ((hrel x).mp hL)) hput
      have hc := hroot y hy
      obtain ⟨hy₀, hyp⟩ := h₀.root hc
      have hyL : ¬ Loading (released pend i) y := fun hL => (hw₁.loading y hL).2 hy₀
      have hyI : I₁ y = _ := hw₁.books.keep y hy₀
      have hw₂ := hw₁.take (hw₁.books.live_of_start hy₀) hyL
      refine ⟨_, released pend i, h.step i hw₂ hpend
        (fun _ _ r hr => List.mem_cons_of_mem _ hr) (fun z hz _ => ?_) (hidle _ _) fun e he => ?_⟩
      · have hz₁ : ∃ m, I₁ z = { I z with count := m } := by
          obtain ez | hz := List.mem_cons.mp hz
          · have hyk : I y = _ := h.world.books.keep y hy₀
            rw [ez, hyI, hyk]
            exact ⟨_, rfl⟩
          · exact hk₁ z hz
        obtain ⟨m, hm⟩ := hz₁
        obtain ⟨m', hm'⟩ := recount_keeps I₁ y ((I₁ y).count + 1) z
        exact ⟨m', by rw [hm', hm]⟩
      · obtain rfl | he := List.mem_cons.mp he
        · refine .inr (Good.congr (I := I₁) ⟨?_, .inr hc⟩ (recount_keeps I₁ y _ y))
          rw [hyI]
          exact hyp
        · exact .inl he

/-- A reference has been given back. -/
theorem Inv.puts (h : Inv s₀ M I pend) (hi : taken pend i = []) (hr : (i, r) ∈ M.held) {s t : Kernel}
    (hw : World s₀ s I (refs M.held pend) (Loading pend)) (hput : PutBack r.slot s t) :
    ∃ I' pend', Inv s₀ ⟨t, Function.update M.inside i .idle, M.held.erase (i, r)⟩ I' pend' := by
  obtain ⟨I', hw', hk⟩ := (hw.congr (refs_erase hr) fun _ => Iff.rfl).put (h.held_settled hr) hput
  refine ⟨I', pend, h.step i hw' (fun _ _ => rfl) (fun j hj r' hr' => ?_) (fun y hy _ => hk y hy)
    (hi ▸ .idle) fun e he => .inl (List.mem_of_mem_erase he)⟩
  exact (List.mem_erase_of_ne fun e => hj (congrArg Prod.fst e)).mpr hr'

/-- A task begins an `iput`. -/
theorem Inv.put (h : Inv s₀ M I pend) (hi : M.inside i = .idle) (hr : (i, r) ∈ M.held)
    {K : Tasks ι} (ht : M.putTurn i r (iput r.slot) = some K) : ∃ I' pend', Inv s₀ K I' pend' := by
  have htaken := h.idle_taken hi
  have hself := h.world.same _ (h.held_settled hr)
  have hp : (M.kernel.tab.inodeTable r.slot).pipe = false := by
    rw [hself]
    exact (h.good _ hr).1
  unfold putTurn at ht
  rw [upTo_iput hp] at ht
  by_cases hd : (M.kernel.cache.buf (M.kernel.tab.inodeTable r.slot).buf).dirty
  · rw [if_pos hd] at ht
    cases ht
    have hw := h.world.onCache (c := M.kernel.cache.flush (M.kernel.tab.inodeTable r.slot).buf)
      (fun _ => rfl) (fun _ hv => hv)
    exact ⟨I, pend, h.step i hw (fun _ _ => rfl) (fun _ _ _ hr => hr)
      (fun y _ _ => ⟨(I y).count, rfl⟩) (htaken ▸ .put (by rw [hself]) hr) fun e he => .inl he⟩
  · rw [if_neg hd] at ht
    obtain ⟨e, he⟩ | ⟨t, hdone, hput⟩ := iputRest_turn (s := M.kernel) (x := r.slot) (by simpa using hd)
    · rw [he] at ht
      cases ht
    · rw [hdone] at ht
      cases ht
      exact h.puts htaken hr h.world hput

/-- A task goes on with an `iput`. -/
theorem Inv.putOn (h : Inv s₀ M I pend) {l : List Frame} {p : Code Unit}
    (hi : M.inside i = .iput r l p) {K : Tasks ι} (ht : M.putTurn i r p = some K) :
    ∃ I' pend', Inv s₀ K I' pend' := by
  have hd := h.doing i
  rw [hi] at hd
  generalize hl : taken pend i = tk at hd
  cases hd with
  | @put _ k hbuf hr =>
    have hw := h.world.onCache (fun _ => count_flushed) (valid_flushed k)
    unfold putTurn at ht
    rw [upTo_onCache] at ht
    obtain ⟨e, he⟩ | ⟨t, hdone, hput⟩ := iputRest_turn (x := r.slot)
      (s := { M.kernel with cache := M.kernel.cache.flushed k })
      (by rw [h.world.same _ (h.held_settled hr), hbuf]; exact dirty_flushed k)
    · rw [he] at ht
      cases ht
    · rw [hdone] at ht
      cases ht
      exact h.puts hl hr hw hput

/-- **Any number of turns** keep the invariant. -/
theorem Turns.inv {s : Kernel} (h₀ : InOrder s) {M : Tasks ι}
    (h : Turns Settled ⟨s, fun _ => .idle, []⟩ M) : ∃ I pend, Inv s M I pend := by
  induction h with
  | start => exact ⟨_, [], h₀.world.congr .rfl fun _ => by simp [Loading], fun _ => .idle, nofun⟩
  | iget _ i hi dev nr hdev hok ht ih =>
    obtain ⟨I, pend, hinv⟩ := ih
    exact hinv.get h₀ hi hdev hok ht
  | iput _ i hi r hr ht ih =>
    obtain ⟨I, pend, hinv⟩ := ih
    exact hinv.put hi hr ht
  | getOn _ i hi ht ih =>
    obtain ⟨I, pend, hinv⟩ := ih
    exact hinv.getOn h₀ hi ht
  | putOn _ i hi ht ih =>
    obtain ⟨I, pend, hinv⟩ := ih
    exact hinv.putOn hi ht

end Inv

end Tasks

/-- **Tasks that share inodes**: in every order of turns in which nobody asks for an inode whose
    block another task is reading, the pointers are right, no inode is in memory twice and no slot
    with references is free. -/
theorem inodes_shared {ι : Type} [DecidableEq ι] {s : Kernel} (h₀ : InOrder s) {M : Tasks ι}
    (h : Tasks.Turns Tasks.Settled ⟨s, fun _ => .idle, []⟩ M) : M.Sound := by
  obtain ⟨I, pend, hinv⟩ := h.inv h₀
  exact hinv.sound h₀

/-! ### Two tasks, one inode -/

namespace Tasks

variable {ι : Type} [DecidableEq ι]

/-- A task's turn: it begins a call, or goes on with the one it is inside of. -/
inductive Move (ι : Type) where
  | iget (i : ι) (dev : Int) (nr : Nat)
  | iput (i : ι) (r : Ref)
  | on (i : ι)

/-- The turns of a list, computed; none if one of them is not allowed or stops the machine. -/
def play (Ok : Tasks ι → Int → Nat → Prop) [∀ M dev nr, Decidable (Ok M dev nr)] :
    List (Move ι) → Tasks ι → Option (Tasks ι)
  | [], M => some M
  | .iget i dev nr :: l, M =>
    match M.inside i with
    | .idle =>
      if dev ≠ devEOF ∧ Ok M dev nr then (M.getTurn i dev nr (Yuios.iget dev nr)).bind (play Ok l)
      else none
    | _ => none
  | .iput i r :: l, M =>
    match M.inside i with
    | .idle =>
      if (i, r) ∈ M.held then (M.putTurn i r (Yuios.iput r.slot)).bind (play Ok l) else none
    | _ => none
  | .on i :: l, M =>
    match M.inside i with
    | .iget dev nr _ p => (M.getTurn i dev nr p).bind (play Ok l)
    | .iput r _ p => (M.putTurn i r p).bind (play Ok l)
    | .idle => none

theorem turns_of_play {Ok : Tasks ι → Int → Nat → Prop} [∀ M dev nr, Decidable (Ok M dev nr)]
    {l : List (Move ι)} {M N K : Tasks ι} (hN : Turns Ok M N) (h : play Ok l N = some K) :
    Turns Ok M K := by
  induction l generalizing N with
  | nil => exact Option.some.inj h ▸ hN
  | cons m l ih =>
    cases m with
    | iget i dev nr =>
      unfold play at h
      split at h
      next hi =>
        split at h
        next hok =>
          obtain ⟨N', ht, h⟩ := Option.bind_eq_some_iff.mp h
          exact ih (.iget hN i hi dev nr hok.1 hok.2 ht) h
        next => cases h
      next => cases h
    | iput i r =>
      unfold play at h
      split at h
      next hi =>
        split at h
        next hr =>
          obtain ⟨N', ht, h⟩ := Option.bind_eq_some_iff.mp h
          exact ih (.iput hN i hi r hr ht) h
        next => cases h
      next => cases h
    | on i =>
      unfold play at h
      split at h
      next hi =>
        obtain ⟨N', ht, h⟩ := Option.bind_eq_some_iff.mp h
        exact ih (.getOn hN i hi ht) h
      next hi =>
        obtain ⟨N', ht, h⟩ := Option.bind_eq_some_iff.mp h
        exact ih (.putOn hN i hi ht) h
      next => cases h

/-- The task waits for a block. -/
def inBread : List Frame → Bool
  | [.bread _] => true
  | _ => false

theorem inBread_iff {l : List Frame} : inBread l = true ↔ ∃ k, l = [.bread k] := by
  unfold inBread
  split
  · simp
  · rename_i h
    simp only [Bool.false_eq_true, false_iff]
    exact fun ⟨k, e⟩ => h k e

/-- The task waits for the block of that inode. -/
def reading (P : Inside) (dev : Int) (nr : Nat) : Bool :=
  match P with
  | .iget dev' nr' l _ => decide (dev' = dev ∧ nr' = nr) && inBread l
  | _ => false

instance {n : Nat} (M : Tasks (Fin n)) (dev : Int) (nr : Nat) : Decidable (Settled M dev nr) :=
  decidable_of_iff (∀ i, reading (M.inside i) dev nr = false) <| by
    refine forall_congr' fun i => ?_
    cases M.inside i with
    | idle => simp [reading]
    | iput r l p => simp [reading]
    | iget dev' nr' l p =>
      rw [← Bool.not_eq_true, reading, Bool.and_eq_true, decide_eq_true_iff, inBread_iff]
      constructor
      · intro h k q e
        cases e
        exact h ⟨⟨rfl, rfl⟩, k, rfl⟩
      · rintro h ⟨⟨rfl, rfl⟩, k, rfl⟩
        exact h k p rfl

end Tasks

namespace Sample

/-- A volume with 64 inodes, two blocks of them; the first block has been read. -/
def twoBlocks : Kernel :=
  { fresh with
    cache :=
      { disk := fun _ _ => 0
        buf := fun k => if k = ⟨dev, 4⟩ then ⟨some fun _ => 0, false, 1⟩ else ⟨none, false, 0⟩ }
    tab :=
      { fresh.tab with
        superTable := fun i => { superTable i with inodes := 64, firstdatazone := 6 } } }

theorem twoBlocks_inOrder : InOrder twoBlocks := by
  have hlist : ∀ i, ∀ x ∈ (twoBlocks.tab.superTable i).inodeList, i = 0 ∧ x = 0 := by
    intro i x hx
    have hx : x ∈ (superTable i).inodeList := hx
    unfold superTable at hx
    split at hx
    · exact ⟨‹_›, by simpa [superBlock] using hx⟩
    · cases hx
  have hlive : ∀ x, (twoBlocks.tab.inodeTable x).Live ↔ x = 0 := by
    intro x
    show (inodeTable x).Live ↔ x = 0
    unfold inodeTable Inode.Live
    split <;> simp [*, dev, devEOF]
  refine ⟨⟨booked.free, booked.live, booked.mount, booked.listed, booked.nodup, booked.apart,
    booked.roots, booked.task⟩, ⟨fun i x hx => ?_, fun x hl _ => ?_, fun i x hx y hy _ => ?_,
    fun i x hx => ?_⟩, fun i x hx => ?_, fun x hl => ?_, fun i _ y hy => ?_⟩
  · obtain ⟨rfl, rfl⟩ := hlist i x hx
    decide
  · obtain rfl := (hlive x).mp hl
    exact ⟨0, List.mem_cons_self⟩
  · rw [(hlist i x hx).2, (hlist i y hy).2]
  · obtain ⟨rfl, rfl⟩ := hlist i x hx
    decide
  · obtain ⟨rfl, rfl⟩ := hlist i x hx
    decide
  · have hx : x ≠ 0 := fun e => hl ((hlive x).mpr e)
    show (inodeTable x).mount = 0
    simp [inodeTable, hx]
  · have hy : (superTable i).iroot = some y := hy
    obtain rfl : y = 0 := by
      unfold superTable at hy
      split at hy <;> exact (Option.some.inj hy).symm
    decide

/-- Two tasks on that volume. -/
def two : Tasks (Fin 2) := ⟨twoBlocks, fun _ => .idle, []⟩

/-- Both ask for inode 40, the second when the first one's block has arrived; the first one puts it
    back. -/
def inTurn : List (Tasks.Move (Fin 2)) :=
  [.iget 0 dev 40, .on 0, .iget 1 dev 40, .iput 0 ⟨dev, 40, 1⟩]

/-- The second asks while the first one waits. -/
def tooEarly : List (Tasks.Move (Fin 2)) := [.iget 0 dev 40, .iget 1 dev 40]

end Sample

/-- One task reads the inode before the other asks for it. -/
theorem inodes_shared_inTurn : ∃ M, Tasks.Turns Tasks.Settled Sample.two M ∧
    M.held = [(1, ⟨Sample.dev, 40, 1⟩)] ∧ M.Sound := by
  have hplay : (Tasks.play Tasks.Settled Sample.inTurn Sample.two).map Tasks.held =
      some [(1, ⟨Sample.dev, 40, 1⟩)] := by decide
  obtain ⟨M, hM, hheld⟩ := Option.map_eq_some_iff.mp hplay
  have hturns := Tasks.turns_of_play .start hM
  exact ⟨M, hturns, hheld, inodes_shared Sample.twoBlocks_inOrder hturns⟩

/-- The second task is handed the inode the first one is still reading, with the pointers of the
    slot's last use. -/
theorem inodes_shared_not_always : ¬ ∀ {ι : Type} [DecidableEq ι] (s : Kernel) (M : Tasks ι),
    InOrder s → Tasks.Turns (fun _ _ _ => True) ⟨s, fun _ => .idle, []⟩ M → M.Sound := by
  intro h
  have hplay : (Tasks.play (fun _ _ _ => True) Sample.tooEarly Sample.two).map
      (fun M => (M.held, (M.kernel.tab.inodeTable 1).dev, (M.kernel.tab.inodeTable 1).buf)) =
      some ([(1, ⟨Sample.dev, 40, 1⟩)], Sample.dev, ⟨devEOF, 0⟩) := by decide
  obtain ⟨M, hM, hq⟩ := Option.map_eq_some_iff.mp hplay
  simp only [Prod.mk.injEq] at hq
  obtain ⟨hheld, hdev, hbuf⟩ := hq
  have hs := h Sample.twoBlocks M Sample.twoBlocks_inOrder (Tasks.turns_of_play .start hM)
  obtain ⟨⟨-, ⟨i, -, hplace, -⟩, -⟩, -⟩ := hs.right 1 ⟨Sample.dev, 40, 1⟩ (by simp [hheld])
  rw [hbuf, hdev] at hplace
  have hdevs : devEOF = Sample.dev := congrArg Key.dev hplace
  exact absurd hdevs (by decide)

end Yuios
