/-
  File:      Yuios/Fs/Owned.lean
  Subject:   REFERENCES TO INODES, counted: which slots of the inode table are used, and how often.

  * `Owned T refs` -- the slots of the table are referred to by `refs`, each as often as its count
    says, and the table is in order. A reference may change hands without a step: only the list
    as a whole matters.
  * `Around s t` -- what a call on inodes leaves alone: tasks, files, super blocks, mount fields.
  * `Owns s₀ kept held s` -- kernel code that began in `s₀` holds `held`; the tables it may not
    touch hold `kept`. One rule a call: `owns_iput`, `owns_iget`, `owns_namei`, ...
-/
import Yuios.Fs.Placed

namespace Yuios

open Lib Prog Code

/-! ## 1. The table and its references -/

/-- **The inode table is in order, and `refs` are the references to its slots.** -/
structure Owned (T : Tables) (refs : List Nat) : Prop where
  count : ∀ x, (T.inodeTable x).count = refs.count x
  live : ∀ x, (T.inodeTable x).Live ↔ x ∈ refs
  bound : ∀ x ∈ refs, x < INODE_NR
  bare : ∀ x, x ∉ refs → (T.inodeTable x).pipe = false ∧ (T.inodeTable x).mount = 0
  mount : ∀ x, (T.inodeTable x).mount ≠ devEOF
  lists : Listed T
  placed : Placed T

section Owned

variable {T T' : Tables} {refs refs' : List Nat} {x y i : Nat} {ino : Inode}

theorem Owned.perm (h : Owned T refs) (hp : refs.Perm refs') : Owned T refs' where
  count z := by rw [h.count z, hp.count_eq]
  live z := by rw [h.live z, hp.mem_iff]
  bound z hz := h.bound z (hp.mem_iff.mpr hz)
  bare z hz := h.bare z fun hm => hz (hp.mem_iff.mp hm)
  mount := h.mount
  lists := h.lists
  placed := h.placed

theorem Owned.count_ne (h : Owned T refs) : (T.inodeTable x).count ≠ 0 ↔ x ∈ refs := by
  rw [h.count x, ← List.count_pos_iff, Nat.pos_iff_ne_zero]

/-- What is in a list has a reference. -/
theorem Owned.listed (h : Owned T refs) (hx : x ∈ (T.superTable i).inodeList) : x ∈ refs :=
  (h.live x).mp (h.lists.listed i x hx).1

/-- **One slot changes**, with its references and the lists. -/
theorem Owned.change (h : Owned T refs) (hother : ∀ z, z ≠ x → T'.inodeTable z = T.inodeTable z)
    (ho : ∀ z, z ≠ x → refs'.count z = refs.count z)
    (hcount : (T'.inodeTable x).count = refs'.count x)
    (hlive : (T'.inodeTable x).Live ↔ x ∈ refs') (hbound : x ∈ refs' → x < INODE_NR)
    (hbare : x ∉ refs' → (T'.inodeTable x).pipe = false ∧ (T'.inodeTable x).mount = 0)
    (hmount : (T'.inodeTable x).mount ≠ devEOF) (hlists : Listed T') (hplaced : Placed T') :
    Owned T' refs' := by
  have hmem : ∀ z, z ≠ x → (z ∈ refs' ↔ z ∈ refs) := fun z hz => by
    rw [← List.count_pos_iff, ← List.count_pos_iff, ho z hz]
  refine ⟨fun z => ?_, fun z => ?_, fun z hz => ?_, fun z hz => ?_, fun z => ?_, hlists, hplaced⟩
  all_goals by_cases e : z = x
  · rw [e, hcount]
  · rw [hother z e, h.count z, ho z e]
  · rw [e, hlive]
  · rw [hother z e, h.live z, hmem z e]
  · exact e ▸ hbound (e ▸ hz)
  · exact h.bound z ((hmem z e).mp hz)
  · rw [e]
    exact hbare (e ▸ hz)
  · rw [hother z e]
    exact h.bare z fun hm => hz ((hmem z e).mpr hm)
  · rw [e]
    exact hmount
  · rw [hother z e]
    exact h.mount z

/-- A used slot's count changes with its references. -/
theorem Owned.setCount (h : Owned T refs) (hx : x ∈ refs) (hx' : x ∈ refs')
    (ho : ∀ z, z ≠ x → refs'.count z = refs.count z) :
    Owned (T.setInode x { T.inodeTable x with count := refs'.count x }) refs' := by
  have hself : (T.setInode x { T.inodeTable x with count := refs'.count x }).inodeTable x =
      { T.inodeTable x with count := refs'.count x } := by simp [Tables.setInode]
  refine h.change (fun z hz => by simp [Tables.setInode, hz]) ho ?_ ?_ (fun _ => h.bound x hx)
    (fun hn => absurd hx' hn) ?_ (h.lists.setCount _) (h.placed.setCount _)
  · rw [hself]
  · rw [hself]
    exact iff_of_true ((h.live x).mpr hx) hx'
  · rw [hself]
    exact h.mount x

/-- One reference more to a used slot. -/
theorem Owned.take (h : Owned T refs) (hx : x ∈ refs) :
    Owned (T.setInode x { T.inodeTable x with count := (T.inodeTable x).count + 1 })
      (x :: refs) := by
  have hc : (x :: refs).count x = (T.inodeTable x).count + 1 := by
    rw [List.count_cons_self, ← h.count x]
  rw [← hc]
  exact h.setCount hx List.mem_cons_self fun z hz => by simp [hz.symm]

/-- One reference less, which is not the last one. -/
theorem Owned.drop (h : Owned T (x :: refs)) (hx : x ∈ refs) :
    Owned (T.setInode x { T.inodeTable x with count := (T.inodeTable x).count - 1 }) refs := by
  have hc : (T.inodeTable x).count - 1 = refs.count x := by
    rw [h.count x, List.count_cons_self]
    rfl
  rw [hc]
  exact h.setCount List.mem_cons_self hx fun z hz => by simp [hz.symm]

/-- The last reference goes, and the slot is free again. -/
theorem Owned.free (h : Owned T (x :: refs)) (hx : x ∉ refs)
    (hi : x ∈ (T.superTable i).inodeList) (hdev : ino.dev = devEOF) (hc : ino.count = 0)
    (hp : ino.pipe = false) (hm : ino.mount = 0) :
    Owned ((T.setInode x ino).setSuper i
      { T.superTable i with inodeList := (T.superTable i).inodeList.erase x }) refs := by
  have hplaced := h.placed.free h.lists hi hdev
  have hlists := h.lists.free hi ino
  have hself : ((T.setInode x ino).setSuper i
      { T.superTable i with inodeList := (T.superTable i).inodeList.erase x }).inodeTable x = ino := by
    simp [Tables.setSuper, Tables.setInode]
  refine h.change (fun z hz => by simp [Tables.setSuper, Tables.setInode, hz])
    (fun z hz => by simp [hz.symm]) ?_ ?_ (fun hm => absurd hm hx) (fun _ => ?_) ?_ hlists hplaced
  all_goals rw [hself]
  · rw [hc, List.count_eq_zero.mpr hx]
  · exact iff_of_false (fun hl => hl hdev) hx
  · exact ⟨hp, hm⟩
  · rw [hm]
    decide

/-- A free slot is taken for an inode that was not in memory. -/
theorem Owned.claim (h : Owned T refs) (hx : x ∉ refs) (hlt : x < INODE_NR)
    (hi : T.getSuper ino.dev = some i)
    (hnr : ∀ y ∈ (T.superTable i).inodeList, (T.inodeTable y).nr ≠ ino.nr)
    (hbuf : ino.buf = ⟨ino.dev, inodeBlock (T.superTable i) ino.nr⟩)
    (hdesc : ino.desc = 32 * ((ino.nr - 1) % BLOCK_INODES)) (hdev : ino.dev ≠ devEOF)
    (hc : ino.count = 1) (hp : ino.pipe = false) (hm : ino.mount = 0) :
    Owned (T.claimed i x ino) (x :: refs) := by
  have hfree : ¬ (T.inodeTable x).Live := fun hl => hx ((h.live x).mp hl)
  have hself : (T.claimed i x ino).inodeTable x = ino := by
    simp [Tables.claimed, Tables.setSuper, Tables.setInode]
  refine h.change (fun z hz => by simp [Tables.claimed, Tables.setSuper, Tables.setInode, hz])
    (fun z hz => by simp [hz.symm]) ?_ ?_ (fun _ => hlt) (fun hn => absurd List.mem_cons_self hn) ?_
    (h.lists.claim hfree hdev hp) (h.placed.claim h.lists hfree hi hnr hbuf hdesc)
  all_goals rw [hself]
  · rw [hc, List.count_cons_self, List.count_eq_zero.mpr hx]
  · exact iff_of_true hdev List.mem_cons_self
  · rw [hm]
    decide

/-- A slot that is in no list changes: a pipe comes or goes. -/
theorem Owned.outside (h : Owned T refs) (hx : ∀ i, x ∉ (T.superTable i).inodeList)
    (ho : ∀ z, z ≠ x → refs'.count z = refs.count z) (hc : ino.count = refs'.count x)
    (hlive : ino.Live ↔ x ∈ refs') (hbound : x ∈ refs' → x < INODE_NR)
    (hbare : x ∉ refs' → ino.pipe = false) (hm : ino.mount = 0)
    (hp : ¬ ino.Live ∨ ino.pipe = true) : Owned (T.setInode x ino) refs' := by
  have hself : (T.setInode x ino).inodeTable x = ino := by simp [Tables.setInode]
  refine h.change (fun z hz => by simp [Tables.setInode, hz]) ho ?_ ?_ hbound (fun hn => ?_) ?_
    (h.lists.outside hx) (h.placed.outside hx hp)
  all_goals rw [hself]
  · exact hc
  · exact hlive
  · exact ⟨hbare hn, hm⟩
  · rw [hm]
    decide

/-- Super blocks without inodes do not matter, nor where a super block is mounted. -/
theorem Owned.supers (h : Owned T refs) (hi : T'.inodeTable = T.inodeTable)
    (hl : ∀ j, (T'.superTable j).inodeList = (T.superTable j).inodeList)
    (hs : ∀ j, (T.superTable j).inodeList ≠ [] →
      inodeBlock (T'.superTable j) = inodeBlock (T.superTable j) ∧
        T'.getSuper (T.superTable j).dev = T.getSuper (T.superTable j).dev) : Owned T' refs where
  count z := by rw [hi, h.count z]
  live z := by rw [hi, h.live z]
  bound := h.bound
  bare z hz := by rw [hi]; exact h.bare z hz
  mount z := by rw [hi]; exact h.mount z
  lists := ⟨fun j z hz => by rw [hi]; exact h.lists.listed j z (hl j ▸ hz),
    fun j => by rw [hl]; exact h.lists.nodup j,
    fun j k z hj hk => h.lists.apart j k z (hl j ▸ hj) (hl k ▸ hk)⟩
  placed := h.placed.supers hi hl hs

/-- Something is mounted on a used slot, or no more. -/
theorem Owned.setMount (h : Owned T refs) (hx : x ∈ refs) {m : Int} (hm : m ≠ devEOF) :
    Owned (T.setInode x { T.inodeTable x with mount := m }) refs := by
  have hlists : Listed (T.setInode x { T.inodeTable x with mount := m }) := by
    by_cases hx : ∀ i, x ∉ (T.superTable i).inodeList
    · exact h.lists.outside hx
    · obtain ⟨i, hi⟩ := not_forall.mp hx
      exact h.lists.setInode (.inr (h.lists.listed i x (not_not.mp hi)))
  have hself : (T.setInode x { T.inodeTable x with mount := m }).inodeTable x =
      { T.inodeTable x with mount := m } := by simp [Tables.setInode]
  refine h.change (fun z hz => by simp [Tables.setInode, hz]) (fun _ _ => rfl) ?_ ?_
    (fun _ => h.bound x hx) (fun hn => absurd hx hn) ?_ hlists (h.placed.setRefs _ m)
  · rw [hself]
    exact h.count x
  · rw [hself]
    exact h.live x
  · rw [hself]
    exact hm

end Owned

/-! ## 2. What calls on inodes leave alone -/

/-- **Tasks, files, super blocks but for their lists, and mount fields** are as they were. -/
structure Tables.Around (T T' : Tables) : Prop where
  task : T'.task = T.task
  running : T'.running = T.running
  file : T'.fileTable = T.fileTable
  super : ∀ i, T'.superTable i =
    { T.superTable i with inodeList := (T'.superTable i).inodeList }
  mount : ∀ x, (T'.inodeTable x).mount = (T.inodeTable x).mount

/-- The slots in `refs` are the same but for their counts. -/
def Tables.Core (T T' : Tables) (refs : List Nat) : Prop :=
  ∀ y ∈ refs, ∃ n, T'.inodeTable y = { T.inodeTable y with count := n }

section Around

variable {T T' T'' : Tables} {refs : List Nat} {x i : Nat}

theorem Tables.Around.refl (T : Tables) : T.Around T := ⟨rfl, rfl, rfl, fun _ => rfl, fun _ => rfl⟩

theorem Tables.Around.trans (h : T.Around T') (h' : T'.Around T'') : T.Around T'' :=
  ⟨h'.task.trans h.task, h'.running.trans h.running, h'.file.trans h.file,
    fun i => by rw [h'.super i, h.super i], fun x => (h'.mount x).trans (h.mount x)⟩

theorem Tables.Around.getSuper (h : T.Around T') (dev : Int) : T'.getSuper dev = T.getSuper dev :=
  getSuper_congr (fun i => by rw [h.super i]) dev

theorem Tables.Core.refl (T : Tables) (refs : List Nat) : T.Core T refs := fun _ _ => ⟨_, rfl⟩

theorem Tables.Core.trans (h : T.Core T' refs) (h' : T'.Core T'' refs) : T.Core T'' refs := by
  intro y hy
  obtain ⟨n, hn⟩ := h y hy
  obtain ⟨m, hm⟩ := h' y hy
  exact ⟨m, by rw [hm, hn]⟩

theorem Tables.around_setInode {ino : Inode} (hm : ino.mount = (T.inodeTable x).mount) :
    T.Around (T.setInode x ino) := by
  refine ⟨rfl, rfl, rfl, fun _ => rfl, fun y => ?_⟩
  by_cases e : y = x
  · simp [Tables.setInode, e, hm]
  · simp [Tables.setInode, e]

theorem Tables.around_setList (l : List Nat) :
    T.Around (T.setSuper i { T.superTable i with inodeList := l }) := by
  refine ⟨rfl, rfl, rfl, fun j => ?_, fun _ => rfl⟩
  by_cases e : j = i
  · simp [Tables.setSuper, e]
  · simp [Tables.setSuper, e]

theorem Tables.core_setInode {ino : Inode}
    (hx : x ∉ refs ∨ ∃ n, ino = { T.inodeTable x with count := n }) :
    T.Core (T.setInode x ino) refs := by
  intro y hy
  by_cases e : y = x
  · obtain hx | ⟨n, hn⟩ := hx
    · exact absurd (e ▸ hy) hx
    · exact ⟨n, by simp [Tables.setInode, e, hn]⟩
  · exact ⟨_, by simp [Tables.setInode, e]; rfl⟩

end Around

/-! ## 3. `iput` -/

/-- **What `iput` does to the tables**: the count goes down, and with the last reference the slot is
    free again, out of its list or no pipe any more. -/
inductive PutAway (T : Tables) (x : Nat) : Tables → Prop where
  | kept (hn : (T.inodeTable x).count - 1 ≠ 0) :
      PutAway T x (T.setInode x { T.inodeTable x with count := (T.inodeTable x).count - 1 })
  | freed (hz : (T.inodeTable x).count - 1 = 0) (hp : (T.inodeTable x).pipe = false) (i : Nat)
      (hi : x ∈ (T.superTable i).inodeList) :
      PutAway T x ((T.setInode x { T.inodeTable x with count := 0, dev := devEOF }).setSuper i
        { T.superTable i with inodeList := (T.superTable i).inodeList.erase x })
  | emptied (hz : (T.inodeTable x).count - 1 = 0) (hp : (T.inodeTable x).pipe = true) :
      PutAway T x (T.setInode x { T.inodeTable x with count := 0, dev := devEOF, pipe := false })

theorem iput_putAway {s t : Kernel} {x : Nat} {u : Unit} (h : Ends (iput x) s u t) :
    PutAway s.tab x t.tab := by
  obtain ⟨i, s₁, ⟨rfl, rfl⟩, h⟩ := runs_bind.mp h
  obtain ⟨hp, h⟩ | ⟨hp, h⟩ := runs_ite.mp h
  · obtain ⟨_, s₁, h₁, h⟩ := runs_bind.mp h
    obtain ⟨i, s₂, ⟨rfl, rfl⟩, h⟩ := runs_bind.mp h
    have h₁ := runs_onInode h₁
    have hself : s₁.tab.inodeTable x =
        { s.tab.inodeTable x with count := (s.tab.inodeTable x).count - 1 } := by
      simp [h₁, Tables.setInode]
    obtain ⟨hn, -, rfl⟩ | ⟨hz, h⟩ := runs_ite.mp h
    · simp only [hself] at hn
      rw [h₁]
      exact .kept hn
    · simp only [hself] at hz
      have hz : (s.tab.inodeTable x).count - 1 = 0 := not_not.mp hz
      obtain ⟨_, s₃, h₃, h⟩ := runs_bind.mp h
      obtain ⟨-, rfl⟩ := runs_putFreeInode h
      have := PutAway.emptied hz hp
      rw [runs_onInode h₃, hself, h₁]
      simpa [Tables.setInode, hz] using this
  · obtain ⟨_, s₁, h₁, h⟩ := runs_bind.mp h
    have htab := (bwrite_same _ _ _ _ h₁).tab
    obtain ⟨_, s₂, h₂, h⟩ := runs_bind.mp h
    obtain ⟨i, s₃, ⟨rfl, rfl⟩, h⟩ := runs_bind.mp h
    have h₂ := runs_onInode h₂
    have hself : s₂.tab.inodeTable x =
        { s.tab.inodeTable x with count := (s.tab.inodeTable x).count - 1 } := by
      simp [h₂, Tables.setInode, htab]
    have htab₂ : s₂.tab = s.tab.setInode x
        { s.tab.inodeTable x with count := (s.tab.inodeTable x).count - 1 } := by
      simp [h₂, Tables.setInode, htab]
    obtain ⟨hn, -, rfl⟩ | ⟨hz, h⟩ := runs_ite.mp h
    · simp only [hself] at hn
      rw [htab₂]
      exact .kept hn
    · simp only [hself] at hz
      have hz : (s.tab.inodeTable x).count - 1 = 0 := not_not.mp hz
      obtain ⟨_, s₄, h₄, h⟩ := runs_bind.mp h
      obtain ⟨_, s₅, h₅, h⟩ := runs_bind.mp h
      have htab₄ := (brelse_same _ _ _ _ h₄).tab
      obtain ⟨j, hj, rfl⟩ := runs_listRemoveInode h₅
      obtain ⟨-, rfl⟩ := runs_putFreeInode h
      rw [htab₄, htab₂] at hj
      have := PutAway.freed hz (by simpa using hp) j hj
      simpa [htab₄, htab₂, Tables.setInode, Tables.setSuper, hz] using this

section PutAway

variable {T T' : Tables} {refs : List Nat} {x : Nat}

theorem PutAway.around (h : PutAway T x T') : T.Around T' := by
  cases h with
  | kept => exact Tables.around_setInode rfl
  | freed hz hp i hi =>
    have h₁ : T.Around (T.setInode x { T.inodeTable x with count := 0, dev := devEOF }) :=
      Tables.around_setInode rfl
    exact h₁.trans (Tables.around_setList _)
  | emptied => exact Tables.around_setInode rfl

/-- A reference goes. -/
theorem PutAway.owned (h : PutAway T x T') (ho : Owned T (x :: refs))
    (hm : x ∉ refs → (T.inodeTable x).mount = 0) : Owned T' refs ∧ T.Core T' refs := by
  have hc : (T.inodeTable x).count - 1 = refs.count x := by
    rw [ho.count x, List.count_cons_self]
    rfl
  cases h with
  | kept hn =>
    have hx : x ∈ refs := List.count_pos_iff.mp (by omega)
    exact ⟨ho.drop hx, Tables.core_setInode (.inr ⟨_, rfl⟩)⟩
  | freed hz hp i hi =>
    have hx : x ∉ refs := List.count_eq_zero.mp (hc ▸ hz)
    exact ⟨ho.free hx hi rfl rfl hp (hm hx), Tables.core_setInode (.inl hx)⟩
  | emptied hz hp =>
    have hx : x ∉ refs := List.count_eq_zero.mp (hc ▸ hz)
    have hlist : ∀ i, x ∉ (T.superTable i).inodeList := fun i hi => by
      have := (ho.lists.listed i x hi).2
      rw [hp] at this
      cases this
    refine ⟨ho.outside hlist (fun z hz => by simp [hz.symm]) ?_ ?_ (fun hm => absurd hm hx)
      (fun _ => rfl) (hm hx) (.inl fun hl => hl rfl), Tables.core_setInode (.inl hx)⟩
    · rw [← hc, hz]
    · exact iff_of_false (fun hl => hl rfl) hx

end PutAway

/-! ## 4. `iget` -/

/-- **What `iget` does to the tables**: one reference more to the inode, or to the root of what is
    mounted on it, or a free slot for an inode that was not in memory. -/
inductive Got (T : Tables) (dev : Int) (nr : Nat) : Nat → Tables → Prop where
  | found (i x : Nat) (hi : T.getSuper dev = some i) (hx : x ∈ (T.superTable i).inodeList)
      (hnr : (T.inodeTable x).nr = nr) (hm : (T.inodeTable x).mount = 0) : Got T dev nr x (T.took x)
  | crossed (i x j y : Nat) (hi : T.getSuper dev = some i) (hx : x ∈ (T.superTable i).inodeList)
      (hnr : (T.inodeTable x).nr = nr) (hm : (T.inodeTable x).mount ≠ 0)
      (hj : T.getSuper (T.inodeTable x).mount = some j) (hy : (T.superTable j).iroot = some y) :
      Got T dev nr y (T.took y)
  | fresh (i x : Nat) (hi : T.getSuper dev = some i)
      (hnr : ∀ y ∈ (T.superTable i).inodeList, (T.inodeTable y).nr ≠ nr) (hlt : x < INODE_NR)
      (hfree : (T.inodeTable x).dev = devEOF) :
      Got T dev nr x (T.claimed i x { T.inodeTable x with
        dev := dev, nr := nr, count := (T.inodeTable x).count + 1
        buf := ⟨dev, inodeBlock (T.superTable i) nr⟩, desc := 32 * ((nr - 1) % BLOCK_INODES) })

theorem iget_got {s t : Kernel} {dev : Int} {nr y : Nat}
    (hlive : ∀ i, ∀ x ∈ (s.tab.superTable i).inodeList, (s.tab.inodeTable x).count ≠ 0)
    (h : Ends (iget dev nr) s y t) : Got s.tab dev nr y t.tab ∧ t.view = s.view := by
  obtain ⟨r, s₁, h₁, h⟩ := runs_bind.mp h
  obtain ⟨i, hi, rfl, hr⟩ := runs_findInode h₁
  cases r with
  | some x =>
    obtain ⟨_, s₂, h₂, h⟩ := runs_bind.mp h
    have hx := List.mem_of_find?_eq_some hr.symm
    have hnr : (s.tab.inodeTable x).nr = nr := by simpa using List.find?_some hr.symm
    have h₂ := runs_onInode h₂
    have hT₂ : s₂.tab = s.tab.took x := by rw [h₂]; rfl
    have hv₂ : s₂.view = s.view := by rw [h₂]
    obtain ⟨n, -, hn⟩ := Tables.took_inodeTable (T := s.tab) x x
    rw [← hT₂] at hn
    obtain ⟨ino, s₃, ⟨rfl, rfl⟩, h⟩ := runs_bind.mp h
    obtain ⟨hm, rfl, rfl⟩ | ⟨hm, h⟩ := runs_ite.mp h
    · simp only [hn] at hm
      rw [hT₂]
      exact ⟨.found i x hi hx hnr hm, hv₂⟩
    · obtain ⟨sb, s₃, h₃, h⟩ := runs_bind.mp h
      obtain ⟨⟨j, hj, rfl⟩, rfl⟩ := runs_superOf.mp h₃
      obtain ⟨_, s₃, h₃, h⟩ := runs_bind.mp h
      obtain ⟨y', s₄, h₄, h⟩ := runs_bind.mp h
      rw [runs_need] at h₄
      obtain ⟨hy, rfl⟩ := h₄
      obtain ⟨_, s₄, h₄, rfl, rfl⟩ := runs_bind.mp h
      obtain ⟨hT₃, hv₃⟩ := iput_took hT₂ (hlive i x hx) h₃
      simp only [hn] at hm hj
      rw [hT₂] at hj hy
      rw [runs_onInode h₄]
      refine ⟨?_, hv₃.trans hv₂⟩
      show Got s.tab dev nr y' (s₃.tab.setInode y' _)
      rw [hT₃]
      exact .crossed i x j y' hi hx hnr hm hj hy
  | none =>
    obtain ⟨sb, s₁, h₁, h⟩ := runs_bind.mp h
    obtain ⟨⟨j, hj, rfl⟩, rfl⟩ := runs_superOf.mp h₁
    obtain rfl : i = j := Option.some.inj (hi.symm.trans hj)
    obtain ⟨_, s₁, h₁, h⟩ := runs_bind.mp h
    rw [runs_assert] at h₁
    obtain ⟨-, rfl⟩ := h₁
    obtain ⟨x, s₁, h₁, h⟩ := runs_bind.mp h
    obtain ⟨hlt, hfree, rfl⟩ := runs_getFreeInode h₁
    obtain ⟨_, s₂, h₂, h⟩ := runs_bind.mp h
    obtain ⟨_, s₃, h₃, h⟩ := runs_bind.mp h
    obtain ⟨k, s₄, h₄, h⟩ := runs_bind.mp h
    obtain ⟨_, s₅, h₅, rfl, rfl⟩ := runs_bind.mp h
    have h₂ := runs_onInode h₂
    obtain ⟨j, hj', -, h₃⟩ := runs_listPushInode h₃
    rw [h₂] at hj'
    obtain rfl : i = j := Option.some.inj (hi.symm.trans hj')
    have hs := bread_same _ _ _ _ _ h₄
    have hk := bread_key h₄
    have hnr : ∀ y ∈ (s.tab.superTable i).inodeList, (s.tab.inodeTable y).nr ≠ nr := by
      intro y hy
      simpa using List.find?_eq_none.mp hr.symm y hy
    rw [runs_onInode h₅]
    refine ⟨?_, ?_⟩
    · have := Got.fresh i x hi hnr hlt hfree
      simpa [Tables.claimed, Tables.setInode, Tables.setSuper, hs.tab, h₃, h₂, hk] using this
    · exact hs.views.trans (by rw [h₃, h₂])

/-- **The super blocks hold inodes in use**, and so does what is mounted somewhere; the root of the
    system is mounted on itself. -/
structure Rooted (T : Tables) (refs : List Nat) : Prop where
  roots : ∀ i, (T.superTable i).dev ≠ devEOF → ∀ y,
    (T.superTable i).iroot = some y ∨ (T.superTable i).imount = some y →
      y ∈ refs ∧ (T.inodeTable y).pipe = false
  covered : ∀ x, (T.inodeTable x).mount ≠ 0 → x ∈ refs
  covers : ∀ i, (T.superTable i).dev ≠ devEOF → ∀ m, (T.superTable i).imount = some m →
    (T.inodeTable m).nr = 1 →
      ∃ j, T.getSuper (T.inodeTable m).dev = some j ∧ (T.superTable j).imount = some m

section Got

variable {T T' : Tables} {refs held : List Nat} {dev : Int} {nr y : Nat}

theorem Got.around (h : Got T dev nr y T') : T.Around T' := by
  cases h with
  | found => exact Tables.around_setInode rfl
  | crossed => exact Tables.around_setInode rfl
  | fresh i =>
    have h₁ : T.Around (T.setInode y { T.inodeTable y with
        dev := dev, nr := nr, count := (T.inodeTable y).count + 1
        buf := ⟨dev, inodeBlock (T.superTable i) nr⟩, desc := 32 * ((nr - 1) % BLOCK_INODES) }) :=
      Tables.around_setInode rfl
    exact h₁.trans (Tables.around_setList _)

/-- A reference comes. -/
theorem Got.owned (h : Got T dev nr y T') (ho : Owned T refs)
    (hroots : ∀ i, (T.superTable i).dev ≠ devEOF → ∀ y, (T.superTable i).iroot = some y →
      y ∈ refs ∧ (T.inodeTable y).pipe = false) (hdev : dev ≠ devEOF) :
    Owned T' (y :: refs) ∧ T.Core T' refs ∧ (T'.inodeTable y).pipe = false := by
  cases h with
  | found i _ hi hx =>
    refine ⟨ho.take (ho.listed hx), Tables.core_setInode (.inr ⟨_, rfl⟩), ?_⟩
    simpa [Tables.took, Tables.setInode] using (ho.lists.listed i y hx).2
  | crossed i x j _ hi hx hnr hm hj hy =>
    obtain ⟨hmem, hp⟩ := hroots j (getSuper_dev hj ▸ ho.mount x) y hy
    refine ⟨ho.take hmem, Tables.core_setInode (.inr ⟨_, rfl⟩), ?_⟩
    simpa [Tables.took, Tables.setInode] using hp
  | fresh i _ hi hnr hlt hfree =>
    have hx : y ∉ refs := fun hx => (ho.live y).mpr hx hfree
    obtain ⟨hp, hm⟩ := ho.bare y hx
    refine ⟨ho.claim hx hlt hi hnr rfl rfl hdev ?_ hp hm, fun z hz => ?_, ?_⟩
    · show (T.inodeTable y).count + 1 = 1
      rw [ho.count y, List.count_eq_zero.mpr hx]
    · have e : z ≠ y := fun e => hx (e ▸ hz)
      exact ⟨_, by simp [Tables.claimed, Tables.setSuper, Tables.setInode, e]; rfl⟩
    · simpa [Tables.claimed, Tables.setSuper, Tables.setInode] using hp

end Got

end Yuios
