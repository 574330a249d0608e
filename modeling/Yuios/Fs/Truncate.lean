/-
  File:      Yuios/Fs/Truncate.lean
  Subject:   EVERY BLOCK ONCE: the calls `inode_truncate` makes, and their order.

  * `inodeTruncateLog` -- `inode_truncate` with a log: every look at an entry of a block, every
    `bread`, every `bfree`. Without the log it is `inodeTruncate` (`erase_inodeTruncateLog`).
  * `treeZones` -- the zones of an inode's block tree, an index block behind what it names.
  * `treeLog` -- the log such a tree leads to; where no zone occurs twice, it has no look at an
    index block behind its `bfree` (`treeLog_late`).
  * **`inodeTruncate_frees_iff`** -- the call comes to its end, and does all it should, where
    `bfree` finds the bit of every zone of the tree. On a device of more than `BLOCK_BITS` zones
    there are zones in use whose bit it does not find.
-/
import Mathlib.Data.List.Nodup
import Yuios.Lib.Logged
import Yuios.Fs.Content

namespace Yuios

open Lib Prog Code Logged

/-! ## 1. The calls -/

/-- What is noted: a look at an entry of a block, a block asked for, a block freed. -/
inductive BlockEvent where
  | look (k : Key)
  | bread (k : Key)
  | bfree (k : Key)
  deriving DecidableEq, Repr

/-- The block is read. -/
inductive BlockEvent.Reads (k : Key) : BlockEvent → Prop where
  | look : BlockEvent.Reads k (.look k)
  | bread : BlockEvent.Reads k (.bread k)

/-- The blocks freed, in order. -/
def freedBlocks (l : List BlockEvent) : List Key :=
  l.filterMap fun e => match e with
    | .bfree k => some k
    | .look _ | .bread _ => none

/-- Kernel code that notes what it does with blocks. -/
abbrev LogCode := Logged Stop Kernel (List Frame) BlockEvent

/-- `inode_bfree` with its log. -/
def inodeBfreeLog (dev : Int) : (level : Nat) → (buf : Key) → (slot : Nat) → LogCode Unit
  | level, buf, slot => do
    note (.look buf)
    let b ← liftM (bytesOf buf)
    let zone := fetch b slot 2
    if zone = 0 then
      return ()
    else
      match level with
      | 0 =>
        note (.bfree ⟨dev, zone⟩)
        liftM (bfree dev zone)
      | level + 1 =>
        note (.bread ⟨dev, zone⟩)
        let sub ← liftM (bread dev zone)
        (List.range BLOCK_INDEXES).forM fun i => inodeBfreeLog dev level sub (2 * i)
        liftM (brelse sub)
        note (.look buf)
        let b ← liftM (bytesOf buf)
        note (.bfree ⟨dev, fetch b slot 2⟩)
        liftM (bfree dev (fetch b slot 2))

/-- One entry of `zone[]`, with its log. -/
def truncateZoneLog (x : Nat) (level i : Nat) : LogCode Unit := do
  let ino ← liftM (inodeAt x)
  inodeBfreeLog ino.dev level ino.buf (ino.desc + (Field.zone i).off)
  liftM (descSet x (.zone i) 0)

/-- What `inode_truncate` does behind its loop. -/
def truncateEnd (x : Nat) : Code Unit := do
  descSet x .size 0
  inodeDirty x
  let now ← time
  descSet x .mtime now
  let ino ← inodeAt x
  bwrite ino.buf

/-- `inode_truncate` with its log. -/
def inodeTruncateLog (x : Nat) : LogCode Unit := do
  let mode ← liftM (descGet x .mode)
  if !ISFILE mode && !ISDIR mode then
    return ()
  else
    (List.range DIRECT_BLOCK).forM fun i => truncateZoneLog x 0 i
    truncateZoneLog x 1 DIRECT_BLOCK
    truncateZoneLog x 2 (DIRECT_BLOCK + 1)
    liftM (truncateEnd x)

theorem erase_inodeBfreeLog (dev : Int) (level : Nat) (buf : Key) (slot : Nat) :
    erase (inodeBfreeLog dev level buf slot) = inodeBfree dev level buf slot := by
  induction level generalizing buf slot with
  | zero =>
    rw [inodeBfreeLog, inodeBfree, erase_bind, erase_note, pure_bind, erase_bind, erase_lift]
    congr 1
    funext b
    rw [erase_ite, erase_bind, erase_note, pure_bind, erase_lift]
    rfl
  | succ level ih =>
    rw [inodeBfreeLog, inodeBfree, erase_bind, erase_note, pure_bind, erase_bind, erase_lift]
    congr 1
    funext b
    simp only [erase_ite, erase_bind, erase_note, pure_bind, erase_lift, erase_forM, ih]
    rfl

theorem erase_truncateZoneLog (x level i : Nat) :
    erase (truncateZoneLog x level i) = truncateZone x level i := by
  simp only [truncateZoneLog, truncateZone, erase_bind, erase_lift, erase_inodeBfreeLog]

/-- **The log is beside the program.** -/
theorem erase_inodeTruncateLog (x : Nat) : erase (inodeTruncateLog x) = inodeTruncate x := by
  simp only [inodeTruncateLog, inodeTruncate, erase_bind, erase_lift, erase_ite, erase_forM,
    erase_truncateZoneLog, truncateEnd]
  rfl

namespace Volume

variable {v : Volume} {w w' : View}

/-! ## 2. The tree -/

/-- The zones below a slot: of an index block first what its entries lead to, then itself. -/
def zonesBelow (v : Volume) (w : View) : (level : Nat) → Place → List Nat
  | 0, p => if word w p = 0 then [] else [word w p]
  | level + 1, p =>
    if word w p = 0 then []
    else ((List.range BLOCK_INDEXES).flatMap fun j =>
      zonesBelow v w level (v.indexPlace (word w p) j)) ++ [word w p]

/-- The index blocks among them. -/
def indexBelow (v : Volume) (w : View) : (level : Nat) → Place → List Nat
  | 0, _ => []
  | level + 1, p =>
    if word w p = 0 then []
    else ((List.range BLOCK_INDEXES).flatMap fun j =>
      indexBelow v w level (v.indexPlace (word w p) j)) ++ [word w p]

/-- The log of `inode_bfree` at a slot. -/
def slotLog (v : Volume) (w : View) : (level : Nat) → Place → List BlockEvent
  | 0, p => .look p.1 :: if word w p = 0 then [] else [.bfree ⟨v.dev, word w p⟩]
  | level + 1, p =>
    .look p.1 :: if word w p = 0 then []
    else .bread ⟨v.dev, word w p⟩ :: (((List.range BLOCK_INDEXES).flatMap fun j =>
      slotLog v w level (v.indexPlace (word w p) j)) ++
      [.look p.1, .bfree ⟨v.dev, word w p⟩])

/-- **The zones of inode `nr`'s block tree**: seven direct ones, one single and one double
    indirect tree. -/
def treeZones (v : Volume) (w : View) (nr : Nat) : List Nat :=
  (List.range 9).flatMap fun i => v.zonesBelow w (zoneLevel i) (v.zonePlace nr i)

/-- The index blocks of the tree. -/
def treeIndex (v : Volume) (w : View) (nr : Nat) : List Nat :=
  (List.range 9).flatMap fun i => v.indexBelow w (zoneLevel i) (v.zonePlace nr i)

/-- The log of `inode_truncate`. -/
def treeLog (v : Volume) (w : View) (nr : Nat) : List BlockEvent :=
  (List.range 9).flatMap fun i => v.slotLog w (zoneLevel i) (v.zonePlace nr i)

/-- The list has the zones that hang below the slot in the forest of the volume. -/
theorem mem_zonesBelow {level : Nat} {p : Place} {z : Nat} :
    z ∈ v.zonesBelow w level p ↔ (v.forest w).Under level p z := by
  induction level generalizing p with
  | zero =>
    by_cases h : word w p = 0
    · simp [zonesBelow, h, not_under_of_zero h]
    · simp [zonesBelow, h, under_zero h]
  | succ level ih =>
    by_cases h : word w p = 0
    · simp [zonesBelow, h, not_under_of_zero h]
    · rw [zonesBelow, if_neg h, under_succ h]
      simp only [List.mem_append, List.mem_flatMap, List.mem_singleton, ih]

theorem indexBelow_subset (level : Nat) (p : Place) :
    v.indexBelow w level p ⊆ v.zonesBelow w level p := by
  induction level generalizing p with
  | zero => exact List.nil_subset _
  | succ level ih =>
    rw [indexBelow, zonesBelow]
    split
    · exact List.nil_subset _
    · intro z hz
      rw [List.mem_append, List.mem_flatMap] at hz ⊢
      exact hz.imp_left fun ⟨j, hj, hz⟩ => ⟨j, hj, ih _ hz⟩

/-- The first zone of a slot that is not empty is among those below it. -/
theorem word_mem_zonesBelow {level : Nat} {p : Place} (h : word w p ≠ 0) :
    word w p ∈ v.zonesBelow w level p :=
  mem_zonesBelow.mpr (.here (val_eq.mpr ⟨rfl, h⟩))

/-- What the log says was freed. -/
theorem freed_slotLog (level : Nat) (p : Place) :
    freedBlocks (v.slotLog w level p) = (v.zonesBelow w level p).map (Key.mk v.dev) := by
  induction level generalizing p with
  | zero =>
    by_cases h : word w p = 0 <;> simp [slotLog, zonesBelow, freedBlocks, h]
  | succ level ih =>
    unfold freedBlocks at ih
    by_cases h : word w p = 0
    · simp [slotLog, zonesBelow, freedBlocks, h]
    · simp [slotLog, zonesBelow, freedBlocks, h, List.filterMap_append, List.filterMap_flatMap,
        List.map_flatMap, ih]

theorem freed_treeLog (nr : Nat) :
    freedBlocks (v.treeLog w nr) = (v.treeZones w nr).map (Key.mk v.dev) := by
  unfold treeLog treeZones freedBlocks
  rw [List.filterMap_flatMap, List.map_flatMap]
  exact congrArg (List.flatMap · _) (funext fun i => freed_slotLog _ _)

/-! ### A tree seen in two views -/

/-- The index blocks below the slot show the same in both views. -/
def SameIndex (v : Volume) (w w' : View) (level : Nat) (p : Place) : Prop :=
  word w' p = word w p ∧ ∀ z ∈ v.indexBelow w level p, w' ⟨v.dev, z⟩ = w ⟨v.dev, z⟩

theorem SameIndex.inside {level j : Nat} {p : Place} (h : v.SameIndex w w' (level + 1) p)
    (hne : word w p ≠ 0) (hj : j ∈ List.range BLOCK_INDEXES) :
    v.SameIndex w w' level (v.indexPlace (word w p) j) := by
  have hidx := h.2
  rw [indexBelow, if_neg hne] at hidx
  refine ⟨word_congr (hidx _ (List.mem_append_right _ (List.mem_singleton_self _))),
    fun z hz => hidx z (List.mem_append_left _ (List.mem_flatMap.mpr ⟨j, hj, hz⟩))⟩

theorem SameIndex.eq {level : Nat} {p : Place} (h : v.SameIndex w w' level p) :
    v.zonesBelow w' level p = v.zonesBelow w level p ∧
    v.indexBelow w' level p = v.indexBelow w level p ∧
    v.slotLog w' level p = v.slotLog w level p := by
  induction level generalizing p with
  | zero => simp [zonesBelow, indexBelow, slotLog, h.1]
  | succ level ih =>
    simp only [zonesBelow, indexBelow, slotLog, h.1]
    by_cases hne : word w p = 0
    · simp [hne]
    · simp only [if_neg hne]
      have hin := fun j hj => ih (h.inside hne (j := j) hj)
      refine ⟨?_, ?_, ?_⟩
      · rw [List.flatMap_def, List.flatMap_def, List.map_congr_left fun j hj => (hin j hj).1]
      · rw [List.flatMap_def, List.flatMap_def, List.map_congr_left fun j hj => (hin j hj).2.1]
      · rw [List.flatMap_def, List.flatMap_def, List.map_congr_left fun j hj => (hin j hj).2.2]

/-! ## 3. The order -/

/-- The later of two events does not read what the earlier one has freed, unless it is `own`. -/
def Late (own : Key) (e e' : BlockEvent) : Prop := ∀ k, e = .bfree k → k ≠ own → ¬ e'.Reads k

theorem late_look {own k : Key} (e : BlockEvent) : Late own (.look k) e := fun _ h => nomatch h

theorem late_bread {own k : Key} (e : BlockEvent) : Late own (.bread k) e := fun _ h => nomatch h

theorem mem_freedBlocks {l : List BlockEvent} {k : Key} : k ∈ freedBlocks l ↔ .bfree k ∈ l := by
  unfold freedBlocks
  rw [List.mem_filterMap]
  constructor
  · rintro ⟨e, he, hk⟩
    cases e with
    | bfree k' =>
      cases hk
      exact he
    | look k' => cases hk
    | bread k' => cases hk
  · intro h
    exact ⟨_, h, rfl⟩

theorem freed_of_mem {level : Nat} {p : Place} {k : Key} (h : .bfree k ∈ v.slotLog w level p) :
    ∃ z ∈ v.zonesBelow w level p, k = ⟨v.dev, z⟩ := by
  rw [← mem_freedBlocks, freed_slotLog, List.mem_map] at h
  obtain ⟨z, hz, rfl⟩ := h
  exact ⟨z, hz, rfl⟩

/-- What is read on the way lies at the slot or below it. -/
theorem reads_of_mem {level : Nat} {p : Place} {k : Key} {e : BlockEvent}
    (h : e ∈ v.slotLog w level p) (hr : e.Reads k) :
    k = p.1 ∨ ∃ z ∈ v.zonesBelow w level p, k = ⟨v.dev, z⟩ := by
  induction level generalizing p with
  | zero =>
    rw [slotLog] at h
    rcases List.mem_cons.mp h with rfl | h
    · cases hr
      exact .inl rfl
    · split at h
      · cases h
      · cases List.mem_singleton.mp h
        cases hr
  | succ level ih =>
    rw [slotLog] at h
    rcases List.mem_cons.mp h with rfl | h
    · cases hr
      exact .inl rfl
    · split at h
      · cases h
      · rename_i hne
        have hself : word w p ∈ v.zonesBelow w (level + 1) p := word_mem_zonesBelow hne
        rcases List.mem_cons.mp h with rfl | h
        · cases hr
          exact .inr ⟨_, hself, rfl⟩
        · rcases List.mem_append.mp h with h | h
          · obtain ⟨j, hj, h⟩ := List.mem_flatMap.mp h
            rcases ih h with rfl | ⟨z, hz, rfl⟩
            · exact .inr ⟨_, hself, rfl⟩
            · refine .inr ⟨z, ?_, rfl⟩
              rw [zonesBelow, if_neg hne]
              exact List.mem_append_left _ (List.mem_flatMap.mpr ⟨j, hj, hz⟩)
          · rcases List.mem_cons.mp h with rfl | h
            · cases hr
              exact .inl rfl
            · cases List.mem_singleton.mp h
              cases hr

/-- Slots of one block, one behind the other. -/
theorem late_flatMap {ι : Type} {l : List ι} {level : ι → Nat} {q : ι → Place} {b own : Key}
    (hq : ∀ i ∈ l, (q i).1 = b)
    (hn : (l.flatMap fun i => v.zonesBelow w (level i) (q i)).Nodup)
    (hb : b = own ∨ ∀ i ∈ l, ∀ z ∈ v.zonesBelow w (level i) (q i), b ≠ ⟨v.dev, z⟩)
    (hl : ∀ i ∈ l, (v.slotLog w (level i) (q i)).Pairwise (Late own)) :
    (l.flatMap fun i => v.slotLog w (level i) (q i)).Pairwise (Late own) := by
  refine List.pairwise_flatMap.mpr ⟨hl, ?_⟩
  refine (List.pairwise_flatMap.mp hn).2.imp_of_mem fun {i j} hi hj hne e he e' he' k hk ho hr => ?_
  subst hk
  obtain ⟨z, hz, rfl⟩ := freed_of_mem he
  rcases reads_of_mem he' hr with e | ⟨z', hz', e⟩
  · rw [hq j hj] at e
    rcases hb with rfl | hb
    · exact ho e
    · exact hb i hi z hz e.symm
  · cases e
    exact hne z hz z hz' rfl

/-- **No look behind the `bfree`**, where no zone occurs twice. -/
theorem slotLog_late {level : Nat} {p : Place} {own : Key} (hn : (v.zonesBelow w level p).Nodup)
    (hp : p.1 = own ∨ ∀ z ∈ v.zonesBelow w level p, p.1 ≠ ⟨v.dev, z⟩) :
    (v.slotLog w level p).Pairwise (Late own) := by
  induction level generalizing p with
  | zero =>
    rw [slotLog]
    refine List.pairwise_cons.mpr ⟨fun e _ => late_look e, ?_⟩
    split
    · exact .nil
    · exact List.pairwise_singleton ..
  | succ level ih =>
    rw [slotLog]
    refine List.pairwise_cons.mpr ⟨fun e _ => late_look e, ?_⟩
    split
    · exact .nil
    · rename_i hne
      rw [zonesBelow, if_neg hne] at hn hp
      obtain ⟨hin, -, hlast⟩ := List.nodup_append.mp hn
      have hblock : ∀ j ∈ List.range BLOCK_INDEXES,
          ∀ z ∈ v.zonesBelow w level (v.indexPlace (word w p) j),
          (⟨v.dev, word w p⟩ : Key) ≠ ⟨v.dev, z⟩ := fun j hj z hz e =>
        hlast z (List.mem_flatMap.mpr ⟨j, hj, hz⟩) _ (List.mem_singleton_self _)
          (congrArg Key.block e).symm
      refine List.pairwise_cons.mpr ⟨fun e _ => late_bread e, List.pairwise_append.mpr
        ⟨late_flatMap (fun _ _ => rfl) hin (.inr hblock) fun j hj =>
          ih ((List.pairwise_flatMap.mp hin).1 j hj) (.inr (hblock j hj)), ?_, ?_⟩⟩
      · exact List.pairwise_cons.mpr ⟨fun e _ => late_look e, List.pairwise_singleton ..⟩
      · rintro e he e' he' k rfl ho hr
        obtain ⟨j, hj, he⟩ := List.mem_flatMap.mp he
        obtain ⟨z, hz, rfl⟩ := freed_of_mem he
        rcases List.mem_cons.mp he' with rfl | he'
        · have e : p.1 = ⟨v.dev, z⟩ := by
            generalize (⟨v.dev, z⟩ : Key) = k at hr
            cases hr
            rfl
          rcases hp with hp | hp
          · exact ho (e.symm.trans hp)
          · exact hp z (List.mem_append_left _ (List.mem_flatMap.mpr ⟨j, hj, hz⟩)) e
        · cases List.mem_singleton.mp he'
          cases hr

/-- An entry of an index block of the tree leads to zones before the slot's own. -/
theorem entry_before {level : Nat} {p : Place} {z j : Nat} (hz : z ∈ v.indexBelow w (level + 1) p)
    (hj : j < BLOCK_INDEXES) (hne : word w (v.indexPlace z j) ≠ 0) :
    word w (v.indexPlace z j) ∈ (List.range BLOCK_INDEXES).flatMap fun j =>
      v.zonesBelow w level (v.indexPlace (word w p) j) := by
  induction level generalizing p with
  | zero =>
    rw [indexBelow] at hz
    split at hz
    · cases hz
    · rcases List.mem_append.mp hz with hz | hz
      · obtain ⟨_, _, hz⟩ := List.mem_flatMap.mp hz
        cases hz
      · cases List.mem_singleton.mp hz
        exact List.mem_flatMap.mpr ⟨j, List.mem_range.mpr hj, word_mem_zonesBelow hne⟩
  | succ level ih =>
    rw [indexBelow] at hz
    split at hz
    · cases hz
    · rcases List.mem_append.mp hz with hz | hz
      · obtain ⟨i, hi, hz⟩ := List.mem_flatMap.mp hz
        refine List.mem_flatMap.mpr ⟨i, hi, ?_⟩
        have hin := ih hz
        rw [zonesBelow]
        split
        · rename_i h0
          rw [indexBelow, if_pos h0] at hz
          cases hz
        · exact List.mem_append_left _ hin
      · cases List.mem_singleton.mp hz
        exact List.mem_flatMap.mpr ⟨j, List.mem_range.mpr hj, word_mem_zonesBelow hne⟩

/-- The block of the inode is no index block of its own tree. -/
theorem inodeKey_ne_index {nr i z : Nat} (hi : i < 9)
    (hn : (v.zonesBelow w (zoneLevel i) (v.zonePlace nr i)).Nodup)
    (hz : z ∈ v.indexBelow w (zoneLevel i) (v.zonePlace nr i)) :
    (⟨v.dev, z⟩ : Key) ≠ v.inodeKey nr := by
  intro e
  cases hl : zoneLevel i with
  | zero =>
    rw [hl] at hz
    cases hz
  | succ level =>
    rw [hl] at hn hz
    have hroot : word w (v.zonePlace nr i) ≠ 0 := fun h => by
      rw [indexBelow, if_pos h] at hz
      cases hz
    -- the entry of `zone[]` is an entry of that index block
    obtain ⟨j, hj, hq⟩ : ∃ j < BLOCK_INDEXES, v.indexPlace z j = v.zonePlace nr i := by
      refine ⟨(descOff nr + 14 + 2 * i) / 2, ?_, ?_⟩
      · unfold descOff BLOCK_INDEXES BLOCK_INODES
        omega
      · unfold indexPlace zonePlace Field.zone
        rw [e]
        refine congrArg (Prod.mk _) ?_
        unfold descOff
        dsimp only
        omega
    have hbefore := entry_before hz hj (hq ▸ hroot)
    rw [zonesBelow, if_neg hroot, hq.symm] at hn
    exact (List.nodup_append.mp hn).2.2 _ (by rwa [hq] at hbefore ⊢) _
      (List.mem_singleton_self _) rfl

/-- **The log of a tree in which no zone occurs twice.** -/
theorem treeLog_late {nr : Nat} (hn : (v.treeZones w nr).Nodup) :
    (v.treeLog w nr).Pairwise (Late (v.inodeKey nr)) :=
  late_flatMap (b := v.inodeKey nr) (fun _ _ => rfl) hn (.inl rfl) fun i hi =>
    slotLog_late ((List.pairwise_flatMap.mp hn).1 i hi) (.inl rfl)

/-! ## 4. `bfree` -/

/-- **`bfree` takes the zone back**: it is one of the device's, its bit is in the block of the
    bitmap that `bfree` picks, and the bit is set. -/
structure Freeable (v : Volume) (w : View) (z : Nat) : Prop where
  first : v.firstdatazone ≤ z + 1
  lt : z < v.zones
  block : (z - 1) / BLOCK_BITS = v.zoneBit z / BLOCK_BITS
  set : v.zoneSet w z = true

/-- What the calls of one volume rest on. -/
structure Serving (v : Volume) (s : Kernel) : Prop where
  mounted : v.Mounted s.tab
  found : ∃ i, s.tab.getSuper v.dev = some i
  maps : v.zmapBlocks ≤ ZMAP_NR
  inodes : 0 < v.inodes
  balanced : s.Balanced

section Calls

variable {s t : Kernel} {z : Nat}

theorem Serving.next (h : v.Serving s) (ht : t.tab = s.tab) (hc : SameCounts s t) :
    v.Serving t where
  mounted := ht ▸ h.mounted
  found := ht ▸ h.found
  maps := h.maps
  inodes := h.inodes
  balanced k := by
    rw [hc k]
    exact h.balanced k

theorem bfree_counts (dev : Int) (z : Nat) : Obeys SameCounts (bfree dev z) := by
  have hloop : ∀ sb : SuperBlock,
      Obeys SameCounts (freeLoop sb.zmap BLOCK_SIZE sb.zmapOffset z ZMAP_NR 0) := by
    intro sb s k t h
    obtain ⟨_, _, -, -, -, -, rfl⟩ := freeLoop_spec h
    exact fun k' => count_setDirty.trans (Kernel.count_poke ..)
  refine obeys_bind (obeys_bind (obeys_reads _) fun _ => obeys_bind (obeys_need _ _) fun _ =>
    obeys_pure _) fun sb => obeys_bind (obeys_check _ _) fun _ => obeys_bind (hloop sb) fun k => ?_
  exact obeys_mapLabel (bwrite_counts k)

theorem bfree_goes (hs : v.Serving s) (hz : v.Freeable s.view z) :
    ∃ t, Ends (bfree v.dev z) s () t ∧ v.Frees s t (· = z) ∧ SameCounts s t := by
  obtain ⟨i, hi⟩ := hs.found
  have hd := hs.mounted i hi
  have hbit : (s.tab.superTable i).zoneBit z = v.zoneBit z := by
    rw [SuperBlock.zoneBit, hd.firstdatazone, zoneBit]
  have hroom := v.room
  have hg : (s.tab.superTable i).Geometry := by
    refine ⟨?_, ?_, ?_⟩
    · rw [hd.zones]
      exact v.small
    · rw [hd.zmapBlocks]
      exact hs.maps
    · rw [hd.firstdatazone]
      omega
  have hzone : (s.tab.superTable i).Zone z := by
    refine ⟨hd.firstdatazone ▸ hz.first, hd.zones ▸ hz.lt, ?_⟩
    rw [hbit, hd.zmapBlocks]
    refine Nat.div_lt_of_lt_mul ?_
    have := v.zmap
    have := hz.lt
    have := hz.first
    rw [Nat.mul_comm]
    unfold zoneBit
    omega
  have hset : (s.tab.superTable i).zoneSet s.view z = true := by
    rw [SuperBlock.zoneSet, hbit, SuperBlock.zmapBase, hd.dev, hd.imapBlocks]
    exact hz.set
  have h := bfree_run hi hg hzone hset
  rw [hbit, if_pos hz.block] at h
  obtain ⟨t, ht, -⟩ := h
  have hends := ends_iff.mpr ht
  exact ⟨t, hends, bfree_frees hs.mounted hends, bfree_counts _ _ _ _ _ hends⟩

/-- A call that comes to its end has found the bit. -/
theorem freeable_of_bfree (hm : v.Mounted s.tab) {C : List Frame → Kernel → Prop} {u : Unit}
    (h : Runs C (bfree v.dev z) s u t) : v.Freeable s.view z := by
  obtain ⟨-, hlow, hlt, -⟩ := bfree_view hm h
  obtain ⟨sb, s₁, h₁, h⟩ := runs_bind.mp h
  obtain ⟨hd, rfl⟩ := runs_superOf_mounted hm h₁
  obtain ⟨_, s₂, h₂, h⟩ := runs_bind.mp h
  rw [runs_assert] at h₂
  obtain ⟨-, rfl⟩ := h₂
  obtain ⟨k, s₃, h₃, -⟩ := runs_bind.mp h
  have hrun := ends_iff.mp h₃.ends
  have hle : z ≤ BLOCK_BITS * ((z - 1) / BLOCK_BITS + 1) := by
    unfold BLOCK_BITS BLOCK_SIZE
    omega
  obtain ⟨m, hm⟩ : ∃ m, ZMAP_NR - (z - 1) / BLOCK_BITS = m + 1 := by
    refine Nat.exists_eq_succ_of_ne_zero ?_
    have := v.small
    unfold BLOCK_BITS BLOCK_SIZE ZMAP_NR
    omega
  rw [freeLoop_pick rfl (by omega), hm, freeLoop_here hle] at hrun
  cases hk : sb.zmap ((z - 1) / BLOCK_BITS) with
  | none =>
    rw [hk] at hrun
    cases hrun
  | some k' =>
    rw [hk] at hrun
    dsimp only at hrun
    split at hrun
    · cases hrun
    rename_i hoff
    split at hrun
    · cases hrun
    rename_i hin
    split at hrun
    · rename_i hbit
      have hp : z - sb.zmapOffset ((z - 1) / BLOCK_BITS) < BLOCK_BITS := by
        unfold BLOCK_BITS BLOCK_SIZE at *
        omega
      obtain ⟨-, -, hset⟩ := hd.putBit (s := s) (b := false) hk
        (show z = _ + sb.zmapOffset ((z - 1) / BLOCK_BITS) by omega) hp
      refine ⟨hlow, hlt, ?_, hset ▸ hbit⟩
      rw [SuperBlock.zmapOffset, hd.firstdatazone] at hoff hp
      have hpos := firstdatazone_pos v
      unfold zoneBit
      generalize (z - 1) / BLOCK_BITS = j at *
      unfold BLOCK_BITS BLOCK_SIZE at *
      omega
    · cases hrun

/-- Zones that have not been freed can still be. -/
theorem Frees.freeable {Z : Nat → Prop} (h : v.Frees s t Z) :
    v.Freeable t.view z ↔ v.Freeable s.view z ∧ ¬ Z z := by
  constructor
  · intro hz
    obtain ⟨hset, hn⟩ := (h.bit z hz.first hz.lt).mp hz.set
    exact ⟨⟨hz.first, hz.lt, hz.block, hset⟩, hn⟩
  · rintro ⟨hz, hn⟩
    exact ⟨hz.first, hz.lt, hz.block, (h.bit z hz.first hz.lt).mpr ⟨hz.set, hn⟩⟩

/-- The block of such a zone lies behind the bitmaps. -/
theorem Freeable.behind (hs : v.Serving s) (h : v.Freeable w z) :
    2 + v.imapBlocks + v.zmapBlocks ≤ z := by
  have := v.room
  have := h.first
  have := hs.inodes
  omega

/-! ## 5. The call comes to its end -/

/-- A loop whose rounds each free the zones of one entry, with its log. -/
theorem loop_goes (I : Kernel → Prop) (hI : ∀ s t Z, I s → v.Frees s t Z → SameCounts s t → I t)
    {f : Nat → LogCode Unit} (log : Nat → List BlockEvent) (zs : Nat → List Nat) (l : List Nat)
    (hf : ∀ i ∈ l, ∀ s, I s → (∀ z ∈ zs i, v.Freeable s.view z) →
      ∃ t, Yields (f i) s () (log i) t ∧ v.Frees s t (· ∈ zs i) ∧ SameCounts s t)
    (hs : I s) (hn : (l.flatMap zs).Nodup) (hz : ∀ z ∈ l.flatMap zs, v.Freeable s.view z) :
    ∃ t, Yields (l.forM f) s ⟨⟩ (l.flatMap log) t ∧ v.Frees s t (· ∈ l.flatMap zs) ∧
      SameCounts s t := by
  induction l generalizing s with
  | nil => exact ⟨s, ⟨rfl, rfl⟩, (frees_of_same (.refl s)).congr fun z => by simp, Steady.refl s⟩
  | cons i l ih =>
    rw [List.flatMap_cons] at hn hz
    obtain ⟨-, hnl, hne⟩ := List.nodup_append.mp hn
    obtain ⟨t₁, h₁, hf₁, hc₁⟩ := hf i (List.mem_cons_self ..) s hs fun z h =>
      hz z (List.mem_append_left _ h)
    obtain ⟨t₂, h₂, hf₂, hc₂⟩ := ih (fun j hj => hf j (List.mem_cons_of_mem i hj))
      (hI _ _ _ hs hf₁ hc₁) hnl fun z h => hf₁.freeable.mpr
        ⟨hz z (List.mem_append_right _ h), fun hi => hne z hi z h rfl⟩
    refine ⟨t₂, ?_, (hf₁.trans hf₂).congr fun z => ?_, Steady.trans hc₁ hc₂⟩
    · exact logs_bind.mpr ⟨(), _, t₁, _, h₁, h₂, List.flatMap_cons ..⟩
    · rw [List.flatMap_cons, List.mem_append]

set_option linter.constructorNameAsVariable false in
/-- **`inode_bfree`** frees every zone below the slot, in the order of the log. -/
theorem inodeBfree_goes {level : Nat} {p : Place} (hs : v.Serving s) (hr : v.Reads w s)
    (hp : 2 + v.imapBlocks + v.zmapBlocks ≤ p.1.block) (hn : (v.zonesBelow w level p).Nodup)
    (hz : ∀ z ∈ v.zonesBelow w level p, v.Freeable s.view z) :
    ∃ t, Yields (inodeBfreeLog v.dev level p.1 p.2) s () (v.slotLog w level p) t ∧
      v.Frees s t (· ∈ v.zonesBelow w level p) ∧ SameCounts s t := by
  have hword : ∀ u, v.Reads w u → fetch (u.view p.1) p.2 2 = word w p := fun u hu => by
    rw [hu.other _ hp]
    rfl
  have hw := hword s hr
  induction level generalizing p s with
  | zero =>
    by_cases h0 : word w p = 0
    · rw [zonesBelow, if_pos h0, slotLog, if_pos h0]
      refine ⟨s, ?_, (frees_of_same (.refl s)).congr fun z => by simp, Steady.refl s⟩
      refine logs_bind.mpr ⟨(), [.look p.1], s, [], logs_note.mpr ⟨rfl, rfl⟩, ?_, rfl⟩
      refine logs_bind.mpr ⟨_, [], s, [], logs_lift.mpr ⟨rfl, rfl, rfl⟩, ?_, rfl⟩
      exact logs_ite.mpr (.inl ⟨hw.trans h0, logs_pure.mpr ⟨rfl, rfl, rfl⟩⟩)
    · rw [zonesBelow, if_neg h0] at hz
      obtain ⟨t, ht, hft, hct⟩ := bfree_goes hs (hz _ (List.mem_singleton_self _))
      refine ⟨t, ?_, hft.congr fun z => ?_, hct⟩
      · rw [slotLog, if_neg h0]
        refine logs_bind.mpr ⟨(), [.look p.1], s, _, logs_note.mpr ⟨rfl, rfl⟩, ?_, rfl⟩
        refine logs_bind.mpr ⟨_, [], s, _, logs_lift.mpr ⟨rfl, rfl, rfl⟩, ?_, rfl⟩
        dsimp only
        rw [hw]
        refine logs_ite.mpr (.inr ⟨h0, ?_⟩)
        exact logs_bind.mpr ⟨(), _, s, [], logs_note.mpr ⟨rfl, rfl⟩, logs_lift.mpr ⟨rfl, ht⟩, rfl⟩
      · rw [zonesBelow, if_neg h0, List.mem_singleton]
  | succ level ih =>
    by_cases h0 : word w p = 0
    · rw [zonesBelow, if_pos h0, slotLog, if_pos h0]
      refine ⟨s, ?_, (frees_of_same (.refl s)).congr fun z => by simp, Steady.refl s⟩
      refine logs_bind.mpr ⟨(), [.look p.1], s, [], logs_note.mpr ⟨rfl, rfl⟩, ?_, rfl⟩
      refine logs_bind.mpr ⟨_, [], s, [], logs_lift.mpr ⟨rfl, rfl, rfl⟩, ?_, rfl⟩
      exact logs_ite.mpr (.inl ⟨hw.trans h0, logs_pure.mpr ⟨rfl, rfl, rfl⟩⟩)
    · rw [zonesBelow, if_neg h0] at hn hz
      obtain ⟨hin, -, hlast⟩ := List.nodup_append.mp hn
      have hzone := hz _ (List.mem_append_right _ (List.mem_singleton_self _))
      obtain ⟨s₁, h₁, hheld⟩ := bread_goes s v.dev (word w p)
      have hf₁ := frees_of_same (v := v) hheld.toSame
      have hbal₁ : s₁.Balanced := fun k => by
        have := hs.balanced k
        rw [hheld.count k]
        split <;> omega
      have hs₁ : v.Serving s₁ := ⟨hf₁.tab ▸ hs.mounted, hf₁.tab ▸ hs.found, hs.3, hs.4, hbal₁⟩
      -- the entries of the index block, which stays as it is
      obtain ⟨s₂, h₂, hf₂, hc₂⟩ := loop_goes (v := v) (fun u => v.Serving u ∧ v.Reads w u)
        (fun _ _ _ h hf hc => ⟨h.1.next hf.tab hc, h.2.next hf⟩)
        (f := fun j => inodeBfreeLog v.dev level ⟨v.dev, word w p⟩ (2 * j))
        (fun j => v.slotLog w level (v.indexPlace (word w p) j))
        (fun j => v.zonesBelow w level (v.indexPlace (word w p) j))
        (List.range BLOCK_INDEXES)
        (fun j hj u hu hzu => ih (p := v.indexPlace (word w p) j) hu.1 hu.2 (hzone.behind hs)
          ((List.pairwise_flatMap.mp hin).1 j hj) hzu
          (fun u' hu' => by rw [hu'.other _ (hzone.behind hs)]; rfl)
          (by rw [hu.2.other _ (hzone.behind hs)]; rfl))
        ⟨hs₁, hr.next hf₁⟩ hin fun z h => hf₁.freeable.mpr ⟨hz z (List.mem_append_left _ h), id⟩
      have hpos : 0 < (s₂.cache.buf ⟨v.dev, word w p⟩).count := by
        have := hs.balanced ⟨v.dev, word w p⟩
        rw [hc₂ _, hheld.count, if_pos rfl]
        omega
      obtain ⟨s₃, h₃, hsame₃, hc₃⟩ := brelse_ends hpos
      have hf₃ := frees_of_same (v := v) hsame₃
      have hc : SameCounts s s₃ := fun k => by
        rw [hc₃ k, hc₂ k, hheld.count k]
        split <;> omega
      have hf := (hf₁.trans hf₂).trans hf₃
      have hs₃ := hs.next hf.tab hc
      have hword₃ := hword s₃ (hr.next hf)
      obtain ⟨t, ht, hft, hct⟩ := bfree_goes hs₃ (hf.freeable.mpr ⟨hzone, fun h =>
        h.elim (fun h => h.elim id fun h => hlast _ h _ (List.mem_singleton_self _) rfl) id⟩)
      refine ⟨t, ?_, (hf.trans hft).congr fun z => ?_, Steady.trans hc hct⟩
      · rw [slotLog, if_neg h0]
        generalize (List.range BLOCK_INDEXES).flatMap
          (fun j => v.slotLog w level (v.indexPlace (word w p) j)) = m at h₂ ⊢
        rw [inodeBfreeLog]
        -- the list of the loop is kept folded
        generalize List.range BLOCK_INDEXES = js at h₂ ⊢
        refine logs_bind.mpr ⟨(), [.look p.1], s, _, logs_note.mpr ⟨rfl, rfl⟩, ?_, rfl⟩
        refine logs_bind.mpr ⟨_, [], s, _, logs_lift.mpr ⟨rfl, rfl, rfl⟩, ?_, rfl⟩
        dsimp only
        rw [hw]
        refine logs_ite.mpr (.inr ⟨h0, ?_⟩)
        refine logs_bind.mpr ⟨(), [.bread ⟨v.dev, word w p⟩], s, _, logs_note.mpr ⟨rfl, rfl⟩, ?_, rfl⟩
        refine logs_bind.mpr ⟨_, [], s₁, _, logs_lift.mpr ⟨rfl, h₁⟩, ?_, rfl⟩
        refine logs_bind.mpr ⟨⟨⟩, m, s₂, _, h₂, ?_, rfl⟩
        refine logs_bind.mpr ⟨(), [], s₃, _, logs_lift.mpr ⟨rfl, h₃⟩, ?_, rfl⟩
        refine logs_bind.mpr ⟨(), [.look p.1], s₃, _, logs_note.mpr ⟨rfl, rfl⟩, ?_, rfl⟩
        refine logs_bind.mpr ⟨_, [], s₃, _, logs_lift.mpr ⟨rfl, rfl, rfl⟩, ?_, rfl⟩
        dsimp only
        rw [hword₃]
        exact logs_bind.mpr ⟨(), _, s₃, [], logs_note.mpr ⟨rfl, rfl⟩, logs_lift.mpr ⟨rfl, ht⟩, rfl⟩
      · rw [zonesBelow, if_neg h0, List.mem_append, List.mem_singleton]
        simp

/-- What truncating the entries `I` of `zone[]`, with the zones `Z` below them, leaves. -/
structure Trimmed (v : Volume) (nr : Nat) (I Z : List Nat) (s t : Kernel) : Prop where
  tab : t.tab = s.tab
  counts : SameCounts s t
  other : ∀ k : Key, 2 + v.imapBlocks + v.zmapBlocks ≤ k.block → k ≠ v.inodeKey nr →
    t.view k = s.view k
  own : ∀ o, o < descOff nr + 14 ∨ descOff nr + 32 ≤ o →
    t.view (v.inodeKey nr) o = s.view (v.inodeKey nr) o
  zero : ∀ i ∈ I, word t.view (v.zonePlace nr i) = 0
  rest : ∀ i, i ∉ I → word t.view (v.zonePlace nr i) = word s.view (v.zonePlace nr i)
  free : ∀ z, v.Freeable t.view z ↔ v.Freeable s.view z ∧ z ∉ Z

theorem Trimmed.trans {I J Z Z' : List Nat} {nr : Nat} {u : Kernel} (h : v.Trimmed nr I Z s t)
    (h' : v.Trimmed nr J Z' t u) : v.Trimmed nr (I ++ J) (Z ++ Z') s u where
  tab := h'.tab.trans h.tab
  counts := Steady.trans h.counts h'.counts
  other k hk hne := (h'.other k hk hne).trans (h.other k hk hne)
  own o ho := (h'.own o ho).trans (h.own o ho)
  zero i hi := by
    by_cases hj : i ∈ J
    · exact h'.zero i hj
    · exact (h'.rest i hj).trans (h.zero i ((List.mem_append.mp hi).resolve_right hj))
  rest i hi := by
    rw [List.mem_append, not_or] at hi
    exact (h'.rest i hi.2).trans (h.rest i hi.1)
  free z := by
    rw [h'.free, h.free, and_assoc, List.mem_append, not_or]

/-- Writes to the inode's own block clear no bit. -/
theorem freeable_poke {nr : Nat} (hpos : 0 < nr) (hlt : nr < v.inodes) {f : Bytes → Bytes} :
    v.Freeable (s.poke (v.inodeKey nr) f).view z ↔ v.Freeable s.view z := by
  have hset : v.firstdatazone ≤ z + 1 → z < v.zones →
      v.zoneSet (s.poke (v.inodeKey nr) f).view z = v.zoneSet s.view z := fun h1 h2 =>
    zoneSet_congr h2 h1 fun k _ hk => Kernel.view_poke_of_ne _ _ fun e => by
      have := (inodeKey_block hpos hlt).1
      rw [e] at hk
      omega
  constructor
  · intro h
    exact ⟨h.first, h.lt, h.block, (hset h.first h.lt).symm.trans h.set⟩
  · intro h
    exact ⟨h.first, h.lt, h.block, (hset h.first h.lt).trans h.set⟩

theorem truncateZone_goes {x nr i : Nat} (hs : v.Serving s) (hx : v.Loaded s.tab x nr)
    (hpos : 0 < nr) (hlt : nr < v.inodes) (hi : i < 9)
    (hn : (v.zonesBelow s.view (zoneLevel i) (v.zonePlace nr i)).Nodup)
    (hz : ∀ z ∈ v.zonesBelow s.view (zoneLevel i) (v.zonePlace nr i), v.Freeable s.view z) :
    ∃ t, Yields (truncateZoneLog x (zoneLevel i) i) s ()
        (v.slotLog s.view (zoneLevel i) (v.zonePlace nr i)) t ∧
      v.Trimmed nr [i] (v.zonesBelow s.view (zoneLevel i) (v.zonePlace nr i)) s t := by
  have hblock := (inodeKey_block hpos hlt).1
  obtain ⟨s₁, h₁, hf, hc⟩ := inodeBfree_goes (p := v.zonePlace nr i) hs
    ⟨hs.mounted, fun _ _ => rfl⟩ hblock hn hz
  obtain ⟨t, ht⟩ : ∃ t, t = s₁.poke (v.inodeKey nr) fun b =>
    store b (descOff nr + (Field.zone i).off) (Field.zone i).width 0 := ⟨_, rfl⟩
  have hset : Ends (descSet x (.zone i) 0) s₁ () t := by
    refine runs_descSet.mpr ?_
    rw [hf.tab, hx.buf, hx.desc, ht]
  have hown : t.view (v.inodeKey nr) =
      store (s.view (v.inodeKey nr)) (descOff nr + (14 + 2 * i)) 2 0 := by
    rw [ht, Kernel.view_poke_self, hf.other _ (.inr hblock)]
    rfl
  refine ⟨t, ?_, ?_⟩
  · refine logs_bind.mpr ⟨_, [], s, _, logs_lift.mpr ⟨rfl, rfl, rfl⟩, ?_, rfl⟩
    rw [hx.dev, hx.buf, hx.desc]
    exact logs_bind.mpr ⟨(), _, s₁, [], h₁, logs_lift.mpr ⟨rfl, hset⟩, (List.append_nil _).symm⟩
  · refine ⟨?_, ?_, fun k hk hne => ?_, fun o ho => ?_, fun j hj => ?_, fun j hj => ?_, fun z => ?_⟩
    · rw [ht]
      exact hf.tab
    · rw [ht]
      exact fun k => (Kernel.count_poke ..).trans (hc k)
    · rw [ht, Kernel.view_poke_of_ne _ _ hne]
      exact hf.other k (.inr hk)
    · rw [hown]
      exact store_of_ne (by omega)
    · cases List.mem_singleton.mp hj
      unfold word zonePlace Field.zone
      dsimp only
      rw [hown]
      exact fetch_store_of_lt (by decide)
    · have hne : j ≠ i := fun e => hj (List.mem_singleton.mpr e)
      unfold word zonePlace Field.zone
      dsimp only
      rw [hown]
      exact fetch_store_ne (by omega)
    · rw [ht, freeable_poke hpos hlt]
      exact hf.freeable

/-- **The entries of `zone[]`**, one after the other. -/
theorem zones_go {x nr : Nat} (l : List Nat) (hl : ∀ i ∈ l, i < 9) (hnl : l.Nodup)
    (hs : v.Serving s) (hx : v.Loaded s.tab x nr) (hpos : 0 < nr) (hlt : nr < v.inodes)
    (hn : (l.flatMap fun i => v.zonesBelow s.view (zoneLevel i) (v.zonePlace nr i)).Nodup)
    (hz : ∀ z ∈ l.flatMap fun i => v.zonesBelow s.view (zoneLevel i) (v.zonePlace nr i),
      v.Freeable s.view z) :
    ∃ t, Yields (l.forM fun i => truncateZoneLog x (zoneLevel i) i) s ⟨⟩
        (l.flatMap fun i => v.slotLog s.view (zoneLevel i) (v.zonePlace nr i)) t ∧
      v.Trimmed nr l (l.flatMap fun i => v.zonesBelow s.view (zoneLevel i) (v.zonePlace nr i))
        s t := by
  induction l generalizing s with
  | nil =>
    refine ⟨s, ⟨rfl, rfl⟩, rfl, Steady.refl s, fun _ _ _ => rfl, fun _ _ => rfl, fun _ h => ?_,
      fun _ _ => rfl, fun z => ?_⟩
    · cases h
    · simp
  | cons i l ih =>
    rw [List.flatMap_cons] at hn hz
    obtain ⟨hni, hnr, hne⟩ := List.nodup_append.mp hn
    obtain ⟨s₁, h₁, ht₁⟩ := truncateZone_goes hs hx hpos hlt (hl i (List.mem_cons_self ..)) hni
      fun z h => hz z (List.mem_append_left _ h)
    -- the other trees are where they were
    have hsame : ∀ j ∈ l, v.SameIndex s.view s₁.view (zoneLevel j) (v.zonePlace nr j) := by
      intro j hj
      have hji : j ∉ [i] := fun h =>
        (List.nodup_cons.mp hnl).1 (List.mem_singleton.mp h ▸ hj)
      refine ⟨ht₁.rest j hji, fun z hzj => ht₁.other _ ?_ ?_⟩
      · exact (hz z (List.mem_append_right _
          (List.mem_flatMap.mpr ⟨j, hj, indexBelow_subset _ _ hzj⟩))).behind hs
      · exact inodeKey_ne_index (hl j (List.mem_cons_of_mem i hj))
          ((List.pairwise_flatMap.mp hnr).1 j hj) hzj
    have hzs : (l.flatMap fun j => v.zonesBelow s₁.view (zoneLevel j) (v.zonePlace nr j)) =
        l.flatMap fun j => v.zonesBelow s.view (zoneLevel j) (v.zonePlace nr j) := by
      rw [List.flatMap_def, List.flatMap_def, List.map_congr_left fun j hj => (hsame j hj).eq.1]
    have hlog : (l.flatMap fun j => v.slotLog s₁.view (zoneLevel j) (v.zonePlace nr j)) =
        l.flatMap fun j => v.slotLog s.view (zoneLevel j) (v.zonePlace nr j) := by
      rw [List.flatMap_def, List.flatMap_def, List.map_congr_left fun j hj => (hsame j hj).eq.2.2]
    obtain ⟨t, h₂, ht₂⟩ := ih (fun j hj => hl j (List.mem_cons_of_mem i hj))
      (List.nodup_cons.mp hnl).2 (hs.next ht₁.tab ht₁.counts) (ht₁.tab ▸ hx) (hzs ▸ hnr)
      fun z h => by
        rw [hzs] at h
        exact (ht₁.free z).mpr ⟨hz z (List.mem_append_right _ h), fun hi => hne z hi z h rfl⟩
    rw [hlog] at h₂
    rw [hzs] at ht₂
    refine ⟨t, logs_bind.mpr ⟨(), _, s₁, _, h₁, h₂, List.flatMap_cons ..⟩, ?_⟩
    rw [List.flatMap_cons]
    exact ht₁.trans ht₂

/-- An inode without blocks and of size 0; the rest of the descriptor is as it was. -/
structure Emptied (v : Volume) (nr : Nat) (s t : Kernel) : Prop where
  tab : t.tab = s.tab
  counts : SameCounts s t
  size : v.desc t.view nr .size = 0
  zero : ∀ i < 9, word t.view (v.zonePlace nr i) = 0
  mode : v.desc t.view nr .mode = v.desc s.view nr .mode
  free : ∀ z, v.Freeable t.view z → v.Freeable s.view z

/-- What `inode_truncate` writes at its end. -/
theorem truncateEnd_goes {x nr : Nat} (hx : v.Loaded s.tab x nr) (hpos : 0 < nr)
    (hlt : nr < v.inodes) :
    ∃ t now, Ends (truncateEnd x) s () t ∧ t.tab = s.tab ∧ SameCounts s t ∧
      t.view (v.inodeKey nr) =
        store (store (s.view (v.inodeKey nr)) (descOff nr + 4) 4 0) (descOff nr + 8) 4 now ∧
      ∀ z, v.Freeable t.view z ↔ v.Freeable s.view z := by
  obtain ⟨s₁, hs₁⟩ : ∃ s₁, s₁ = s.poke (v.inodeKey nr) fun b => store b (descOff nr + 4) 4 0 :=
    ⟨_, rfl⟩
  obtain ⟨s₂, hs₂⟩ : ∃ s₂, s₂ = { s₁.mark (v.inodeKey nr) with tick := s₁.tick + 1 } := ⟨_, rfl⟩
  obtain ⟨s₃, hs₃⟩ : ∃ s₃, s₃ = s₂.poke (v.inodeKey nr) fun b =>
    store b (descOff nr + 8) 4 (s₁.clock s₁.tick) := ⟨_, rfl⟩
  obtain ⟨t, ht, hsame⟩ := bwrite_run s₃ (v.inodeKey nr)
  have htab₁ : s₁.tab = s.tab := by rw [hs₁]; rfl
  have htab₂ : s₂.tab = s.tab := by rw [hs₂]; exact htab₁
  have htab₃ : s₃.tab = s.tab := by rw [hs₃]; exact htab₂
  have hview₂ : s₂.view = s₁.view := by
    rw [hs₂]
    exact (mark_same s₁ _).view
  have hview : t.view = s₃.view := hsame.view
  refine ⟨t, s₁.clock s₁.tick, ?_, hsame.tab.trans htab₃, ?_, ?_, fun z => ?_⟩
  · have hset : ∀ {u u' : Kernel} {f : Field} {n : Nat}, u.tab = s.tab →
        u' = u.poke (v.inodeKey nr) (fun b => store b (descOff nr + f.off) f.width n) →
        Ends (descSet x f n) u () u' := by
      rintro u _ f n hu rfl
      refine runs_descSet.mpr ?_
      rw [hu, hx.buf, hx.desc]
    have hbuf : (s.tab.inodeTable x).buf = v.inodeKey nr := hx.buf
    refine runs_bind.mpr ⟨(), s₁, hset rfl hs₁, ?_⟩
    refine runs_bind.mpr ⟨(), s₁.mark (v.inodeKey nr), ?_, ?_⟩
    · refine runs_bind.mpr ⟨_, s₁, ⟨rfl, rfl⟩, runs_setDirty.mpr ?_⟩
      dsimp only
      rw [htab₁, hbuf]
    · refine runs_bind.mpr ⟨s₁.clock s₁.tick, s₂, ?_, ?_⟩
      · rw [runs_time, hs₂]
        exact ⟨rfl, rfl⟩
      · refine runs_bind.mpr ⟨(), s₃, hset htab₂ hs₃, runs_bind.mpr ⟨_, s₃, ⟨rfl, rfl⟩, ?_⟩⟩
        dsimp only
        rw [htab₃, hbuf]
        exact ends_iff.mpr ht
  · have hc : SameCounts s s₂ := fun k => by
      rw [hs₂]
      exact count_setDirty.trans (by rw [hs₁]; exact Kernel.count_poke ..)
    refine Steady.trans hc (Steady.trans (fun k => ?_) (bwrite_counts _ _ _ _ (ends_iff.mpr ht)))
    rw [hs₃]
    exact Kernel.count_poke ..
  · rw [hview, hs₃, Kernel.view_poke_self, hview₂, hs₁, Kernel.view_poke_self]
  · rw [hview, hs₃, freeable_poke hpos hlt, hview₂, hs₁, freeable_poke hpos hlt]

/-- **The block tree of an inode in memory**: a file or a directory, in whose tree no zone occurs
    twice. -/
structure TreeOf (v : Volume) (x nr : Nat) (s : Kernel) : Prop extends Serving v s where
  loaded : v.Loaded s.tab x nr
  pos : 0 < nr
  lt : nr < v.inodes
  mode : (ISFILE (v.desc s.view nr .mode) || ISDIR (v.desc s.view nr .mode)) = true
  distinct : (v.treeZones s.view nr).Nodup

/-- **`inode_truncate`** where `bfree` takes back every zone of the tree. -/
theorem inodeTruncate_goes {x nr : Nat} (h : v.TreeOf x nr s)
    (hz : ∀ z ∈ v.treeZones s.view nr, v.Freeable s.view z) :
    ∃ t, Yields (inodeTruncateLog x) s () (v.treeLog s.view nr) t ∧ v.Emptied nr s t := by
  obtain ⟨s₁, h₁, ht₁⟩ := zones_go (List.range 9) (fun i hi => List.mem_range.mp hi)
    List.nodup_range h.toServing h.loaded h.pos h.lt h.distinct hz
  obtain ⟨t, now, h₂, htab, hcounts, hown, hfree⟩ :=
    truncateEnd_goes (ht₁.tab ▸ h.loaded) h.pos h.lt
  refine ⟨t, ?_, htab.trans ht₁.tab, Steady.trans ht₁.counts hcounts, ?_, fun i hi => ?_, ?_,
    fun z hz => ((ht₁.free z).mp ((hfree z).mp hz)).1⟩
  · -- the entries as the source goes through them
    have h₁ : Yields ((List.range 9).forM fun i => truncateZoneLog x (zoneLevel i) i) s ⟨⟩
      (v.treeLog s.view nr) s₁ := h₁
    rw [show List.range 9 = List.range 7 ++ ([7] ++ [8]) by decide] at h₁
    obtain ⟨m₁, s₂, m₂, hd, hr, e⟩ := logs_forM_append.mp h₁
    obtain ⟨m₃, s₃, m₄, hi, hj, e'⟩ := logs_forM_append.mp hr
    rw [e'] at e
    refine logs_bind.mpr ⟨_, [], s, _, logs_lift.mpr ⟨rfl, runs_descGet.mpr ⟨rfl, rfl⟩⟩, ?_, rfl⟩
    refine logs_ite.mpr (.inr ⟨?_, ?_⟩)
    · rw [h.loaded.desc_eq]
      have hmode := h.mode
      revert hmode
      cases ISFILE (v.desc s.view nr .mode) <;> cases ISDIR (v.desc s.view nr .mode) <;> simp
    · refine logs_bind.mpr ⟨⟨⟩, m₁, s₂, m₃ ++ m₄, ?_, ?_, e⟩
      · exact hd
      · refine logs_bind.mpr ⟨(), m₃, s₃, m₄, logs_forM_one.mp hi, ?_, rfl⟩
        exact logs_bind.mpr ⟨(), m₄, s₁, [], logs_forM_one.mp hj, logs_lift.mpr ⟨rfl, h₂⟩,
          (List.append_nil _).symm⟩
  · unfold desc
    rw [hown]
    exact (fetch_store_ne (.inl (Nat.le_refl _))).trans (fetch_store_of_lt (by decide))
  · unfold word zonePlace Field.zone
    dsimp only
    rw [hown, fetch_store_ne (by omega), fetch_store_ne (by omega)]
    exact ht₁.zero i (List.mem_range.mpr hi)
  · unfold desc Field.mode
    dsimp only
    rw [hown, fetch_store_ne (by omega), fetch_store_ne (by omega)]
    exact fetch_congr fun o _ ho => ht₁.own o (.inl (by omega))

/-! ## 6. What a call that ends has freed -/

/-- Bits of the zone bitmap have only been cleared, and the blocks noted as freed had theirs. -/
structure Cleared (v : Volume) (s : Kernel) (l : List BlockEvent) (t : Kernel) : Prop where
  tab : t.tab = s.tab
  free : ∀ z, v.Freeable t.view z → v.Freeable s.view z
  log : ∀ k ∈ freedBlocks l, v.Freeable s.view k.block

theorem cleared_of_same (h : Same s t) : v.Cleared s [] t := by
  have hview : t.view = s.view := h.view
  exact ⟨h.tab, fun z hz => hview ▸ hz, fun k hk => absurd hk List.not_mem_nil⟩

theorem cleared_note {e : BlockEvent} (h : freedBlocks [e] = []) : v.Cleared s [e] s :=
  ⟨rfl, fun _ hz => hz, fun _ hk => absurd (h ▸ hk) List.not_mem_nil⟩

theorem Cleared.trans {u : Kernel} {l l' : List BlockEvent} (h : v.Cleared s l t)
    (h' : v.Cleared t l' u) : v.Cleared s (l ++ l') u where
  tab := h'.tab.trans h.tab
  free z hz := h.free z (h'.free z hz)
  log k hk := by
    rw [freedBlocks, List.filterMap_append, List.mem_append] at hk
    exact hk.elim (h.log k) fun hk => h.free _ (h'.log k hk)

variable {C : List Frame → Kernel → Prop}

/-- `bfree`, noted. -/
theorem cleared_bfree (hm : v.Mounted s.tab) {l : List BlockEvent} {u : Unit}
    (h : Logs C (do
      note (.bfree ⟨v.dev, z⟩)
      liftM (bfree v.dev z) : LogCode Unit) s u l t) : v.Cleared s l t := by
  obtain ⟨_, l₁, s₁, l₂, h₁, h₂, rfl⟩ := logs_bind.mp h
  obtain ⟨rfl, rfl⟩ := logs_note.mp h₁
  obtain ⟨rfl, hr⟩ := logs_lift.mp h₂
  have hf := bfree_frees hm hr
  refine ⟨hf.tab, fun y hy => (hf.freeable.mp hy).1, fun k hk => ?_⟩
  cases List.mem_singleton.mp hk
  exact freeable_of_bfree hm hr

theorem cleared_forM {f : Nat → LogCode Unit} {T : Tables} (l : List Nat)
    (hf : ∀ i s u m t, s.tab = T → Logs C (f i) s u m t → v.Cleared s m t)
    (hm : s.tab = T) {r : PUnit} {m : List BlockEvent} (h : Logs C (l.forM f) s r m t) :
    v.Cleared s m t := by
  induction l generalizing s m with
  | nil =>
    obtain ⟨-, rfl, rfl⟩ := logs_pure.mp h
    exact cleared_of_same (.refl s)
  | cons i l ih =>
    obtain ⟨_, m₁, s₁, m₂, h₁, h₂, rfl⟩ :=
      logs_bind.mp (show Logs C (f i >>= fun _ => l.forM f) s r m t from h)
    have hi := hf i _ _ _ _ hm h₁
    exact hi.trans (ih (hi.tab.trans hm) h₂)

set_option linter.constructorNameAsVariable false in
theorem inodeBfree_cleared {level slot : Nat} {buf : Key} {u : Unit} {m : List BlockEvent}
    (hm : v.Mounted s.tab) (h : Logs C (inodeBfreeLog v.dev level buf slot) s u m t) :
    v.Cleared s m t := by
  induction level generalizing buf slot s u m t with
  | zero =>
    obtain ⟨_, m₁, s₁, m₂, h₁, h, rfl⟩ := logs_bind.mp h
    obtain ⟨rfl, rfl⟩ := logs_note.mp h₁
    obtain ⟨b, m₃, s₂, m₄, h₂, h, rfl⟩ := logs_bind.mp h
    obtain ⟨rfl, -, rfl⟩ := logs_lift.mp h₂
    refine (cleared_note rfl).trans ?_
    rw [List.nil_append]
    rcases logs_ite.mp h with ⟨-, h⟩ | ⟨-, h⟩
    · obtain ⟨-, rfl, rfl⟩ := logs_pure.mp h
      exact cleared_of_same (.refl s)
    · exact cleared_bfree hm h
  | succ level ih =>
    obtain ⟨_, m₁, s₁, m₂, h₁, h, rfl⟩ := logs_bind.mp h
    obtain ⟨rfl, rfl⟩ := logs_note.mp h₁
    obtain ⟨b, m₃, s₂, m₄, h₂, h, rfl⟩ := logs_bind.mp h
    obtain ⟨rfl, -, rfl⟩ := logs_lift.mp h₂
    refine (cleared_note rfl).trans ?_
    rw [List.nil_append]
    rcases logs_ite.mp h with ⟨-, h⟩ | ⟨-, h⟩
    · obtain ⟨-, rfl, rfl⟩ := logs_pure.mp h
      exact cleared_of_same (.refl s)
    · obtain ⟨_, m₅, s₃, m₆, h₃, r₁, rfl⟩ := logs_bind.mp h
      obtain ⟨rfl, rfl⟩ := logs_note.mp h₃
      refine (cleared_note rfl).trans ?_
      obtain ⟨sub, m₇, s₄, m₈, h₄, r₂, rfl⟩ := logs_bind.mp r₁
      obtain ⟨rfl, hread⟩ := logs_lift.mp h₄
      have hc₄ := cleared_of_same (v := v) (bread_same _ _ _ _ _ hread.ends)
      refine hc₄.trans ?_
      generalize List.range BLOCK_INDEXES = js at r₂
      obtain ⟨_, m₉, s₅, m₁₀, h₅, r₃, rfl⟩ := logs_bind.mp r₂
      have hc₅ := cleared_forM _ (fun i s u m t ht h => ih (ht ▸ hm) h) hc₄.tab h₅
      refine hc₅.trans ?_
      obtain ⟨_, m₁₁, s₆, m₁₂, h₆, r₄, rfl⟩ := logs_bind.mp r₃
      obtain ⟨rfl, hrel⟩ := logs_lift.mp h₆
      have hc₆ := cleared_of_same (v := v) (brelse_same _ _ _ _ hrel.ends)
      refine hc₆.trans ?_
      obtain ⟨_, m₁₃, s₇, m₁₄, h₇, r₅, rfl⟩ := logs_bind.mp r₄
      obtain ⟨rfl, rfl⟩ := logs_note.mp h₇
      refine (cleared_note rfl).trans ?_
      obtain ⟨b', m₁₅, s₈, m₁₆, h₈, r₆, rfl⟩ := logs_bind.mp r₅
      obtain ⟨rfl, -, rfl⟩ := logs_lift.mp h₈
      rw [List.nil_append]
      exact cleared_bfree (((hc₄.trans hc₅).trans hc₆).tab ▸ hm) r₆

theorem truncateZone_cleared {x nr level i : Nat} {u : Unit} {m : List BlockEvent}
    (hm : v.Mounted s.tab) (hx : v.Loaded s.tab x nr) (hpos : 0 < nr) (hlt : nr < v.inodes)
    (h : Logs C (truncateZoneLog x level i) s u m t) : v.Cleared s m t := by
  obtain ⟨ino, m₁, s₁, m₂, h₁, h, rfl⟩ := logs_bind.mp h
  obtain ⟨rfl, rfl, rfl⟩ := logs_lift.mp h₁
  obtain ⟨_, m₃, s₂, m₄, h₂, h₃, rfl⟩ := logs_bind.mp h
  obtain ⟨rfl, hset⟩ := logs_lift.mp h₃
  dsimp only at h₂
  rw [hx.dev] at h₂
  have hc := inodeBfree_cleared hm h₂
  rw [List.nil_append, List.append_nil]
  rw [runs_descSet, hc.tab, hx.buf] at hset
  subst hset
  exact ⟨hc.tab, fun z hz => hc.free z ((freeable_poke hpos hlt).mp hz), hc.log⟩

/-- **A call that ends** has only freed zones that `bfree` could take back at its start. -/
theorem inodeTruncate_cleared {x nr : Nat} {u : Unit} {m : List BlockEvent} (h : v.TreeOf x nr s)
    (hr : Logs C (inodeTruncateLog x) s u m t) : ∀ k ∈ freedBlocks m, v.Freeable s.view k.block := by
  obtain ⟨mode, m₁, s₁, m₂, h₁, hr, rfl⟩ := logs_bind.mp hr
  obtain ⟨rfl, hget⟩ := logs_lift.mp h₁
  obtain ⟨-, rfl⟩ := runs_descGet.mp hget
  rw [List.nil_append]
  rcases logs_ite.mp hr with ⟨-, hr⟩ | ⟨-, hr⟩
  · obtain ⟨-, rfl, -⟩ := logs_pure.mp hr
    exact fun k hk => absurd hk List.not_mem_nil
  · have hzone : ∀ {level i : Nat} {s₁ : Kernel} {u : Unit} {m : List BlockEvent} {t : Kernel},
        s₁.tab = s.tab → Logs C (truncateZoneLog x level i) s₁ u m t → v.Cleared s₁ m t :=
      fun ht hr => truncateZone_cleared (ht ▸ h.mounted) (ht ▸ h.loaded) h.pos h.lt hr
    generalize List.range DIRECT_BLOCK = is at hr
    obtain ⟨_, m₃, s₂, m₄, h₂, r₁, rfl⟩ := logs_bind.mp hr
    have hc₂ := cleared_forM _ (fun i s₁ u m t ht hr => hzone ht hr) rfl h₂
    obtain ⟨_, m₅, s₃, m₆, h₃, r₂, rfl⟩ := logs_bind.mp r₁
    have hc₃ := hzone hc₂.tab h₃
    obtain ⟨_, m₇, s₄, m₈, h₄, r₃, rfl⟩ := logs_bind.mp r₂
    have hc₄ := hzone (hc₃.tab.trans hc₂.tab) h₄
    obtain ⟨rfl, hend⟩ := logs_lift.mp r₃
    have hc := (hc₂.trans (hc₃.trans hc₄))
    rw [List.append_nil]
    exact hc.log

end Calls

end Volume

/-- **What `inode_truncate` should do** with the block tree of an inode: free every zone of it
    once and nothing else, read no index block that has been freed, and leave an inode of size 0
    without a zone, for which the next call frees nothing. -/
structure Truncated (v : Volume) (x nr : Nat) (s : Kernel) (log : List BlockEvent) (t : Kernel) :
    Prop where
  once : (freedBlocks log).Nodup
  freed : ∀ k, k ∈ freedBlocks log ↔ ∃ z ∈ v.treeZones s.view nr, k = ⟨v.dev, z⟩
  order : ∀ z ∈ v.treeIndex s.view nr, ∀ l l', log = l ++ .bfree ⟨v.dev, z⟩ :: l' →
    ∀ e ∈ l', ¬ e.Reads ⟨v.dev, z⟩
  size : v.desc t.view nr .size = 0
  zero : ∀ i < 9, Volume.word t.view (v.zonePlace nr i) = 0
  again : ∃ log' u, Yields (inodeTruncateLog x) t () log' u ∧ freedBlocks log' = []

theorem Volume.Emptied.treeZones {v : Volume} {nr : Nat} {s t : Kernel} (h : v.Emptied nr s t) :
    v.treeZones t.view nr = [] := by
  refine List.flatMap_eq_nil_iff.mpr fun i hi => ?_
  have hz := h.zero i (List.mem_range.mp hi)
  cases zoneLevel i <;> rw [Volume.zonesBelow, if_pos hz]

theorem truncated_of_emptied {v : Volume} {x nr : Nat} {s t : Kernel} (h : v.TreeOf x nr s)
    (he : v.Emptied nr s t) : Truncated v x nr s (v.treeLog s.view nr) t := by
  have hkey : ∀ z z', (⟨v.dev, z⟩ : Key) = ⟨v.dev, z'⟩ → z = z' := fun _ _ e =>
    congrArg Key.block e
  refine ⟨?_, fun k => ?_, fun z hz l l' e e' he' => ?_, he.size, he.zero, ?_⟩
  · rw [Volume.freed_treeLog]
    exact List.Nodup.map hkey h.distinct
  · rw [Volume.freed_treeLog, List.mem_map]
    simp only [eq_comm]
  · have hlate := Volume.treeLog_late h.distinct
    rw [e] at hlate
    obtain ⟨i, hi, hzi⟩ := List.mem_flatMap.mp hz
    exact (List.pairwise_cons.mp (List.pairwise_append.mp hlate).2.1).1 e' he' _ rfl
      (Volume.inodeKey_ne_index (List.mem_range.mp hi) ((List.pairwise_flatMap.mp h.distinct).1 i hi) hzi)
  · have hnone := he.treeZones
    have ht : v.TreeOf x nr t :=
      { h.toServing.next he.tab he.counts with
        loaded := he.tab ▸ h.loaded
        pos := h.pos
        lt := h.lt
        mode := he.mode ▸ h.mode
        distinct := by
          rw [hnone]
          exact .nil }
    obtain ⟨u, hu, -⟩ := Volume.inodeTruncate_goes ht fun z hz => by
      rw [hnone] at hz
      cases hz
    exact ⟨_, u, hu, by rw [Volume.freed_treeLog, hnone, List.map_nil]⟩

/-- **`inode_truncate` frees every zone of a tree once**, and comes to its end, exactly where
    `bfree` finds the bit of each of them. -/
theorem inodeTruncate_frees_iff {v : Volume} {x nr : Nat} {s : Kernel} (h : v.TreeOf x nr s) :
    (∃ log t, Yields (inodeTruncateLog x) s () log t ∧ Truncated v x nr s log t) ↔
      ∀ z ∈ v.treeZones s.view nr, v.Freeable s.view z := by
  constructor
  · rintro ⟨log, t, hr, ht⟩ z hz
    exact Volume.inodeTruncate_cleared h hr ⟨v.dev, z⟩ ((ht.freed _).mpr ⟨z, hz, rfl⟩)
  · intro hz
    obtain ⟨t, hr, he⟩ := Volume.inodeTruncate_goes h hz
    exact ⟨_, t, hr, truncated_of_emptied h he⟩

namespace Sample

/-- The file of inode 2 has zone 6, and index block 7 with zone 8. -/
def diskTree (k : Key) : Bytes :=
  if k = ⟨dev, 3⟩ then store (fun _ => 0) 0 1 31
  else if k = ⟨dev, 4⟩ then
    store (descriptor 32 (IFREG + 0o644) 8192 1 6 (diskFile (fun _ _ => 0) k)) (32 + 28) 2 7
  else if k = ⟨dev, 7⟩ then store (fun _ => 0) 0 2 8
  else diskFile (fun _ _ => 0) k

def kernelTree : Kernel :=
  { kernelFile (fun _ _ => 0) with
    cache := { disk := diskTree, buf := (kernelFile fun _ _ => 0).cache.buf } }

theorem kernelTree_zones : volume.treeZones kernelTree.view 2 = [6, 8, 7] := by decide +kernel

theorem kernelTree_tree : volume.TreeOf 1 2 kernelTree where
  mounted := mounted fun _ _ => 0
  found := ⟨0, rfl⟩
  maps := by decide
  inodes := by decide
  balanced k := by
    show (0 : Int) ≤ if k = ⟨dev, 4⟩ then 2 else 0
    split <;> decide
  loaded := ⟨rfl, rfl, rfl⟩
  pos := by decide
  lt := by decide
  mode := by decide
  distinct := by
    rw [kernelTree_zones]
    decide

end Sample

theorem inodeTruncate_frees_tree :
    ∃ log t, Yields (inodeTruncateLog 1) Sample.kernelTree () log t ∧
      Truncated Sample.volume 1 2 Sample.kernelTree log t :=
  (inodeTruncate_frees_iff Sample.kernelTree_tree).mpr fun z hz => by
    rw [Sample.kernelTree_zones] at hz
    have hall : ∀ z ∈ [6, 8, 7], Sample.volume.firstdatazone ≤ z + 1 ∧ z < Sample.volume.zones ∧
        (z - 1) / BLOCK_BITS = Sample.volume.zoneBit z / BLOCK_BITS ∧
        Sample.volume.zoneSet Sample.kernelTree.view z = true := by decide
    obtain ⟨h1, h2, h3, h4⟩ := hall z hz
    exact ⟨h1, h2, h3, h4⟩

/-! ### A file with a zone behind the first block of the bitmap -/

namespace Sample

/-- The layout of `largeBlock`. -/
def largeVolume : Volume where
  dev := dev
  inodes := 3040
  zones := 9000
  imapBlocks := 1
  zmapBlocks := 2
  firstdatazone := 100
  imap := by decide
  zmap := by decide
  room := by decide
  data := by decide
  small := by decide

/-- The file of inode 2 has zone 8193, which is marked in the bitmap. -/
def diskLarge (k : Key) : Bytes :=
  if k = ⟨dev, 3⟩ then fun _ => 255
  else if k = ⟨dev, 5⟩ then descriptor 32 (IFREG + 0o644) 1024 1 8193 fun _ => 0
  else fun _ => 0

def kernelLarge : Kernel :=
  { large with
    cache := { disk := diskLarge, buf := fresh.cache.buf }
    tab := { large.tab with
      inodeTable := fun x => if x = 1 then ⟨dev, 2, ⟨dev, 5⟩, 32, 1, 0, false⟩ else inodeTable x } }

theorem kernelLarge_zones : largeVolume.treeZones kernelLarge.view 2 = [8193] := by decide

theorem kernelLarge_tree : largeVolume.TreeOf 1 2 kernelLarge where
  mounted i hi := by
    cases (show kernelLarge.tab.getSuper largeVolume.dev = some 0 from rfl).symm.trans hi
    exact ⟨rfl, rfl, rfl, rfl, rfl, rfl⟩
  found := ⟨0, rfl⟩
  maps := by decide
  inodes := by decide
  balanced k := by
    show (0 : Int) ≤ if k = ⟨dev, 4⟩ then 1 else 0
    split <;> decide
  loaded := ⟨rfl, rfl, rfl⟩
  pos := by decide
  lt := by decide
  mode := by decide
  distinct := by
    rw [kernelLarge_zones]
    decide

end Sample

/-- `bfree` looks for zone 8193 in the second block of the bitmap, and its bit is in the first. -/
theorem inodeTruncate_not_always : ¬ ∀ (v : Volume) (x nr : Nat) (s : Kernel), v.TreeOf x nr s →
    (∀ z ∈ v.treeZones s.view nr, v.Used s.view z) →
    ∃ log t, Yields (inodeTruncateLog x) s () log t ∧ Truncated v x nr s log t := by
  intro h
  obtain ⟨log, t, hr, ht⟩ := h _ _ _ _ Sample.kernelLarge_tree fun z hz => by
    rw [Sample.kernelLarge_zones] at hz
    cases List.mem_singleton.mp hz
    exact ⟨by decide, by decide, by decide⟩
  have hfreed := (ht.freed ⟨Sample.dev, 8193⟩).mpr ⟨8193, by
    rw [Sample.kernelLarge_zones]
    exact List.mem_singleton_self _, rfl⟩
  have hblock := (Volume.inodeTruncate_cleared Sample.kernelLarge_tree hr _ hfreed).block
  exact absurd hblock (by decide)

end Yuios
