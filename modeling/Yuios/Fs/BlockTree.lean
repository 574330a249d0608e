/-
  File:      Yuios/Fs/BlockTree.lean
  Subject:   BLOCK INDEXES AND SLOTS: `bmap` of `fs/bmap.c` names every data slot once.

  A slot of the tree is named by the zone index it hangs under and by the positions in the index
  blocks below.

  * `TreeSlot`, `DataSlot` -- the slots of the tree, and those in which the data blocks stand.
  * `path` -- the positions that the loop of `bmap` takes for a block index.
  * `Inode.slot`, `Inode.value` -- where a slot lies, and its number.
  * `Inode.Zones` -- no zone stands in two slots, and none is the block of the descriptor.
  * `bmap_walk` -- `bmap` visits the slots on the path.
  * **`bmap_bijection`** -- block indexes and data slots correspond one to one, and `bmap` without
    `create` answers the number in the slot.
-/
import Mathlib.Data.List.Basic
import Mathlib.Data.List.Induction
import Yuios.Fs.FullName

namespace Yuios

open Lib Code

namespace BlockTree

/-! ## 1. The slots of the tree -/

/-- A zone index and the positions in the index blocks below it. -/
abbrev Slot := Nat × List Nat

/-- A slot of the tree: the positions go no deeper than the index blocks under the zone index. -/
structure TreeSlot (p : Slot) : Prop where
  zone : p.1 < 9
  depth : p.2.length ≤ Volume.zoneLevel p.1
  inside : ∀ j ∈ p.2, j < BLOCK_INDEXES

/-- A slot in which the number of a data block stands: a position for every level. -/
structure DataSlot (p : Slot) : Prop where
  zone : p.1 < 9
  depth : p.2.length = Volume.zoneLevel p.1
  inside : ∀ j ∈ p.2, j < BLOCK_INDEXES

/-- The positions that the loop of `bmap` takes from level `level` on. -/
def restPath : (level block divider : Nat) → List Nat
  | 0, _, _ => []
  | level + 1, block, divider =>
    block / divider :: restPath level (block % divider) (divider / BLOCK_INDEXES)

/-- The path of `bmap` to block `block`. -/
def path (block : Nat) : Slot :=
  if block < DIRECT_BLOCK then
    (block, restPath 0 block 1)
  else if block - DIRECT_BLOCK < INDIRECT1_BLOCK then
    (DIRECT_BLOCK, restPath 1 (block - DIRECT_BLOCK) 1)
  else
    (DIRECT_BLOCK + 1, restPath 2 (block - DIRECT_BLOCK - INDIRECT1_BLOCK) BLOCK_INDEXES)

/-- The block index that ends in a data slot. -/
def blockOf : Slot → Nat
  | (i, []) => i
  | (_, [j]) => DIRECT_BLOCK + j
  | (_, j :: k :: _) => DIRECT_BLOCK + INDIRECT1_BLOCK + j * BLOCK_INDEXES + k

theorem DataSlot.tree {p : Slot} (h : DataSlot p) : TreeSlot p := ⟨h.zone, h.depth.le, h.inside⟩

/-- The three shapes of a data slot. -/
theorem DataSlot.cases {p : Slot} (h : DataSlot p) : (∃ i < DIRECT_BLOCK, p = (i, [])) ∨
    (∃ j < BLOCK_INDEXES, p = (DIRECT_BLOCK, [j])) ∨
      ∃ j < BLOCK_INDEXES, ∃ k < BLOCK_INDEXES, p = (DIRECT_BLOCK + 1, [j, k]) := by
  obtain ⟨i, rest⟩ := p
  have hzone : i < 9 := h.zone
  have hdepth : rest.length = Volume.zoneLevel i := h.depth
  have hin : ∀ j ∈ rest, j < BLOCK_INDEXES := h.inside
  by_cases hi : i < DIRECT_BLOCK
  · rw [Volume.zoneLevel, if_pos hi] at hdepth
    exact .inl ⟨i, hi, by rw [List.length_eq_zero_iff.mp hdepth]⟩
  · have hlast : i = DIRECT_BLOCK ∨ i = DIRECT_BLOCK + 1 := by
      unfold DIRECT_BLOCK at *
      omega
    rcases hlast with rfl | rfl
    · obtain ⟨j, rfl⟩ := List.length_eq_one_iff.mp hdepth
      exact .inr (.inl ⟨j, hin j (by simp), rfl⟩)
    · obtain ⟨j, k, rfl⟩ := List.length_eq_two.mp hdepth
      exact .inr (.inr ⟨j, hin j (by simp), k, hin k (by simp), rfl⟩)

/-- The three shapes of a path. -/
theorem path_direct {b : Nat} (h : b < DIRECT_BLOCK) : path b = (b, []) := by
  rw [path, if_pos h, restPath]

theorem path_single {j : Nat} (h : j < BLOCK_INDEXES) : path (DIRECT_BLOCK + j) = (DIRECT_BLOCK, [j]) := by
  have hsub : DIRECT_BLOCK + j - DIRECT_BLOCK = j := by omega
  rw [path, if_neg (by omega), hsub, if_pos (show j < INDIRECT1_BLOCK from h)]
  simp [restPath]

theorem path_double {j k : Nat} (h : k < BLOCK_INDEXES) :
    path (DIRECT_BLOCK + INDIRECT1_BLOCK + j * BLOCK_INDEXES + k) = (DIRECT_BLOCK + 1, [j, k]) := by
  have hsub : DIRECT_BLOCK + INDIRECT1_BLOCK + j * BLOCK_INDEXES + k - DIRECT_BLOCK - INDIRECT1_BLOCK =
      k + BLOCK_INDEXES * j := by
    rw [Nat.mul_comm j]
    omega
  have hdiv : (k + BLOCK_INDEXES * j) / BLOCK_INDEXES = j := by
    rw [Nat.add_mul_div_left _ _ (by decide), Nat.div_eq_of_lt h, Nat.zero_add]
  have hmod : (k + BLOCK_INDEXES * j) % BLOCK_INDEXES = k := by
    rw [Nat.add_mul_mod_self_left, Nat.mod_eq_of_lt h]
  rw [path, if_neg (by omega), if_neg (by omega), hsub]
  have hone : BLOCK_INDEXES / BLOCK_INDEXES = 1 := by decide
  simp [restPath, hdiv, hmod, hone]

/-- Every block index is of one of the three kinds. -/
theorem block_cases {b : Nat} (h : b < TOTAL_BLOCK) : b < DIRECT_BLOCK ∨
    (∃ j < BLOCK_INDEXES, b = DIRECT_BLOCK + j) ∨
      ∃ j < BLOCK_INDEXES, ∃ k < BLOCK_INDEXES, b = DIRECT_BLOCK + INDIRECT1_BLOCK + j * BLOCK_INDEXES + k := by
  simp only [TOTAL_BLOCK, DIRECT_BLOCK, INDIRECT1_BLOCK, INDIRECT2_BLOCK, BLOCK_INDEXES] at *
  by_cases h₁ : b < 7
  · exact .inl h₁
  · by_cases h₂ : b < 519
    · exact .inr (.inl ⟨b - 7, by omega, by omega⟩)
    · exact .inr (.inr ⟨(b - 519) / 512, by omega, (b - 519) % 512, by omega, by omega⟩)

/-- **The path ends in a data slot**: a zone index 0..8, and a position 0..511 a level below. -/
theorem path_data {b : Nat} (h : b < TOTAL_BLOCK) : DataSlot (path b) := by
  rcases block_cases h with hb | ⟨j, hj, rfl⟩ | ⟨j, hj, k, hk, rfl⟩
  · rw [path_direct hb]
    exact ⟨Nat.lt_trans hb (by decide), (if_pos hb).symm, by simp⟩
  · rw [path_single hj]
    exact ⟨show DIRECT_BLOCK < 9 by decide, rfl, by simpa using hj⟩
  · rw [path_double hk]
    exact ⟨show DIRECT_BLOCK + 1 < 9 by decide, rfl, by simp [hj, hk]⟩

theorem blockOf_path {b : Nat} (h : b < TOTAL_BLOCK) : blockOf (path b) = b := by
  rcases block_cases h with hb | ⟨j, hj, rfl⟩ | ⟨j, hj, k, hk, rfl⟩
  · rw [path_direct hb, blockOf]
  · rw [path_single hj, blockOf]
  · rw [path_double hk, blockOf]

theorem path_blockOf {p : Slot} (h : DataSlot p) : blockOf p < TOTAL_BLOCK ∧ path (blockOf p) = p := by
  rcases h.cases with ⟨i, hi, rfl⟩ | ⟨j, hj, rfl⟩ | ⟨j, hj, k, hk, rfl⟩
  · exact ⟨Nat.lt_trans hi (by decide), path_direct hi⟩
  · refine ⟨?_, path_single hj⟩
    simp only [blockOf, TOTAL_BLOCK, DIRECT_BLOCK, INDIRECT1_BLOCK, INDIRECT2_BLOCK, BLOCK_INDEXES] at *
    omega
  · refine ⟨?_, path_double hk⟩
    simp only [blockOf, TOTAL_BLOCK, DIRECT_BLOCK, INDIRECT1_BLOCK, INDIRECT2_BLOCK, BLOCK_INDEXES] at *
    omega

/-- **Block indexes and data slots correspond one to one.** -/
theorem path_bijOn : Set.BijOn path {b | b < TOTAL_BLOCK} {p | DataSlot p} := by
  refine ⟨fun b hb => path_data hb, fun b hb b' hb' e => ?_, fun p hp => ?_⟩
  · rw [← blockOf_path hb, e, blockOf_path hb']
  · exact ⟨blockOf p, path_blockOf hp⟩

end BlockTree

open BlockTree

/-! ## 2. Where the slots lie -/

/-- The place of the slot that the positions `rest` lead to, if no index block is missing. -/
def slotFrom (w : View) (dev : Int) : (rest : List Nat) → (buf : Key) → (array index : Nat) → Option Place
  | [], buf, array, index => some (buf, array + 2 * index)
  | j :: rest, buf, array, index =>
    let zone := fetch (w buf) (array + 2 * index) 2
    if zone = 0 then none else slotFrom w dev rest ⟨dev, zone⟩ 0 j

/-- The number in a slot, 0 if an index block on the way is missing. -/
def slotWord (w : View) : Option Place → Nat
  | some p => Volume.word w p
  | none => 0

namespace Inode

variable (ino : Inode) (w : View)

/-- The place of a slot. -/
def slot (p : Slot) : Option Place :=
  slotFrom w ino.dev p.2 ino.buf (ino.desc + (Field.zone 0).off) p.1

/-- The number in a slot. -/
def value (p : Slot) : Nat := slotWord w (ino.slot w p)

/-- The numbers of the tree are pairwise distinct zones, and none is the block of the descriptor. -/
structure Zones : Prop where
  distinct : ∀ p q, TreeSlot p → TreeSlot q → ino.value w p ≠ 0 → ino.value w p = ino.value w q → p = q
  apart : ∀ p, TreeSlot p → ino.value w p ≠ 0 → (⟨ino.dev, ino.value w p⟩ : Key) ≠ ino.buf

end Inode

section Slots

variable {ino : Inode} {w : View}

/-- One position further. -/
theorem slotFrom_snoc (dev : Int) (rest : List Nat) (j : Nat) (buf : Key) (array index : Nat) :
    slotFrom w dev (rest ++ [j]) buf array index =
      if slotWord w (slotFrom w dev rest buf array index) = 0 then none
      else some (⟨dev, slotWord w (slotFrom w dev rest buf array index)⟩, 2 * j) := by
  induction rest generalizing buf array index with
  | nil =>
    simp only [List.nil_append, slotFrom, slotWord, Volume.word, Nat.zero_add]
    rfl
  | cons i rest ih =>
    rw [List.cons_append]
    unfold slotFrom
    by_cases hz : fetch (w buf) (array + 2 * index) 2 = 0
    · simp [hz, slotWord]
    · simp only [if_neg hz]
      exact ih _ _ _

theorem Inode.slot_snoc (i : Nat) (rest : List Nat) (j : Nat) : ino.slot w (i, rest ++ [j]) =
    if ino.value w (i, rest) = 0 then none else some (⟨ino.dev, ino.value w (i, rest)⟩, 2 * j) :=
  slotFrom_snoc ..

/-- The slots of the index blocks: the block is a number of the tree, one level up. -/
theorem Inode.slot_snoc_some {i : Nat} {rest : List Nat} {j : Nat} {p : Place}
    (h : ino.slot w (i, rest ++ [j]) = some p) :
    ino.value w (i, rest) ≠ 0 ∧ p = (⟨ino.dev, ino.value w (i, rest)⟩, 2 * j) := by
  rw [Inode.slot_snoc] at h
  split at h
  · cases h
  · next hz => exact ⟨hz, (Option.some.inj h).symm⟩

theorem BlockTree.TreeSlot.up {i j : Nat} {rest : List Nat} (h : TreeSlot (i, rest ++ [j])) :
    TreeSlot (i, rest) := by
  have hdepth : (rest ++ [j]).length ≤ Volume.zoneLevel i := h.depth
  rw [List.length_append, List.length_singleton] at hdepth
  exact ⟨h.zone, Nat.le_of_succ_le hdepth, fun k hk => h.inside k (List.mem_append_left _ hk)⟩

/-- **Two slots of the tree lie in different places.** -/
theorem Inode.Zones.slot_inj (hz : ino.Zones w) {p q : Slot} (hp : TreeSlot p) (hq : TreeSlot q)
    {place : Place} (h : ino.slot w p = some place) (h' : ino.slot w q = some place) : p = q := by
  obtain ⟨i, r⟩ := p
  obtain ⟨i', r'⟩ := q
  cases r using List.reverseRec with
  | nil =>
    cases r' using List.reverseRec with
    | nil =>
      -- both in the descriptor
      have hplace : (ino.buf, ino.desc + (Field.zone 0).off + 2 * i) = place := Option.some.inj h
      have hplace' : (ino.buf, ino.desc + (Field.zone 0).off + 2 * i') = place := Option.some.inj h'
      have hoff := (Prod.mk.inj (hplace.trans hplace'.symm)).2
      rw [show i = i' by omega]
    | append_singleton r' j' =>
      obtain ⟨hne, rfl⟩ := slot_snoc_some h'
      exact absurd (Prod.mk.inj (Option.some.inj h)).1.symm (hz.apart _ hq.up hne)
  | append_singleton r j =>
    obtain ⟨hne, rfl⟩ := slot_snoc_some h
    cases r' using List.reverseRec with
    | nil => exact absurd (Prod.mk.inj (Option.some.inj h')).1.symm (hz.apart _ hp.up hne)
    | append_singleton r' j' =>
      -- both in index blocks: one zone, so one slot above
      obtain ⟨-, hplace⟩ := slot_snoc_some h'
      obtain ⟨hkey, hoff⟩ := Prod.mk.inj hplace
      have hzone : ino.value w (i, r) = ino.value w (i', r') := (Key.mk.inj hkey).2
      obtain ⟨rfl, rfl⟩ := Prod.mk.inj (hz.distinct _ _ hp.up hq.up hne hzone)
      rw [show j = j' by omega]

/-! ## 3. `bmap` on its path -/

theorem mapFrom_restPath (dev : Int) (level : Nat) (buf : Key) (array index block divider : Nat) :
    mapFrom w dev level buf array index block divider =
      slotWord w (slotFrom w dev (restPath level block divider) buf array index) := by
  induction level generalizing buf array index block divider with
  | zero => rfl
  | succ level ih =>
    unfold mapFrom restPath slotFrom
    by_cases hz : fetch (w buf) (array + 2 * index) 2 = 0
    · simp [hz, slotWord]
    · simp only [if_neg hz]
      exact ih _ _ _ _ _

/-- The block map of `bmap` reads the slot at the end of the path. -/
theorem Inode.zone_path (b : Nat) : ino.zone w b = ino.value w (path b) := by
  unfold Inode.zone path
  split
  · exact mapFrom_restPath ..
  · split <;> exact mapFrom_restPath ..

end Slots

/-- The loop of `bmap` along given positions. -/
def walkFrom (x : Nat) (create : Bool) : (rest : List Nat) → (buf : Key) → (array index : Nat) → Code Nat
  | rest, buf, array, index => do
    bmapSlot x create rest.length buf (array + 2 * index)
    let b ← bytesOf buf
    let zone := fetch b (array + 2 * index) 2
    match rest with
    | [] => return zone
    | j :: rest =>
      if zone = 0 then
        return zone
      else
        let i ← inodeAt x
        let buf ← bread i.dev zone
        walkFrom x create rest buf 0 j

/-- One slot a level, from the zone index on. -/
def walk (x : Nat) (create : Bool) (p : Slot) : Code Nat := do
  let i ← inodeAt x
  onCache (·.addCount i.buf 1)
  walkFrom x create p.2 i.buf (i.desc + (Field.zone 0).off) p.1

section Walk

variable {s : Kernel}

theorem restPath_length (level block divider : Nat) : (restPath level block divider).length = level := by
  induction level generalizing block divider with
  | zero => rfl
  | succ level ih => rw [restPath, List.length_cons, ih]

theorem bmapReckon_walk (x : Nat) (create : Bool) (level : Nat) (buf : Key) (array index block divider : Nat) :
    bmapReckon x create level buf array index block divider =
      walkFrom x create (restPath level block divider) buf array index := by
  induction level generalizing buf array index block divider with
  | zero => rfl
  | succ level ih =>
    have hlen := restPath_length (level + 1) block divider
    unfold bmapReckon walkFrom
    rw [hlen]
    simp only [ih]
    rfl

/-- `bmap` visits the slots on the path of its block. -/
theorem bmap_walk (x : Nat) (create : Bool) {b : Nat} (h : b < TOTAL_BLOCK) :
    bmap x b create = walk x create (path b) := by
  have hfirst : Code.assert (decide (b < TOTAL_BLOCK)) = pure () := by
    rw [decide_eq_true h]
    rfl
  unfold bmap walk path
  simp only [hfirst, bmapReckon_walk, pure_bind]
  split
  · rfl
  · split
    · rfl
    · have hsecond : Code.assert (decide (b - DIRECT_BLOCK - INDIRECT1_BLOCK < INDIRECT2_BLOCK)) = pure () := by
        rw [decide_eq_true]
        · rfl
        · unfold TOTAL_BLOCK at h
          omega
      simp only [hsecond, pure_bind]

/-- **`bmap` on a tree of pairwise distinct zones**: block indexes and data slots correspond one to
    one, different indexes end in different places, `bmap` visits one slot a level on its path, and
    without `create` it answers the number at the end of it and changes no block. -/
theorem bmap_bijection {x : Nat} (hs : CountsKept s) (hz : (s.tab.inodeTable x).Zones s.view) :
    Set.BijOn path {b | b < TOTAL_BLOCK} {p | DataSlot p} ∧
      (∀ b < TOTAL_BLOCK, ∀ b' < TOTAL_BLOCK, ∀ place,
        (s.tab.inodeTable x).slot s.view (path b) = some place →
          (s.tab.inodeTable x).slot s.view (path b') = some place → b = b') ∧
      ∀ b < TOTAL_BLOCK, (∀ create, bmap x b create = walk x create (path b)) ∧
        Returns ((bmap x b false).run s) fun r =>
          r.1 = (s.tab.inodeTable x).value s.view (path b) ∧ r.2.view = s.view := by
  refine ⟨path_bijOn, fun b hb b' hb' place h h' => ?_, fun b hb => ⟨fun create => bmap_walk x create hb, ?_⟩⟩
  · have hpath := hz.slot_inj (path_data hb).tree (path_data hb').tree h h'
    exact path_bijOn.injOn hb hb' hpath
  · refine (bmap_borrowed hs x hb (Borrowed.refl s)).mono fun r _ h => ⟨?_, h.2.same.views⟩
    rw [h.1, Inode.zone_path]

end Walk

namespace Sample

/-- The volume with a file of eleven blocks, of which block 0 and block 10 are there: the first in
    zone 6, the other in zone 9 under index block 8. -/
def indexed : Kernel :=
  { kernelFile fun _ _ => 0 with
    cache :=
      { disk := fun k =>
          if k = ⟨dev, 4⟩ then store (descriptor 32 (IFREG + 0o755) 11000 1 6 fun _ => 0) 60 2 8
          else if k = ⟨dev, 8⟩ then store (fun _ => 0) 6 2 9
          else fun _ => 0
        buf := (kernelFile fun _ _ => 0).cache.buf } }

/-- The numbers of its tree. -/
def indexedValue (p : Slot) : Nat :=
  if p = (0, []) then 6 else if p = (7, []) then 8 else if p = (7, [3]) then 9 else 0

theorem indexed_zone {i : Nat} (hi : i < 9) :
    fetch (indexed.view ⟨dev, 4⟩) (46 + 2 * i) 2 = indexedValue (i, []) := by
  revert i
  decide +kernel

theorem indexed_index {j : Nat} : fetch (indexed.view ⟨dev, 8⟩) (2 * j) 2 = indexedValue (7, [j]) := by
  show fetch (store (fun _ => 0) 6 2 9) (2 * j) 2 = _
  by_cases h : j = 3
  · subst h
    rfl
  · rw [fetch_store_ne (by omega)]
    simp [indexedValue, h, fetch]

theorem indexed_value {p : Slot} (hp : TreeSlot p) :
    (indexed.tab.inodeTable 1).value indexed.view p = indexedValue p := by
  obtain ⟨i, rest⟩ := p
  have hi : i < 9 := hp.zone
  have hdepth : rest.length ≤ Volume.zoneLevel i := hp.depth
  cases rest with
  | nil => exact indexed_zone hi
  | cons j rest =>
    show slotWord _ (if fetch (indexed.view ⟨dev, 4⟩) (46 + 2 * i) 2 = 0 then none else
      slotFrom _ dev rest ⟨dev, fetch (indexed.view ⟨dev, 4⟩) (46 + 2 * i) 2⟩ 0 j) = _
    rw [indexed_zone hi]
    rw [List.length_cons] at hdepth
    have hlevel : i < 7 ∨ i = 7 ∨ i = 8 := by omega
    rcases hlevel with h | rfl | rfl
    · rw [show Volume.zoneLevel i = 0 from if_pos h] at hdepth
      omega
    · have hone : Volume.zoneLevel 7 = 1 := rfl
      obtain rfl : rest = [] := List.eq_nil_of_length_eq_zero (by omega)
      show fetch (indexed.view ⟨dev, 8⟩) (0 + 2 * j) 2 = _
      rw [Nat.zero_add]
      exact indexed_index
    · show 0 = indexedValue (8, j :: rest)
      simp [indexedValue]

theorem indexed_zones : (indexed.tab.inodeTable 1).Zones indexed.view := by
  refine ⟨fun p q hp hq hne h => ?_, fun p hp hne h => ?_⟩
  · rw [indexed_value hp] at hne h
    rw [indexed_value hq] at h
    unfold indexedValue at hne h
    grind
  · rw [indexed_value hp] at h
    have h4 : indexedValue p = 4 := (Key.mk.inj h).2
    unfold indexedValue at h4
    grind

theorem indexed_counts : CountsKept indexed := fun k => by
  show 0 ≤ if k = ⟨dev, 4⟩ then (2 : Int) else 0
  split <;> decide

/-- Block 10 of the file: two slots, and zone 9. -/
theorem bmap_bijection_indexed : path 10 = (7, [3]) ∧
    Returns ((bmap 1 10 false).run indexed) fun r => r.1 = 9 ∧ r.2.view = indexed.view := by
  obtain ⟨-, -, h⟩ := bmap_bijection indexed_counts indexed_zones
  refine ⟨rfl, (h 10 (by decide)).2.mono fun r _ hr => ⟨hr.1.trans ?_, hr.2⟩⟩
  exact indexed_value (path_data (b := 10) (by decide)).tree

end Sample

end Yuios
