/-
  File:      Yuios/Kernel/Ards.lean
  Subject:   THE MEMORY MAP OF THE FIRMWARE: `memory_init` of `kernel/memory.c`, in its two formats.

  The sizes in the map have 64 bits, the largest one so far is kept in 32. An entry of 4 GiB or more is
  larger than anything kept, so it is always taken, and cut.

  * `memoryInit` -- the function, on a memory of bytes.
  * `E820`, `Multiboot`, `Delivered` -- a list of entries lies in memory in one of the formats.
  * `chosen` -- the entry whose base and size the scan has stored last.
  * `target` -- the first of the largest entries, by the size cut to 32 bits, from the last entry of
    4 GiB or more on.
  * `chosen_eq` -- that is the one chosen.
  * `Selects` -- the choice is a valid entry that is not cut, and none below 4 GiB is larger.
  * **`memoryInit_selects`** -- so it is if and only if the target starts below 4 GiB and no larger entry
    below 4 GiB stands up to the last one of 4 GiB or more.
-/
import Mathlib.Data.List.MinMax
import Yuios.Kernel.Block
import Yuios.Kernel.Paging
import Yuios.Lib.Bytes

namespace Yuios.Ards

open Lib
open Kernel (assert)
open Paging (MEMORY_BASE KERNEL_MEMORY_SIZE IDX)

/-! ## 1. The function -/

def ZONE_VALID : Nat := 1

def YUI_MAGIC : Nat := 0x20220205
def MULTIBOOT2_MAGIC : Nat := 0x36d76289
def MULTIBOOT_TAG_TYPE_END : Nat := 0
def MULTIBOOT_TAG_TYPE_MMAP : Nat := 6

/-- The size of the address space, and one more than the largest `u32`. -/
def U32 : Nat := 2 ^ 32

/-- `sizeof(ards_t)`, which is packed. -/
def ARDS_SIZE : Nat := 20

/-- `base`, `size` and `type` of an `ards_t`; `addr`, `len` and `type` of a `multi_mmap_entry_t`. -/
structure Entry where
  base : Nat
  size : Nat
  type : Nat
  deriving DecidableEq, Repr

/-- `memory_base` and `memory_size`. -/
structure Zone where
  base : Nat
  size : Nat
  deriving DecidableEq, Repr

def entryAt (b : Bytes) (ptr : Nat) : Entry := ⟨fetch b ptr 8, fetch b (ptr + 8) 8, fetch b (ptr + 16) 4⟩

/-- The body of both loops: the 64 bits are compared, and 32 of them stored. -/
def consider (z : Zone) (e : Entry) : Zone :=
  if e.type = ZONE_VALID ∧ e.size > z.size then ⟨e.base % U32, e.size % U32⟩ else z

/-- The loop over the entries of an E820 table. -/
def scanArds (b : Bytes) : (count ptr : Nat) → Zone → Zone
  | 0, _, z => z
  | count + 1, ptr, z => scanArds b count ((ptr + ARDS_SIZE) % U32) (consider z (entryAt b ptr))

/-- The loop over the tags; one that meets no tag to stop at has no end. -/
def findTag (b : Bytes) : (fuel tag : Nat) → Except Stop Nat
  | 0, _ => .error .outOfBuffer
  | fuel + 1, tag =>
    if fetch b tag 4 = MULTIBOOT_TAG_TYPE_END then .ok tag
    else if fetch b tag 4 = MULTIBOOT_TAG_TYPE_MMAP then .ok tag
    else findTag b fuel ((tag + (fetch b (tag + 4) 4 + 7) % U32 / 8 * 8) % U32)

/-- The loop over the entries of a tag. -/
def scanMmap (b : Bytes) (last entrySize : Nat) : (fuel entry : Nat) → Zone → Except Stop Zone
  | 0, _, _ => .error .outOfBuffer
  | fuel + 1, entry, z =>
    if entry < last then scanMmap b last entrySize fuel ((entry + entrySize) % U32) (consider z (entryAt b entry))
    else .ok z

/-- `memory_init` up to the end of its loops. -/
def selectZone (b : Bytes) (magic addr : Nat) : Except Stop Zone :=
  if magic = YUI_MAGIC then .ok (scanArds b (fetch b addr 4) ((addr + 4) % U32) ⟨0, 0⟩)
  else if magic = MULTIBOOT2_MAGIC then do
    let tag ← findTag b U32 ((addr + 8) % U32)
    scanMmap b ((tag + fetch b (tag + 4) 4) % U32) (fetch b (tag + 8) 4) U32 ((tag + 16) % U32) ⟨0, 0⟩
  else .error .panic

/-- The variables that `memory_init` sets. -/
structure Memory where
  zone : Zone
  totalPages : Nat
  freePages : Nat
  deriving DecidableEq, Repr

/-- `memory_init` behind its loops. -/
def countPages (z : Zone) : Except Stop Memory := do
  assert (z.base = MEMORY_BASE)
  assert (z.size % Paging.PAGE_SIZE = 0)
  if z.size < KERNEL_MEMORY_SIZE then .error .panic
  else .ok ⟨z, IDX z.size + IDX MEMORY_BASE, IDX z.size⟩

/-- `memory_init`. -/
def memoryInit (b : Bytes) (magic addr : Nat) : Except Stop Memory := selectZone b magic addr >>= countPages

/-! ## 2. The two formats -/

/-- The entries lie at `ptr`, `stride` bytes apart. -/
def Laid (b : Bytes) (stride : Nat) : (ptr : Nat) → List Entry → Prop
  | _, [] => True
  | ptr, e :: es => entryAt b ptr = e ∧ Laid b stride (ptr + stride) es

/-- An E820 table as the loader leaves it: the count, and behind it the entries. -/
structure E820 (b : Bytes) (addr : Nat) (es : List Entry) : Prop where
  count : fetch b addr 4 = es.length
  room : addr + 4 + ARDS_SIZE * es.length < U32
  entries : Laid b ARDS_SIZE (addr + 4) es

/-- Other tags lead from `tag` to the memory map's. -/
inductive TagsTo (b : Bytes) (mtag : Nat) : Nat → Prop
  | here (h : fetch b mtag 4 = MULTIBOOT_TAG_TYPE_MMAP) (hm : mtag < U32) : TagsTo b mtag mtag
  | next {tag : Nat} (he : fetch b tag 4 ≠ MULTIBOOT_TAG_TYPE_END) (hm : fetch b tag 4 ≠ MULTIBOOT_TAG_TYPE_MMAP)
      (hs : 8 ≤ fetch b (tag + 4) 4) (hr : tag + fetch b (tag + 4) 4 + 8 ≤ U32)
      (h : TagsTo b mtag (tag + (fetch b (tag + 4) 4 + 7) / 8 * 8)) : TagsTo b mtag tag

/-- The information of a multiboot2 loader: tags, and among them the memory map. -/
structure Multiboot (b : Bytes) (addr : Nat) (es : List Entry) : Prop where
  tags : ∃ mtag, TagsTo b mtag (addr + 8) ∧
    fetch b (mtag + 4) 4 = 16 + fetch b (mtag + 8) 4 * es.length ∧ 24 ≤ fetch b (mtag + 8) 4 ∧
    mtag + 16 + fetch b (mtag + 8) 4 * es.length < U32 ∧ Laid b (fetch b (mtag + 8) 4) (mtag + 16) es

/-- The firmware's map, in the format that the magic number announces. -/
inductive Delivered (b : Bytes) (addr : Nat) (es : List Entry) : Nat → Prop
  | ards (h : E820 b addr es) : Delivered b addr es YUI_MAGIC
  | mmap (h : Multiboot b addr es) : Delivered b addr es MULTIBOOT2_MAGIC

section Formats

variable {b : Bytes} {addr tag mtag ptr stride fuel last : Nat} {es : List Entry} {z : Zone}

theorem scanArds_laid (h : Laid b ARDS_SIZE ptr es) (hr : ptr + ARDS_SIZE * es.length < U32) :
    scanArds b es.length ptr z = es.foldl consider z := by
  induction es generalizing ptr z with
  | nil => rfl
  | cons e es ih =>
    obtain ⟨he, h⟩ := h
    rw [List.length_cons, Nat.mul_succ] at hr
    rw [List.length_cons, scanArds, he, Nat.mod_eq_of_lt (by omega), ih h (by omega), List.foldl_cons]

theorem findTag_to (h : TagsTo b mtag tag) (hf : U32 ≤ tag + fuel) : findTag b fuel tag = .ok mtag := by
  have hlt : ∀ {t}, TagsTo b mtag t → t < U32 := fun ht => by
    cases ht with
    | here _ hm => exact hm
    | next _ _ _ hr _ => omega
  induction h generalizing fuel with
  | here h hm =>
    obtain ⟨fuel, rfl⟩ := Nat.exists_eq_succ_of_ne_zero (n := fuel) (by omega)
    rw [findTag, h, if_pos rfl, if_neg (by decide)]
  | next he hm hs hr h ih =>
    have hsize := hlt h
    obtain ⟨fuel, rfl⟩ := Nat.exists_eq_succ_of_ne_zero (n := fuel) (by omega)
    rw [findTag, if_neg he, if_neg hm, Nat.mod_eq_of_lt (a := fetch b _ 4 + 7) (by omega), Nat.mod_eq_of_lt hsize]
    exact ih (by omega)

theorem scanMmap_laid (h : Laid b stride ptr es) (hs : 0 < stride) (hl : last = ptr + stride * es.length)
    (hr : last < U32) (hf : last < ptr + fuel) : scanMmap b last stride fuel ptr z = .ok (es.foldl consider z) := by
  induction es generalizing ptr z fuel with
  | nil =>
    obtain ⟨fuel, rfl⟩ := Nat.exists_eq_succ_of_ne_zero (n := fuel) (by omega)
    rw [List.length_nil, Nat.mul_zero] at hl
    rw [scanMmap, if_neg (by omega), List.foldl_nil]
  | cons e es ih =>
    obtain ⟨he, h⟩ := h
    rw [List.length_cons, Nat.mul_succ] at hl
    obtain ⟨fuel, rfl⟩ := Nat.exists_eq_succ_of_ne_zero (n := fuel) (by omega)
    rw [scanMmap, if_pos (by omega), he, Nat.mod_eq_of_lt (by omega), List.foldl_cons]
    exact ih h (by omega) (by omega)

/-- **The scan of an E820 table.** -/
theorem selectZone_e820 (h : E820 b addr es) : selectZone b YUI_MAGIC addr = .ok (es.foldl consider ⟨0, 0⟩) := by
  have hr := h.room
  rw [selectZone, if_pos rfl, h.count, Nat.mod_eq_of_lt (by omega), scanArds_laid h.entries hr]

/-- **The scan of a multiboot2 memory map.** -/
theorem selectZone_multiboot (h : Multiboot b addr es) :
    selectZone b MULTIBOOT2_MAGIC addr = .ok (es.foldl consider ⟨0, 0⟩) := by
  obtain ⟨mtag, htags, hsize, hstride, hroom, hlaid⟩ := h.tags
  have haddr : addr + 8 < U32 := by
    cases htags with
    | here _ hm => exact hm
    | next _ _ _ hr _ => omega
  have hlast : (mtag + fetch b (mtag + 4) 4) % U32 = mtag + 16 + fetch b (mtag + 8) 4 * es.length := by
    rw [hsize, ← Nat.add_assoc, Nat.mod_eq_of_lt hroom]
  rw [selectZone, if_neg (by decide), if_pos rfl, Nat.mod_eq_of_lt haddr]
  refine bind_of_ok (findTag_to htags (Nat.le_add_left ..)) ?_
  rw [hlast, Nat.mod_eq_of_lt (a := mtag + 16) (by omega)]
  exact scanMmap_laid hlaid (by omega) rfl hroom (by omega)

theorem selectZone_delivered {magic : Nat} (h : Delivered b addr es magic) :
    selectZone b magic addr = .ok (es.foldl consider ⟨0, 0⟩) := by
  cases h with
  | ards h => exact selectZone_e820 h
  | mmap h => exact selectZone_multiboot h

end Formats

/-! ## 3. The choice -/

namespace Entry

variable (e : Entry)

def valid : Bool := e.type = ZONE_VALID

/-- 4 GiB or more. -/
def big : Bool := U32 ≤ e.size

/-- The size as it is stored. -/
def kept : Nat := e.size % U32

/-- The entry lies entirely below 4 GiB. -/
def Low : Prop := e.base + e.size ≤ U32

end Entry

/-- The scan with the entry itself in place of its base and size. -/
def keep (s : Option Entry) (e : Entry) : Option Entry :=
  if e.type = ZONE_VALID ∧ e.size > (s.map Entry.kept).getD 0 then some e else s

/-- **The entry chosen**: the one that the scan stores last. -/
def chosen (es : List Entry) : Option Entry := es.foldl keep none

/-- The variables once an entry is chosen. -/
def stored : Option Entry → Zone
  | none => ⟨0, 0⟩
  | some e => ⟨e.base % U32, e.kept⟩

/-- The entries up to the last one of 4 GiB or more, none if there is none. -/
def uptoBig : List Entry → List Entry
  | [] => []
  | e :: es => if es.any Entry.big then e :: uptoBig es else if e.big then [e] else []

/-- The entries from the last one of 4 GiB or more on, or all of them if there is none. -/
def sinceBig : List Entry → List Entry
  | [] => []
  | e :: es => if es.any Entry.big then sinceBig es else e :: es

/-- The entry the scan ends with. -/
def target (es : List Entry) : Option Entry := (sinceBig (es.filter Entry.valid)).argmax Entry.kept

section Choice

variable {es l : List Entry} {e a : Entry} {s : Option Entry}

theorem scan_keep : es.foldl consider (stored s) = stored (es.foldl keep s) := by
  induction es generalizing s with
  | nil => rfl
  | cons e es ih =>
    have hstep : consider (stored s) e = stored (keep s e) := by
      have hsize : (stored s).size = (s.map Entry.kept).getD 0 := by cases s <;> rfl
      rw [consider, keep, hsize]
      split <;> rfl
    rw [List.foldl_cons, hstep, ih, List.foldl_cons]

/-- **The loops store the entry chosen.** -/
theorem scan_chosen : es.foldl consider ⟨0, 0⟩ = stored (chosen es) := scan_keep (s := none)

/-- Entries that are not valid are passed over. -/
theorem keep_filter : es.foldl keep s = (es.filter Entry.valid).foldl keep s := by
  induction es generalizing s with
  | nil => rfl
  | cons e es ih =>
    by_cases he : e.type = ZONE_VALID
    · rw [List.filter_cons_of_pos (by simpa [Entry.valid] using he), List.foldl_cons, List.foldl_cons, ih]
    · rw [List.filter_cons_of_neg (by simpa [Entry.valid] using he), List.foldl_cons, keep, if_neg fun h => he h.1, ih]

theorem kept_of_not_big (h : e.big = false) : e.kept = e.size := by
  have hlt : e.size < U32 := by simpa [Entry.big] using h
  exact Nat.mod_eq_of_lt hlt

theorem kept_lt_of_big (h : e.big = true) : a.kept < e.size := by
  have hle : U32 ≤ e.size := by simpa [Entry.big] using h
  exact Nat.lt_of_lt_of_le (Nat.mod_lt _ (by decide)) hle

/-- A big entry is always taken. -/
theorem keep_big (hv : e.valid = true) (h : e.big = true) : keep s e = some e := by
  have htype : e.type = ZONE_VALID := by simpa [Entry.valid] using hv
  refine if_pos ⟨htype, ?_⟩
  cases s with
  | none => exact Nat.lt_of_le_of_lt (Nat.zero_le _) (kept_lt_of_big h (a := e))
  | some a => exact kept_lt_of_big h

/-- Behind an entry chosen, smaller ones are compared by what is stored. -/
theorem foldl_keep_some (hv : ∀ e ∈ l, e.valid = true) (hb : ∀ e ∈ l, e.big = false) :
    l.foldl keep (some a) = (a :: l).argmax Entry.kept := by
  suffices h : l.foldl keep (some a) =
      l.foldl (List.argAux fun b c : Entry => c.kept < b.kept) (some a) from h
  induction l generalizing a with
  | nil => rfl
  | cons e l ih =>
    obtain ⟨hve, hv⟩ := List.forall_mem_cons.mp hv
    obtain ⟨hbe, hb⟩ := List.forall_mem_cons.mp hb
    have htype : e.type = ZONE_VALID := by simpa [Entry.valid] using hve
    have hstep : keep (some a) e = some (if a.kept < e.kept then e else a) := by
      rw [kept_of_not_big hbe, keep]
      by_cases h : a.kept < e.size
      · rw [if_pos ⟨htype, h⟩, if_pos h]
      · rw [if_neg fun h' => h h'.2, if_neg h]
    rw [List.foldl_cons, hstep, ih hv hb, List.foldl_cons]
    congr 1
    show _ = if a.kept < e.kept then some e else some a
    split <;> rfl

/-- Every entry stands up to the last big one, or is a smaller one behind it. -/
theorem upto_or_since (h : e ∈ l) : e ∈ uptoBig l ∨ e ∈ sinceBig l ∧ e.big = false := by
  induction l with
  | nil => exact absurd h List.not_mem_nil
  | cons a l ih =>
    rw [uptoBig, sinceBig]
    by_cases hany : l.any Entry.big = true
    · rw [if_pos hany, if_pos hany]
      rcases List.mem_cons.mp h with rfl | h
      · exact .inl List.mem_cons_self
      · exact (ih h).imp_left (List.mem_cons_of_mem a)
    · rw [if_neg hany, if_neg hany]
      rcases List.mem_cons.mp h with rfl | h
      · cases he : e.big with
        | true => exact .inl (by simp)
        | false => exact .inr ⟨List.mem_cons_self, rfl⟩
      · have hsmall : ∀ a ∈ l, a.big = false := by simpa using hany
        exact .inr ⟨List.mem_cons_of_mem a h, hsmall e h⟩

theorem uptoBig_sub (h : e ∈ uptoBig l) : e ∈ l := by
  induction l with
  | nil => exact absurd h List.not_mem_nil
  | cons a l ih =>
    rw [uptoBig] at h
    split at h
    · exact (List.mem_cons.mp h).elim (fun e => e ▸ List.mem_cons_self) fun h => List.mem_cons_of_mem a (ih h)
    · split at h
      · exact List.mem_singleton.mp h ▸ List.mem_cons_self
      · exact absurd h List.not_mem_nil

/-- Among entries below 4 GiB in size the scan finds the first of the largest, if it has a size. -/
theorem foldl_keep_small (hv : ∀ e ∈ l, e.valid = true) (hb : ∀ e ∈ l, e.big = false) :
    l.foldl keep none = (l.argmax Entry.kept).filter fun e => e.size ≠ 0 := by
  induction l with
  | nil => rfl
  | cons e l ih =>
    obtain ⟨hve, hvl⟩ := List.forall_mem_cons.mp hv
    obtain ⟨hbe, hbl⟩ := List.forall_mem_cons.mp hb
    have htype : e.type = ZONE_VALID := by simpa [Entry.valid] using hve
    have hkept := kept_of_not_big hbe
    rw [List.foldl_cons]
    by_cases hz : e.size = 0
    · rw [keep, if_neg (by simp [hz]), ih hvl hbl, List.argmax_cons]
      cases hm : l.argmax Entry.kept with
      | none => simp [Option.filter, hz]
      | some c =>
        have hc := kept_of_not_big (hbl c (List.argmax_mem hm))
        by_cases hcz : c.size = 0
        · simp [Option.filter, hkept, hc, hz, hcz]
        · simp [Option.filter, hkept, hc, hz, hcz, Nat.pos_of_ne_zero hcz]
    · rw [keep, if_pos ⟨htype, Nat.pos_of_ne_zero hz⟩, foldl_keep_some hvl hbl]
      have hne : (e :: l).argmax Entry.kept ≠ none := by simp
      obtain ⟨m, hm⟩ := Option.ne_none_iff_exists'.mp hne
      have hle : e.kept ≤ m.kept := List.le_of_mem_argmax List.mem_cons_self hm
      have hmz : m.size ≠ 0 := by
        rw [kept_of_not_big (hb m (List.argmax_mem hm))] at hle
        omega
      rw [hm]
      simp [Option.filter, hmz]

/-- From the last big entry on. -/
theorem foldl_keep_since (hv : ∀ e ∈ l, e.valid = true) (h : l.any Entry.big = true) :
    l.foldl keep s = (sinceBig l).argmax Entry.kept ∧
      ∀ m, (sinceBig l).argmax Entry.kept = some m → m.size ≠ 0 := by
  induction l generalizing s with
  | nil => cases h
  | cons e l ih =>
    obtain ⟨hve, hvl⟩ := List.forall_mem_cons.mp hv
    rw [List.foldl_cons, sinceBig]
    by_cases hany : l.any Entry.big = true
    · rw [if_pos hany]
      exact ih hvl hany
    · have hbl : ∀ a ∈ l, a.big = false := by simpa using hany
      have hbe : e.big = true := by
        rw [List.any_cons, Bool.or_eq_true] at h
        exact h.resolve_right hany
      rw [if_neg hany, keep_big hve hbe]
      refine ⟨foldl_keep_some hvl hbl, fun m hm => ?_⟩
      have hpos : e.size ≠ 0 := Nat.ne_of_gt (Nat.lt_of_le_of_lt (Nat.zero_le _) (kept_lt_of_big hbe (a := e)))
      rw [List.argmax_cons] at hm
      cases hc : l.argmax Entry.kept with
      | none =>
        rw [hc] at hm
        exact Option.some.inj hm ▸ hpos
      | some c =>
        rw [hc] at hm
        dsimp only at hm
        split at hm
        · next hlt =>
            obtain rfl := Option.some.inj hm
            have hck := kept_of_not_big (hbl c (List.argmax_mem hc))
            omega
        · exact Option.some.inj hm ▸ hpos

/-- **The entry chosen is the target**, if that has a size. -/
theorem chosen_eq : chosen es = (target es).filter fun e => e.size ≠ 0 := by
  have hv : ∀ e ∈ es.filter Entry.valid, e.valid = true := fun e he => (List.mem_filter.mp he).2
  rw [chosen, keep_filter, target]
  by_cases h : (es.filter Entry.valid).any Entry.big = true
  · obtain ⟨heq, hsize⟩ := foldl_keep_since (s := none) hv h
    rw [heq]
    cases hm : (sinceBig (es.filter Entry.valid)).argmax Entry.kept with
    | none => rfl
    | some m => simp [Option.filter, hsize m hm]
  · have hb : ∀ e ∈ es.filter Entry.valid, e.big = false := by simpa using h
    have hall : sinceBig (es.filter Entry.valid) = es.filter Entry.valid := by
      cases hl : es.filter Entry.valid with
      | nil => rfl
      | cons e l =>
        rw [hl, List.any_cons, Bool.or_eq_true, not_or] at h
        exact if_neg h.2
    rw [foldl_keep_small hv hb, hall]

/-- What `memory_init` is for: the variables hold the base of a valid entry and no more than its size,
    and no valid entry that lies entirely below 4 GiB is larger. -/
def Selects (es : List Entry) (z : Zone) : Prop :=
  ∃ e, chosen es = some e ∧ e.type = ZONE_VALID ∧ z.base = e.base ∧ z.size ≤ e.size ∧
    ∀ o ∈ es, o.type = ZONE_VALID → o.Low → o.size ≤ e.size

/-- The target has a size and starts below 4 GiB, and no larger entry below 4 GiB stands up to the last
    one of 4 GiB or more. -/
def NotCut (es : List Entry) : Prop :=
  ∃ e, target es = some e ∧ e.size ≠ 0 ∧ e.base < U32 ∧
    ∀ o ∈ uptoBig (es.filter Entry.valid), o.Low → o.size ≤ e.size

/-- The target passes the checks at the end of `memory_init`. -/
def Passes (es : List Entry) : Prop :=
  ∃ e, target es = some e ∧ e.base % U32 = MEMORY_BASE ∧ e.kept % Paging.PAGE_SIZE = 0 ∧ KERNEL_MEMORY_SIZE ≤ e.kept

theorem chosen_some : chosen es = some e ↔ target es = some e ∧ e.size ≠ 0 := by
  rw [chosen_eq, Option.filter_eq_some_iff]
  simp

theorem target_mem (h : target es = some e) : e ∈ es ∧ e.type = ZONE_VALID := by
  have hsub : ∀ {l : List Entry} {e}, e ∈ sinceBig l → e ∈ l := fun {l} => by
    induction l with
    | nil => exact fun h => h
    | cons a l ih =>
      intro e he
      rw [sinceBig] at he
      split at he
      · exact List.mem_cons_of_mem a (ih he)
      · exact he
  obtain ⟨hmem, hv⟩ := List.mem_filter.mp (hsub (List.argmax_mem h))
  exact ⟨hmem, by simpa [Entry.valid] using hv⟩

/-- **The choice is right where the target is.** -/
theorem selects_iff : Selects es (stored (chosen es)) ↔ NotCut es := by
  constructor
  · rintro ⟨e, hc, -, hbase, -, hlow⟩
    obtain ⟨ht, hz⟩ := chosen_some.mp hc
    rw [hc] at hbase
    have hmod : e.base % U32 = e.base := hbase
    refine ⟨e, ht, hz, hmod ▸ Nat.mod_lt _ (by decide), fun o ho => ?_⟩
    obtain ⟨hmem, hv⟩ := List.mem_filter.mp (uptoBig_sub ho)
    exact hlow o hmem (by simpa [Entry.valid] using hv)
  · rintro ⟨e, ht, hz, hbase, hlow⟩
    have hc := chosen_some.mpr ⟨ht, hz⟩
    refine ⟨e, hc, (target_mem ht).2, ?_, ?_, fun o ho hv hl => ?_⟩
    · rw [hc]
      exact Nat.mod_eq_of_lt hbase
    · rw [hc]
      exact Nat.mod_le ..
    · have hmem : o ∈ es.filter Entry.valid := List.mem_filter.mpr ⟨ho, by simpa [Entry.valid] using hv⟩
      rcases upto_or_since hmem with h | ⟨h, hb⟩
      · exact hlow o h hl
      · have hle : o.kept ≤ e.kept := List.le_of_mem_argmax h ht
        rw [kept_of_not_big hb] at hle
        exact Nat.le_trans hle (Nat.mod_le ..)

/-- What is stored passes the checks where the target does. -/
theorem passes_iff : Passes es ↔ (stored (chosen es)).base = MEMORY_BASE ∧
    (stored (chosen es)).size % Paging.PAGE_SIZE = 0 ∧ KERNEL_MEMORY_SIZE ≤ (stored (chosen es)).size := by
  constructor
  · rintro ⟨e, ht, hbase, hpage, hsize⟩
    have hz : e.size ≠ 0 := fun h0 => by
      rw [Entry.kept, h0] at hsize
      exact absurd hsize (by decide)
    rw [chosen_some.mpr ⟨ht, hz⟩]
    exact ⟨hbase, hpage, hsize⟩
  · cases hc : chosen es with
    | none => exact fun h => absurd h.1 (by decide)
    | some e => exact fun h => ⟨e, (chosen_some.mp hc).1, h⟩

end Choice

section Run

variable {b : Bytes} {magic addr : Nat} {es : List Entry} {z : Zone} {m : Memory}

theorem countPages_ok (h : countPages z = .ok m) : m.zone = z ∧ z.base = MEMORY_BASE ∧ z.size % Paging.PAGE_SIZE = 0 ∧
    KERNEL_MEMORY_SIZE ≤ z.size := by
  obtain ⟨hbase, h⟩ := Kernel.of_assert h
  obtain ⟨hpage, h⟩ := Kernel.of_assert h
  split at h
  · cases h
  · next hsize =>
      cases h
      exact ⟨rfl, by simpa using hbase, by simpa using hpage, Nat.not_lt.mp hsize⟩

theorem countPages_returns (hbase : z.base = MEMORY_BASE) (hpage : z.size % Paging.PAGE_SIZE = 0)
    (hsize : KERNEL_MEMORY_SIZE ≤ z.size) : ∃ m, countPages z = .ok m := by
  refine ⟨⟨z, IDX z.size + IDX MEMORY_BASE, IDX z.size⟩, ?_⟩
  rw [countPages, hbase, hpage, if_neg (Nat.not_lt.mpr hsize)]
  rfl

/-- What follows the loops depends on the entry chosen only. -/
theorem memoryInit_eq (h : Delivered b addr es magic) : memoryInit b magic addr = countPages (stored (chosen es)) := by
  rw [memoryInit, selectZone_delivered h, scan_chosen]
  rfl

/-- **The choice of `memory_init`.** Both formats lead to the same run; the loops select a valid entry
    that is not cut, with no larger one below 4 GiB, if and only if the target is such an entry; and so
    does every run that returns, if and only if the target is one or fails the checks. -/
theorem memoryInit_selects (h : Delivered b addr es magic) :
    (∀ b' magic' addr', Delivered b' addr' es magic' → memoryInit b' magic' addr' = memoryInit b magic addr) ∧
      (∃ z, selectZone b magic addr = .ok z ∧ (Selects es z ↔ NotCut es)) ∧
      ((∀ m, memoryInit b magic addr = .ok m → Selects es m.zone) ↔ (Passes es → NotCut es)) := by
  refine ⟨fun b' magic' addr' h' => ?_, ⟨_, selectZone_delivered h, ?_⟩, ?_⟩
  · rw [memoryInit_eq h, memoryInit_eq h']
  · rw [scan_chosen]
    exact selects_iff
  · rw [memoryInit_eq h]
    constructor
    · intro hall hp
      obtain ⟨hbase, hpage, hsize⟩ := passes_iff.mp hp
      obtain ⟨m, hm⟩ := countPages_returns hbase hpage hsize
      have hsel := hall m hm
      rw [(countPages_ok hm).1] at hsel
      exact selects_iff.mp hsel
    · intro himp m hm
      obtain ⟨hz, hchecks⟩ := countPages_ok hm
      rw [hz]
      exact selects_iff.mpr (himp (passes_iff.mpr hchecks))

end Run

/-- An entry at byte `off`. -/
def putEntry (off : Nat) (e : Entry) (b : Bytes) : Bytes :=
  store (store (store b off 8 e.base) (off + 8) 8 e.size) (off + 16) 4 e.type

/-- An E820 table of two entries. -/
def twoEntries (e e' : Entry) : Bytes := store (putEntry 4 e (putEntry 24 e' fun _ => 0)) 0 4 2

/-- A machine with 1 GiB: the memory below 640 KiB, and from 1 MiB on. -/
def smallMachine : List Entry := [⟨0, 0x9fc00, 1⟩, ⟨0x100000, 0x3ff00000, 1⟩]

theorem smallMachine_e820 : E820 (twoEntries ⟨0, 0x9fc00, 1⟩ ⟨0x100000, 0x3ff00000, 1⟩) 0 smallMachine :=
  ⟨by decide, by decide, by decide, by decide, trivial⟩

/-- Its larger part is chosen. -/
theorem memoryInit_selects_small : ∃ z,
    selectZone (twoEntries ⟨0, 0x9fc00, 1⟩ ⟨0x100000, 0x3ff00000, 1⟩) YUI_MAGIC 0 = .ok z ∧ Selects smallMachine z := by
  obtain ⟨-, ⟨z, hz, hiff⟩, -⟩ := memoryInit_selects (.ards smallMachine_e820)
  have hnone : uptoBig (smallMachine.filter Entry.valid) = [] := by decide
  refine ⟨z, hz, hiff.mpr ⟨⟨0x100000, 0x3ff00000, 1⟩, by decide, by decide, by decide, fun o ho => ?_⟩⟩
  rw [hnone] at ho
  exact absurd ho List.not_mem_nil

/-- A part of almost 1 GiB at 1 MiB, and one of 5 GiB at 4 GiB and 1 MiB. -/
def largeMachine : List Entry := [⟨0x100000, 0x3ff00000, 1⟩, ⟨0x100100000, 0x140000000, 1⟩]

/-- **The second part is chosen, and cut**: `memory_init` returns with 1 GiB at 1 MiB, where the firmware
    has reported less. -/
theorem memoryInit_cuts : E820 (twoEntries ⟨0x100000, 0x3ff00000, 1⟩ ⟨0x100100000, 0x140000000, 1⟩) 0 largeMachine ∧
    memoryInit (twoEntries ⟨0x100000, 0x3ff00000, 1⟩ ⟨0x100100000, 0x140000000, 1⟩) YUI_MAGIC 0 =
      .ok ⟨⟨0x100000, 0x40000000⟩, 0x40100, 0x40000⟩ ∧
    ¬ Selects largeMachine ⟨0x100000, 0x40000000⟩ := by
  refine ⟨⟨by decide, by decide, by decide, by decide, trivial⟩, by decide, ?_⟩
  rintro ⟨e, hc, -, hbase, -⟩
  have hlast : chosen largeMachine = some ⟨0x100100000, 0x140000000, 1⟩ := by decide
  obtain rfl := Option.some.inj (hlast.symm.trans hc)
  exact absurd hbase (by decide)

end Yuios.Ards
