/-
  File:      Yuios/Kernel/Arena.lean
  Subject:   THE KERNEL'S HEAP: `arena_init`, `kmalloc` and `kfree` of `kernel/arena.c` over a memory of
             words, with the lists of `lib/list.c` whose nodes lie in the free blocks.

  * `Layout` -- where the linker has put `descriptors`.
  * `Heap` -- the memory, the bitmap of the kernel's pages, and the history: the runs that `kmalloc` has
    taken and not given back.
  * `OnList` -- which blocks are on the list of a descriptor; `OnList.push`, `.pop` and `.remove` say what
    the list's operations make of it, and `SameBut` that they write to its nodes only.
  * `pushBlocks_ok`, `removeBlocks_ok` -- the two loops over the blocks of a page.
-/
import Mathlib.Data.Finset.Card
import Yuios.Kernel.KernelPages
import Yuios.Lib.Chain

namespace Yuios.Paging.Arena

open Lib
open Kernel (assert)

/-! ## 1. Lists -/

/-- `prev` is the first word of a `list_node_t`, `next` the second. -/
def NEXT : Nat := 4

/-- `&list->tail`. -/
def TAIL : Nat := 8

/-- More nodes than the kernel's memory has room for. -/
def NODES : Nat := 2 ^ 25

def listInit (mem : Nat → Nat) (list : Nat) : Nat → Nat :=
  let mem := Function.update mem list 0
  let mem := Function.update mem (list + TAIL + NEXT) 0
  let mem := Function.update mem (list + NEXT) (list + TAIL)
  Function.update mem (list + TAIL) list

def listEmpty (mem : Nat → Nat) (list : Nat) : Bool := mem (list + NEXT) == list + TAIL

def listSearch (mem : Nat → Nat) (list node : Nat) : Except Stop Bool :=
  match Chain.search NEXT mem (list + TAIL) node NODES (mem (list + NEXT)) with
  | none => .error .outOfBuffer
  | some found => .ok found

def listPush (mem : Nat → Nat) (list node : Nat) : Except Stop (Nat → Nat) := do
  let found ← listSearch mem list node
  assert (!found)
  return Chain.insertAfter NEXT mem list node

def listRemove (mem : Nat → Nat) (node : Nat) : Except Stop (Nat → Nat) := do
  assert (mem node ≠ 0)
  assert (mem (node + NEXT) ≠ 0)
  return Chain.unlink NEXT mem node

def listPop (mem : Nat → Nat) (list : Nat) : Except Stop (Nat × (Nat → Nat)) := do
  assert (!listEmpty mem list)
  let node := mem (list + NEXT)
  let mem ← listRemove mem node
  return (node, mem)

/-! ## 2. Arenas -/

def DESC_COUNT : Nat := 7
def YUI_MAGIC : Nat := 0x20220205

/-- `sizeof(arena_descriptor_t)`: `total_block`, `block_size`, `free_list`. -/
def DESC_SIZE : Nat := 24
def BLOCK_SIZE_AT : Nat := 4
def FREE_LIST : Nat := 8

/-- `sizeof(arena_t)`: `desc`, `count`, `large`, `magic`. -/
def ARENA_SIZE : Nat := 16
def COUNT : Nat := 4
def LARGE : Nat := 8
def MAGIC : Nat := 12

/-- Where `descriptors` is: with the kernel's other variables, below the memory that has pages. -/
structure Layout where
  descriptors : Nat
  pos : 0 < descriptors
  aligned : descriptors % 4 = 0
  low : descriptors + DESC_COUNT * DESC_SIZE ≤ MEMORY_BASE

/-- `&descriptors[i]`. -/
def Layout.desc (L : Layout) (i : Nat) : Nat := L.descriptors + i * DESC_SIZE

structure Heap where
  mem : Nat → Nat
  map : Bitmap
  runs : List PageRun

namespace Heap

def allocKpage (h : Heap) (count : Nat) : Except Stop (Nat × Heap) := do
  let (vaddr, map) ← Paging.allocKpage h.map count
  return (vaddr, { h with map, runs := (vaddr, count) :: h.runs })

def freeKpage (h : Heap) (vaddr count : Nat) : Except Stop Heap := do
  let map ← Paging.freeKpage h.map vaddr count
  return { h with map, runs := h.runs.erase (vaddr, count) }

end Heap

/-- `memset(addr, 0, len)`. -/
def memset (mem : Nat → Nat) (addr len : Nat) : Nat → Nat := fun a =>
  if addr ≤ a ∧ a < addr + len then 0 else mem a

/-- The loop of `arena_init`. -/
def arenaInitLoop (L : Layout) : (n i block_size : Nat) → (Nat → Nat) → Nat → Nat
  | 0, _, _, mem => mem
  | n + 1, i, block_size, mem =>
    let desc := L.desc i
    let mem := Function.update mem (desc + BLOCK_SIZE_AT) block_size
    let mem := Function.update mem desc ((PAGE_SIZE - ARENA_SIZE) / block_size)
    let mem := listInit mem (desc + FREE_LIST)
    arenaInitLoop L n (i + 1) (block_size <<< 1) mem

def arenaInit (L : Layout) (mem : Nat → Nat) : Nat → Nat := arenaInitLoop L DESC_COUNT 0 16 mem

def getArenaBlock (mem : Nat → Nat) (arena idx : Nat) : Except Stop Nat := do
  assert (idx < mem (mem arena))
  return arena + ARENA_SIZE + idx * mem (mem arena + BLOCK_SIZE_AT)

/-- `block & 0xfffff000`. -/
def getBlockArena (block : Nat) : Nat := block / PAGE_SIZE * PAGE_SIZE

/-- The loop of `kmalloc` that looks for a descriptor. -/
def findDesc (L : Layout) (mem : Nat → Nat) (size : Nat) : (n i desc : Nat) → Nat
  | 0, _, desc => desc
  | n + 1, i, _ =>
    let desc := L.desc i
    if size ≤ mem (desc + BLOCK_SIZE_AT) then desc else findDesc L mem size n (i + 1) desc

/-- The loop that puts the blocks of a new arena on the list. -/
def pushBlocks (arena : Nat) : (n i : Nat) → (Nat → Nat) → Except Stop (Nat → Nat)
  | 0, _, mem => return mem
  | n + 1, i, mem => do
    let block ← getArenaBlock mem arena i
    let list := mem arena + FREE_LIST
    let found ← listSearch mem list block
    assert (!found)
    let mem ← listPush mem list block
    let found ← listSearch mem list block
    assert found
    pushBlocks arena n (i + 1) mem

/-- `if (list_empty(&desc->free_list))`: a page for the descriptor. -/
def newArena (h : Heap) (desc : Nat) : Except Stop Heap := do
  let (arena, h) ← h.allocKpage 1
  let mem := memset h.mem arena PAGE_SIZE
  let mem := Function.update mem arena desc
  let mem := Function.update mem (arena + LARGE) 0
  let mem := Function.update mem (arena + COUNT) (mem desc)
  let mem := Function.update mem (arena + MAGIC) YUI_MAGIC
  let mem ← pushBlocks arena (mem desc) 0 mem
  return { h with mem }

/-- `kmalloc` of more than 1024 bytes. -/
def largeArena (h : Heap) (size : Nat) : Except Stop (Nat × Heap) := do
  let asize := size + ARENA_SIZE
  let count := divRoundUp asize PAGE_SIZE
  let (arena, h) ← h.allocKpage count
  let mem := memset h.mem arena (count * PAGE_SIZE)
  let mem := Function.update mem (arena + LARGE) 1
  let mem := Function.update mem (arena + COUNT) count
  let mem := Function.update mem arena 0
  let mem := Function.update mem (arena + MAGIC) YUI_MAGIC
  return (arena + ARENA_SIZE, { h with mem })

/-- `kmalloc` where the list has a block. -/
def popBlock (h : Heap) (desc : Nat) : Except Stop (Nat × Heap) := do
  let (block, mem) ← listPop h.mem (desc + FREE_LIST)
  let arena := getBlockArena block
  assert (mem (arena + MAGIC) = YUI_MAGIC ∧ mem (arena + LARGE) = 0)
  let mem := Function.update mem (arena + COUNT) ((mem (arena + COUNT) + (2 ^ 32 - 1)) % 2 ^ 32)
  return (block, { h with mem })

def kmalloc (L : Layout) (h : Heap) (size : Nat) : Except Stop (Nat × Heap) :=
  if 1024 < size then
    largeArena h size
  else do
    let desc := findDesc L h.mem size DESC_COUNT 0 0
    assert (desc ≠ 0)
    let h ← if listEmpty h.mem (desc + FREE_LIST) then newArena h desc else pure h
    popBlock h desc

/-- The loop that takes the blocks of an arena off the list. -/
def removeBlocks (arena : Nat) : (n i : Nat) → (Nat → Nat) → Except Stop (Nat → Nat)
  | 0, _, mem => return mem
  | n + 1, i, mem => do
    let block ← getArenaBlock mem arena i
    let list := mem arena + FREE_LIST
    let found ← listSearch mem list block
    assert found
    let mem ← listRemove mem block
    let found ← listSearch mem list block
    assert (!found)
    removeBlocks arena n (i + 1) mem

/-- `kfree` of a block of a small arena. -/
def pushBack (h : Heap) (arena block : Nat) : Except Stop Heap := do
  let mem ← listPush h.mem (h.mem arena + FREE_LIST) block
  let mem := Function.update mem (arena + COUNT) ((mem (arena + COUNT) + 1) % 2 ^ 32)
  if mem (arena + COUNT) = mem (mem arena) then
    let mem ← removeBlocks arena (mem (mem arena)) 0 mem
    Heap.freeKpage { h with mem } arena 1
  else
    return { h with mem }

def kfree (h : Heap) (ptr : Nat) : Except Stop Heap := do
  assert (ptr ≠ 0)
  let arena := getBlockArena ptr
  assert (h.mem (arena + LARGE) = 1 ∨ h.mem (arena + LARGE) = 0)
  assert (h.mem (arena + MAGIC) = YUI_MAGIC)
  if h.mem (arena + LARGE) ≠ 0 then
    h.freeKpage arena (h.mem (arena + COUNT))
  else
    pushBack h arena ptr

/-! ## 3. The nodes -/

/-- `&descriptors[i].free_list`, which is its head node. -/
def Layout.head (L : Layout) (i : Nat) : Nat := L.desc i + FREE_LIST

def Layout.tail (L : Layout) (i : Nat) : Nat := L.head i + TAIL

/-- An address a block can have. -/
structure Inner (a : Nat) : Prop where
  low : MEMORY_BASE ≤ a
  high : a < KERNEL_MEMORY_SIZE
  aligned : a % 16 = 0
  header : a % PAGE_SIZE ≠ 0

/-- An address a node can have. -/
def Node (L : Layout) (a : Nat) : Prop := (∃ i < DESC_COUNT, a = L.head i ∨ a = L.tail i) ∨ Inner a

section Nodes

variable {L : Layout} {i j : Nat} {a b x : Nat} {F G l : List Nat} {mem mem' mem'' : Nat → Nat}

theorem head_eq : L.head i = L.descriptors + i * 24 + 8 := rfl

theorem tail_eq : L.tail i = L.descriptors + i * 24 + 16 := rfl

theorem desc_eq : L.desc i = L.descriptors + i * 24 := rfl

theorem Layout.below (L : Layout) : 0 < L.descriptors ∧ L.descriptors + 168 ≤ 0x100000 := ⟨L.pos, L.low⟩

/-- The words of two nodes never are the successor of one and the predecessor of the other. -/
theorem node_apart (ha : Node L a) (hb : Node L b) : a + NEXT ≠ b := by
  have hL := L.below
  unfold NEXT
  obtain ⟨i, hi, ha⟩ | ha := ha
  · rw [head_eq, tail_eq] at ha
    unfold DESC_COUNT at hi
    obtain ⟨j, hj, hb⟩ | hb := hb
    · rw [head_eq, tail_eq] at hb
      omega
    · have := hb.low
      unfold MEMORY_BASE at this
      omega
  · have halign := ha.aligned
    obtain ⟨j, hj, hb⟩ | hb := hb
    · have := ha.low
      unfold MEMORY_BASE at this
      rw [head_eq, tail_eq] at hb
      unfold DESC_COUNT at hj
      omega
    · have := hb.aligned
      omega

theorem node_pos (ha : Node L a) : a ≠ 0 := by
  have hL := L.below
  obtain ⟨i, -, ha⟩ | ha := ha
  · rw [head_eq, tail_eq] at ha
    omega
  · have := ha.low
    unfold MEMORY_BASE at this
    omega

theorem spaced_nodes (hn : l.Nodup) (h : ∀ a ∈ l, Node L a) : Chain.Spaced NEXT l :=
  ⟨hn, fun a ha b hb => node_apart (h a ha) (h b hb)⟩

/-- **The blocks `F` are on the free list of descriptor `i`**, in this order. -/
structure OnList (L : Layout) (i : Nat) (F : List Nat) (mem : Nat → Nat) : Prop where
  linked : Chain.Linked NEXT mem (L.head i :: F ++ [L.tail i])
  nodup : F.Nodup
  inner : ∀ b ∈ F, Inner b

/-- A word of a node of the list. -/
def Touches (L : Layout) (i : Nat) (F : List Nat) (x : Nat) : Prop :=
  ∃ a, (a = L.head i ∨ a = L.tail i ∨ a ∈ F) ∧ (x = a ∨ x = a + NEXT)

/-- Only words of the list's nodes have changed. -/
def SameBut (L : Layout) (i : Nat) (F : List Nat) (mem mem' : Nat → Nat) : Prop :=
  ∀ x, ¬ Touches L i F x → mem' x = mem x

theorem SameBut.mono (h : SameBut L i G mem mem') (hs : G ⊆ F) : SameBut L i F mem mem' :=
  fun x hx => h x fun ⟨a, ha, hw⟩ => hx ⟨a, ha.imp_right (Or.imp_right (@hs a)), hw⟩

theorem SameBut.trans (h : SameBut L i F mem mem') (h' : SameBut L i F mem' mem'') : SameBut L i F mem mem'' :=
  fun x hx => by rw [h' x hx, h x hx]

theorem sameBut_refl : SameBut L i F mem mem := fun _ _ => rfl

/-- The nodes of a list are nodes, and no two are the same. -/
theorem nodes_of (hi : i < DESC_COUNT) (hF : ∀ b ∈ F, Inner b) : ∀ a ∈ L.head i :: F ++ [L.tail i], Node L a := by
  intro a ha
  obtain ha | ha := List.mem_append.mp ha
  · obtain rfl | ha := List.mem_cons.mp ha
    · exact .inl ⟨i, hi, .inl rfl⟩
    · exact .inr (hF a ha)
  · rw [List.mem_singleton.mp ha]
    exact .inl ⟨i, hi, .inr rfl⟩

theorem Inner.not_static (ha : Inner a) (hi : i < DESC_COUNT) : a ≠ L.head i ∧ a ≠ L.tail i := by
  have hL := L.below
  have := ha.low
  unfold MEMORY_BASE at this
  unfold DESC_COUNT at hi
  rw [head_eq, tail_eq]
  omega

theorem nodup_nodes (hi : i < DESC_COUNT) (hF : ∀ b ∈ F, Inner b) (hn : F.Nodup) :
    (L.head i :: F ++ [L.tail i]).Nodup := by
  refine List.nodup_append.mpr ⟨List.nodup_cons.mpr ⟨fun h => ((hF _ h).not_static hi).1 rfl, hn⟩,
    List.nodup_singleton _, fun a ha b hb => ?_⟩
  rw [List.mem_singleton.mp hb]
  obtain rfl | ha := List.mem_cons.mp ha
  · rw [head_eq, tail_eq]
    omega
  · exact ((hF a ha).not_static hi).2

theorem OnList.spaced (h : OnList L i F mem) (hi : i < DESC_COUNT) :
    Chain.Spaced NEXT (L.head i :: F ++ [L.tail i]) :=
  spaced_nodes (nodup_nodes hi h.inner h.nodup) (nodes_of hi h.inner)

/-- There are fewer blocks than the walks have rounds. -/
theorem OnList.length_lt (h : OnList L i F mem) : F.length < NODES := by
  have hsub : F.toFinset ⊆ Finset.range KERNEL_MEMORY_SIZE := fun b hb =>
    Finset.mem_range.mpr (h.inner b (List.mem_toFinset.mp hb)).high
  have hle := Finset.card_le_card hsub
  rw [List.toFinset_card_of_nodup h.nodup, Finset.card_range] at hle
  exact Nat.lt_of_le_of_lt hle (by decide)

theorem OnList.start (h : OnList L i F mem) :
    mem (L.head i + NEXT) = Chain.start F (L.tail i) ∧ Chain.Linked NEXT mem (F ++ [L.tail i]) :=
  Chain.next_of_linked h.linked

theorem OnList.search (h : OnList L i F mem) (hi : i < DESC_COUNT) (node : Nat) :
    listSearch mem (L.head i) node = .ok (decide (node ∈ F)) := by
  obtain ⟨hnext, hlinked⟩ := h.start
  have htail : L.tail i ∉ F := fun ht => ((h.inner _ ht).not_static hi).2 rfl
  have hsearch : Chain.search NEXT mem (L.tail i) node NODES (Chain.start F (L.tail i)) = some (decide (node ∈ F)) :=
    Chain.search_linked hlinked htail h.length_lt
  rw [listSearch, hnext]
  show (match Chain.search NEXT mem (L.tail i) node NODES _ with | none => _ | some found => _) = _
  rw [hsearch]

theorem OnList.empty (h : OnList L i F mem) (hi : i < DESC_COUNT) :
    listEmpty mem (L.head i) = F.isEmpty := by
  rw [listEmpty, h.start.1]
  cases F with
  | nil => exact beq_self_eq_true _
  | cons b F => exact beq_eq_false_iff_ne.mpr ((h.inner b List.mem_cons_self).not_static hi).2

theorem touches_head (hx : ¬ Touches L i F x) : x ≠ L.head i + NEXT := fun e => hx ⟨_, .inl rfl, .inr e⟩

theorem touches_mem (hx : ¬ Touches L i F x) (hb : b ∈ F) : x ≠ b ∧ x ≠ b + NEXT :=
  ⟨fun e => hx ⟨b, .inr (.inr hb), .inl e⟩, fun e => hx ⟨b, .inr (.inr hb), .inr e⟩⟩

/-- A node that is met behind the head. -/
theorem touches_rest (hx : ¬ Touches L i F x) (hb : b ∈ F ++ [L.tail i]) : x ≠ b ∧ x ≠ b + NEXT := by
  obtain hb | hb := List.mem_append.mp hb
  · exact touches_mem hx hb
  · rw [List.mem_singleton.mp hb]
    exact ⟨fun e => hx ⟨_, .inr (.inl rfl), .inl e⟩, fun e => hx ⟨_, .inr (.inl rfl), .inr e⟩⟩

theorem start_mem (F : List Nat) (t : Nat) : Chain.start F t ∈ F ++ [t] := by
  cases F with
  | nil => exact List.mem_singleton.mpr rfl
  | cons b F => exact List.mem_cons_self

/-- **A block goes on the list**, at its front. -/
theorem OnList.push (h : OnList L i F mem) (hi : i < DESC_COUNT) (hb : Inner b) (hn : b ∉ F) :
    ∃ mem', listPush mem (L.head i) b = .ok mem' ∧ OnList L i (b :: F) mem' ∧ SameBut L i (b :: F) mem mem' := by
  have hnodup : (b :: F).Nodup := List.nodup_cons.mpr ⟨hn, h.nodup⟩
  have hinner : ∀ c ∈ b :: F, Inner c := List.forall_mem_cons.mpr ⟨hb, h.inner⟩
  have hperm : (L.head i :: b :: F ++ [L.tail i]).Perm (b :: L.head i :: (F ++ [L.tail i])) := .swap ..
  have hspaced := (spaced_nodes (nodup_nodes hi hinner hnodup) (nodes_of hi hinner)).perm hperm
  refine ⟨Chain.insertAfter NEXT mem (L.head i) b, ?_, ⟨?_, hnodup, hinner⟩, fun x hx => ?_⟩
  · rw [listPush, h.search hi, decide_eq_false hn]
    rfl
  · have hlinked := h.linked
    show Chain.Linked NEXT _ (L.head i :: b :: (F ++ [L.tail i]))
    rw [List.cons_append] at hlinked
    cases hF : F ++ [L.tail i] with
    | nil => simp at hF
    | cons c l =>
      rw [hF] at hlinked hspaced
      exact Chain.linked_insertAfter hlinked hspaced
  · have hother := touches_mem hx List.mem_cons_self
    have hrest := touches_rest hx (List.mem_cons_of_mem b (start_mem F (L.tail i)))
    refine Chain.insertAfter_other ⟨hother.1, hother.2, ?_, touches_head hx⟩ ⟨?_, ?_⟩
    · rw [h.start.1]
      exact hrest.1
    · exact node_apart (.inl ⟨i, hi, .inl rfl⟩) (.inr hb)
    · exact ((hb.not_static hi).1).symm

/-- **A block is taken off the list.** -/
theorem OnList.remove (h : OnList L i F mem) (hi : i < DESC_COUNT) (hb : b ∈ F) :
    ∃ mem', listRemove mem b = .ok mem' ∧ OnList L i (F.erase b) mem' ∧ SameBut L i F mem mem' := by
  obtain ⟨F₁, F₂, rfl⟩ := List.append_of_mem hb
  have hn₁ : b ∉ F₁ := fun h₁ => List.disjoint_of_nodup_append h.nodup h₁ List.mem_cons_self
  have herase : (F₁ ++ b :: F₂).erase b = F₁ ++ F₂ := by
    rw [List.erase_append_right _ hn₁, List.erase_cons_head]
  obtain ⟨l₁, a, hl₁⟩ : ∃ l₁ a, L.head i :: F₁ = l₁ ++ [a] :=
    ⟨_, _, (List.dropLast_concat_getLast (List.cons_ne_nil (L.head i) F₁)).symm⟩
  obtain ⟨c, l₂, hl₂⟩ : ∃ c l₂, F₂ ++ [L.tail i] = c :: l₂ := List.exists_cons_of_ne_nil (by simp)
  have hall : L.head i :: (F₁ ++ b :: F₂) ++ [L.tail i] = l₁ ++ a :: b :: c :: l₂ := by
    rw [← hl₂, List.cons_append, List.append_assoc, ← List.cons_append, hl₁, List.append_assoc]
    rfl
  have hnode {x : Nat} (hx : x ∈ l₁ ++ a :: b :: c :: l₂) : Node L x :=
    nodes_of hi h.inner x (hall ▸ hx)
  have ma : a ∈ l₁ ++ a :: b :: c :: l₂ := List.mem_append_right _ List.mem_cons_self
  have mb : b ∈ l₁ ++ a :: b :: c :: l₂ := List.mem_append_right _ (List.mem_cons_of_mem a List.mem_cons_self)
  have mc : c ∈ l₁ ++ a :: b :: c :: l₂ :=
    List.mem_append_right _ (List.mem_cons_of_mem a (List.mem_cons_of_mem b List.mem_cons_self))
  have hspaced := h.spaced hi
  have hlinked := h.linked
  rw [hall] at hspaced hlinked
  obtain ⟨-, -, hprev, hnext, -⟩ := Chain.linked_append.mp hlinked
  have hab : b ≠ a := fun e => (List.nodup_cons.mp (List.nodup_append.mp hspaced.nodup).2.1).1
    (e ▸ List.mem_cons_self)
  refine ⟨Chain.unlink NEXT mem b, ?_, ⟨?_, ?_, ?_⟩, fun x hx => ?_⟩
  · have h1 : mem b ≠ 0 := hprev ▸ node_pos (hnode ma)
    have h2 : mem (b + NEXT) ≠ 0 := hnext ▸ node_pos (hnode mc)
    rw [listRemove, decide_eq_true h1, decide_eq_true h2]
    rfl
  · rw [herase]
    have hrest : L.head i :: (F₁ ++ F₂) ++ [L.tail i] = l₁ ++ a :: c :: l₂ := by
      rw [← hl₂, List.cons_append, List.append_assoc, ← List.cons_append, hl₁, List.append_assoc]
      rfl
    rw [hrest]
    exact Chain.linked_unlink hlinked hspaced
  · exact h.nodup.erase b
  · exact fun d hd => h.inner d (List.mem_of_mem_erase hd)
  · have hb' := touches_mem hx hb
    have ha : x ≠ a + NEXT := by
      have : a ∈ L.head i :: F₁ := hl₁ ▸ List.mem_append_right _ (List.mem_singleton.mpr rfl)
      obtain rfl | ha := List.mem_cons.mp this
      · exact touches_head hx
      · exact (touches_mem hx (List.mem_append_left _ ha)).2
    have hc : x ≠ c := by
      have : c ∈ F₂ ++ [L.tail i] := hl₂ ▸ List.mem_cons_self
      refine (touches_rest hx ?_).1
      rw [List.append_assoc]
      exact List.mem_append_right _ (List.mem_cons_of_mem b this)
    exact Chain.unlink_other hprev hnext (hspaced.apart a ma b mb).symm hab ⟨hb'.1, hb'.2, hc, ha⟩

/-- **The first block of the list is taken.** -/
theorem OnList.pop (h : OnList L i (b :: F) mem) (hi : i < DESC_COUNT) :
    ∃ mem', listPop mem (L.head i) = .ok (b, mem') ∧ OnList L i F mem' ∧ SameBut L i (b :: F) mem mem' := by
  obtain ⟨mem', hr, ho, hs⟩ := h.remove hi List.mem_cons_self
  rw [List.erase_cons_head] at ho
  refine ⟨mem', ?_, ho, hs⟩
  rw [listPop, h.empty hi, h.start.1, Chain.start_cons]
  show (listRemove mem b >>= fun mem => pure (b, mem)) = _
  rw [hr]
  rfl

/-- A list rests on the words of its nodes. -/
theorem OnList.congr (h : OnList L i F mem)
    (hw : ∀ a, (a = L.head i ∨ a = L.tail i ∨ a ∈ F) → mem' a = mem a ∧ mem' (a + NEXT) = mem (a + NEXT)) :
    OnList L i F mem' := by
  refine ⟨Chain.linked_congr' h.linked fun a ha => (hw a ?_).symm, h.nodup, h.inner⟩
  obtain ha | ha := List.mem_append.mp ha
  · exact (List.mem_cons.mp ha).imp_right .inr
  · exact .inr (.inl (List.mem_singleton.mp ha))

/-- **The other lists stay.** -/
theorem OnList.other (h : OnList L j G mem) (hi : i < DESC_COUNT) (hj : j < DESC_COUNT) (hne : i ≠ j)
    (hF : ∀ b ∈ F, Inner b) (hd : List.Disjoint F G) (hs : SameBut L i F mem mem') : OnList L j G mem' := by
  have hL := L.below
  -- the nodes of the two lists are different nodes
  have hnodes {a c : Nat} (ha : a = L.head j ∨ a = L.tail j ∨ a ∈ G) (hc : c = L.head i ∨ c = L.tail i ∨ c ∈ F) :
      a ≠ c ∧ Node L a ∧ Node L c := by
    refine ⟨?_, ?_, ?_⟩
    · rintro rfl
      obtain ha | ha | ha := ha
      · obtain hc | hc | hc := hc
        · rw [head_eq] at ha hc
          omega
        · rw [head_eq] at ha
          rw [tail_eq] at hc
          omega
        · exact ((hF _ hc).not_static hj).1 ha
      · obtain hc | hc | hc := hc
        · rw [tail_eq] at ha
          rw [head_eq] at hc
          omega
        · rw [tail_eq] at ha hc
          omega
        · exact ((hF _ hc).not_static hj).2 ha
      · obtain hc | hc | hc := hc
        · exact ((h.inner _ ha).not_static hi).1 hc
        · exact ((h.inner _ ha).not_static hi).2 hc
        · exact hd hc ha
    · obtain ha | ha | ha := ha
      · exact .inl ⟨j, hj, .inl ha⟩
      · exact .inl ⟨j, hj, .inr ha⟩
      · exact .inr (h.inner _ ha)
    · obtain hc | hc | hc := hc
      · exact .inl ⟨i, hi, .inl hc⟩
      · exact .inl ⟨i, hi, .inr hc⟩
      · exact .inr (hF _ hc)
  refine h.congr fun a ha => ⟨hs a ?_, hs (a + NEXT) ?_⟩
  · rintro ⟨c, hc, e⟩
    obtain ⟨hne, hna, hnc⟩ := hnodes ha hc
    obtain e | e := e
    · exact hne e
    · exact node_apart hnc hna e.symm
  · rintro ⟨c, hc, e⟩
    obtain ⟨hne, hna, hnc⟩ := hnodes ha hc
    obtain e | e := e
    · exact node_apart hna hnc e
    · exact hne (Nat.add_right_cancel e)

end Nodes

/-! ## 4. The blocks of a page -/

/-- `desc->block_size` and `desc->total_block` of descriptor `i`. -/
def blockSize (i : Nat) : Nat := 16 <<< i

def totalBlock (i : Nat) : Nat := (PAGE_SIZE - ARENA_SIZE) / blockSize i

/-- The blocks of an arena of descriptor `i`. -/
def blockAt (p i k : Nat) : Nat := p + ARENA_SIZE + k * blockSize i

/-- Those from `k` on. -/
def blocksFrom (p i k n : Nat) : List Nat := (List.range' k n).map (blockAt p i)

/-- The page is one of the kernel's. -/
structure KernelPage (p : Nat) : Prop where
  aligned : p % PAGE_SIZE = 0
  low : MEMORY_BASE ≤ p
  high : p + PAGE_SIZE ≤ KERNEL_MEMORY_SIZE

/-- What `arena_init` leaves in the descriptors. -/
def Described (L : Layout) (mem : Nat → Nat) : Prop :=
  ∀ i < DESC_COUNT, mem (L.desc i) = totalBlock i ∧ mem (L.desc i + BLOCK_SIZE_AT) = blockSize i

section Blocks

variable {L : Layout} {i j k n p x b : Nat} {F : List Nat} {mem mem' : Nat → Nat}

theorem blockSize_eq (i : Nat) : blockSize i = 16 * 2 ^ i := Nat.shiftLeft_eq 16 i

theorem blockSize_pos (i : Nat) : 0 < blockSize i := by
  rw [blockSize_eq]
  exact Nat.mul_pos (by decide) (Nat.two_pow_pos i)

/-- A block ends in its page. -/
theorem blockAt_end (hk : k < totalBlock i) :
    blockAt p i k + blockSize i ≤ p + PAGE_SIZE ∧ p + ARENA_SIZE ≤ blockAt p i k := by
  have h : (k + 1) * blockSize i ≤ PAGE_SIZE - ARENA_SIZE := (Nat.le_div_iff_mul_le (blockSize_pos i)).mp hk
  rw [Nat.succ_mul] at h
  unfold blockAt
  unfold PAGE_SIZE ARENA_SIZE at *
  omega

theorem sixteen_le (i : Nat) : 16 ≤ blockSize i := by
  rw [blockSize_eq]
  exact Nat.le_mul_of_pos_right 16 (Nat.two_pow_pos i)

theorem KernelPage.block (hp : KernelPage p) (hk : k < totalBlock i) :
    Inner (blockAt p i k) ∧ getBlockArena (blockAt p i k) = p := by
  obtain ⟨hend, hstart⟩ := @blockAt_end i k p hk
  have hsize := sixteen_le i
  have hal : blockAt p i k % 16 = p % 16 := by
    rw [blockAt, blockSize_eq, show p + ARENA_SIZE + k * (16 * 2 ^ i) = p + 16 * (1 + k * 2 ^ i) by
      unfold ARENA_SIZE
      ring, Nat.add_mul_mod_self_left]
  obtain ⟨ha, hl, hh⟩ := hp
  unfold PAGE_SIZE ARENA_SIZE at *
  refine ⟨⟨by omega, by omega, by omega, ?_⟩, ?_⟩
  · unfold PAGE_SIZE
    omega
  · unfold getBlockArena PAGE_SIZE
    omega

theorem blockAt_lt {k k' : Nat} (h : k < k') : blockAt p i k + blockSize i ≤ blockAt p i k' := by
  have := Nat.mul_le_mul_right (blockSize i) (Nat.succ_le_of_lt h)
  rw [Nat.succ_mul] at this
  unfold blockAt
  omega

theorem blockAt_inj {k k' : Nat} (h : blockAt p i k = blockAt p i k') : k = k' := by
  have hpos := blockSize_pos i
  by_contra hne
  obtain hlt | hlt := Nat.lt_or_gt_of_ne hne
  · have := @blockAt_lt i p _ _ hlt
    omega
  · have := @blockAt_lt i p _ _ hlt
    omega

theorem mem_blocksFrom : b ∈ blocksFrom p i k n ↔ ∃ m, k ≤ m ∧ m < k + n ∧ b = blockAt p i m := by
  simp only [blocksFrom, List.mem_map, List.mem_range'_1, and_assoc, eq_comm]

theorem nodup_blocksFrom : (blocksFrom p i k n).Nodup :=
  List.Nodup.map (fun _ _ => blockAt_inj) List.nodup_range'

/-- A word of a page's first 16 bytes is no word of a node. -/
theorem not_touches_header (hi : i < DESC_COUNT) (hF : ∀ b ∈ F, Inner b) (hx : MEMORY_BASE ≤ x)
    (hx' : x % PAGE_SIZE < ARENA_SIZE) : ¬ Touches L i F x := by
  have hL := L.below
  rintro ⟨a, ha, hw⟩
  unfold MEMORY_BASE at hx
  unfold PAGE_SIZE ARENA_SIZE at hx'
  unfold NEXT at hw
  unfold DESC_COUNT at hi
  obtain ha | ha | ha := ha
  · rw [head_eq] at ha
    omega
  · rw [tail_eq] at ha
    omega
  · obtain ⟨-, -, h1, h2⟩ := hF a ha
    unfold PAGE_SIZE at h2
    omega

/-- The header of a page stays when a list changes. -/
theorem SameBut.header (hs : SameBut L i F mem mem') (hi : i < DESC_COUNT) (hF : ∀ b ∈ F, Inner b)
    (hp : KernelPage p) (hk : k < ARENA_SIZE) : mem' (p + k) = mem (p + k) := by
  have hal := hp.aligned
  have hlow := hp.low
  refine hs _ (not_touches_header hi hF (by omega) ?_)
  unfold PAGE_SIZE ARENA_SIZE at *
  omega

/-- The two counts of a descriptor are no words of a node. -/
theorem not_touches_desc (hF : ∀ b ∈ F, Inner b) (hj : j < DESC_COUNT)
    (hx : x = L.desc j ∨ x = L.desc j + BLOCK_SIZE_AT) : ¬ Touches L i F x := by
  have hL := L.below
  rintro ⟨a, ha, hw⟩
  unfold NEXT at hw
  unfold BLOCK_SIZE_AT at hx
  rw [desc_eq] at hx
  unfold DESC_COUNT at hj
  obtain ha | ha | ha := ha
  · rw [head_eq] at ha
    omega
  · rw [tail_eq] at ha
    omega
  · obtain ⟨h1, -, -, -⟩ := hF a ha
    unfold MEMORY_BASE at h1
    omega

theorem Described.sameBut (h : Described L mem) (hF : ∀ b ∈ F, Inner b) (hs : SameBut L i F mem mem') :
    Described L mem' := fun j hj => by
  rw [hs _ (not_touches_desc hF hj (.inl rfl)), hs _ (not_touches_desc hF hj (.inr rfl))]
  exact h j hj

theorem getArenaBlock_ok (hd : Described L mem) (hi : i < DESC_COUNT) (hp : mem p = L.desc i)
    (hk : k < totalBlock i) : getArenaBlock mem p k = .ok (blockAt p i k) := by
  rw [getArenaBlock, hp, (hd i hi).1, (hd i hi).2, decide_eq_true hk]
  rfl

/-- **The blocks of a new arena go on the list.** -/
theorem pushBlocks_ok (hd : Described L mem) (hi : i < DESC_COUNT) (hp : mem p = L.desc i)
    (hpage : KernelPage p) (h : OnList L i F mem) (hk : k + n ≤ totalBlock i)
    (hnew : ∀ b ∈ blocksFrom p i k n, b ∉ F) :
    ∃ mem', pushBlocks p n k mem = .ok mem' ∧ OnList L i ((blocksFrom p i k n).reverse ++ F) mem' ∧
      SameBut L i ((blocksFrom p i k n).reverse ++ F) mem mem' := by
  induction n generalizing k F mem with
  | zero => exact ⟨mem, rfl, h, sameBut_refl⟩
  | succ n ih =>
    have hcons : blocksFrom p i k (n + 1) = blockAt p i k :: blocksFrom p i (k + 1) n := rfl
    have hrev : (blocksFrom p i k (n + 1)).reverse ++ F =
        (blocksFrom p i (k + 1) n).reverse ++ blockAt p i k :: F := by
      rw [hcons, List.reverse_cons, List.append_assoc]
      rfl
    have hblock := hpage.block (i := i) (k := k) (by omega)
    have hn : blockAt p i k ∉ F := hnew _ (hcons ▸ List.mem_cons_self)
    obtain ⟨mem₁, h₁, ho₁, hs₁⟩ := h.push hi hblock.1 hn
    have hheader : mem₁ p = mem p := hs₁.header (k := 0) hi ho₁.inner hpage (by decide)
    obtain ⟨mem₂, h₂, ho₂, hs₂⟩ := ih (k := k + 1) (hd.sameBut ho₁.inner hs₁) (hheader.trans hp) ho₁ (by omega) fun b hb hbF => by
      obtain rfl | hbF := List.mem_cons.mp hbF
      · obtain ⟨m, hm, -, e⟩ := mem_blocksFrom.mp hb
        have := blockAt_inj e
        omega
      · exact hnew b (hcons ▸ List.mem_cons_of_mem _ hb) hbF
    rw [hrev]
    refine ⟨mem₂, ?_, ho₂, (hs₁.mono fun b hb => List.mem_append_right _ hb).trans hs₂⟩
    have hlist : mem p + FREE_LIST = L.head i := by rw [hp]; rfl
    have hsearch := h.search hi (blockAt p i k)
    have hsearch₁ := ho₁.search hi (blockAt p i k)
    rw [decide_eq_false hn] at hsearch
    rw [decide_eq_true List.mem_cons_self] at hsearch₁
    rw [pushBlocks, getArenaBlock_ok hd hi hp (by omega)]
    show (listSearch mem (mem p + FREE_LIST) _ >>= _) = _
    rw [hlist, hsearch]
    show (listPush mem (L.head i) _ >>= _) = _
    rw [h₁]
    show (listSearch mem₁ (L.head i) _ >>= _) = _
    rw [hsearch₁]
    exact h₂

/-- **The blocks of an arena go off the list.** -/
theorem removeBlocks_ok (hd : Described L mem) (hi : i < DESC_COUNT) (hp : mem p = L.desc i)
    (hpage : KernelPage p) (h : OnList L i F mem) (hk : k + n ≤ totalBlock i)
    (hall : ∀ b ∈ blocksFrom p i k n, b ∈ F) :
    ∃ mem', removeBlocks p n k mem = .ok mem' ∧ OnList L i (F.diff (blocksFrom p i k n)) mem' ∧
      SameBut L i F mem mem' := by
  induction n generalizing k F mem with
  | zero => exact ⟨mem, rfl, h, sameBut_refl⟩
  | succ n ih =>
    have hcons : blocksFrom p i k (n + 1) = blockAt p i k :: blocksFrom p i (k + 1) n := rfl
    have hb : blockAt p i k ∈ F := hall _ (hcons ▸ List.mem_cons_self)
    obtain ⟨mem₁, h₁, ho₁, hs₁⟩ := h.remove hi hb
    have hheader : mem₁ p = mem p := hs₁.header (k := 0) hi h.inner hpage (by decide)
    obtain ⟨mem₂, h₂, ho₂, hs₂⟩ := ih (k := k + 1) (hd.sameBut h.inner hs₁) (hheader.trans hp) ho₁ (by omega) fun b hb => by
      refine (List.Nodup.mem_erase_iff h.nodup).mpr ⟨?_, hall b (hcons ▸ List.mem_cons_of_mem _ hb)⟩
      rintro rfl
      obtain ⟨m, hm, -, e⟩ := mem_blocksFrom.mp hb
      have := blockAt_inj e
      omega
    rw [hcons, List.diff_cons]
    refine ⟨mem₂, ?_, ho₂, hs₁.trans (hs₂.mono fun b hb => List.mem_of_mem_erase hb)⟩
    have hlist : mem p + FREE_LIST = L.head i := by rw [hp]; rfl
    have hsearch := h.search hi (blockAt p i k)
    have hsearch₁ := ho₁.search hi (blockAt p i k)
    rw [decide_eq_true hb] at hsearch
    rw [decide_eq_false h.nodup.not_mem_erase] at hsearch₁
    rw [removeBlocks, getArenaBlock_ok hd hi hp (by omega)]
    show (listSearch mem (mem p + FREE_LIST) _ >>= _) = _
    rw [hlist, hsearch]
    show (listRemove mem _ >>= _) = _
    rw [h₁]
    show (listSearch mem₁ (L.head i) _ >>= _) = _
    rw [hsearch₁]
    exact h₂

end Blocks

end Yuios.Paging.Arena
