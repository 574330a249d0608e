/-
  File:      Yuios/Kernel/Lists.lean
  Subject:   `lib/list.c` ON ANY LISTS AND NODES: intrusive nodes that several lists share.

  * `Pool` -- the `list_t` and the `list_node_t` of a system, which lie apart from each other.
  * `Op`, `Op.exec` -- the calls, on a memory of words.
  * `Contents`, `Contents.next` -- the sequences the lists stand for, and what a call makes of them.
  * `Represents` -- the memory shows those sequences, forward and backward, and no node is in two.
  * `Represents.insert`, `Represents.take` -- one node in, one node out.
  * `Runs` -- calls one after another from lists just initialised, each allowed where it is made.
  * **`runs_represents`** -- every call comes to its end with the answer that the sequences give.
-/
import Mathlib.Data.Finset.Card
import Mathlib.Data.Finset.Insert
import Mathlib.Data.List.Pairwise
import Mathlib.Data.List.TakeWhile
import Yuios.Kernel.Block
import Yuios.Lib.Chain

namespace Yuios.Lists

open Lib
open Kernel (assert)

/-! ## 1. The calls -/

/-- `prev` is the first word of a `list_node_t`, `next` the second. -/
def NEXT : Nat := 4

/-- `&list->tail`, behind `list->head`. -/
def TAIL : Nat := 8

/-- The size of the address space, which no list fills. -/
def ADDRESSES : Nat := 2 ^ 32

/-- The 32-bit word at each address. -/
abbrev Memory := Nat → Nat

def listInit (mem : Memory) (list : Nat) : Memory :=
  let mem := Function.update mem list 0
  let mem := Function.update mem (list + TAIL + NEXT) 0
  let mem := Function.update mem (list + NEXT) (list + TAIL)
  Function.update mem (list + TAIL) list

def listEmpty (mem : Memory) (list : Nat) : Bool := mem (list + NEXT) == list + TAIL

/-- A walk that meets no `tail` has no end. -/
def walked {α : Type} : Option α → Except Stop α
  | none => .error .outOfBuffer
  | some a => .ok a

def listSearch (mem : Memory) (list node : Nat) : Except Stop Bool :=
  walked (Chain.search NEXT mem (list + TAIL) node ADDRESSES (mem (list + NEXT)))

def listSize (mem : Memory) (list : Nat) : Except Stop Nat :=
  walked (Chain.size NEXT mem (list + TAIL) 32 ADDRESSES (mem (list + NEXT)) 0)

def listPush (mem : Memory) (list node : Nat) : Except Stop Memory := do
  let found ← listSearch mem list node
  assert (!found)
  return Chain.insertAfter NEXT mem list node

def listPushback (mem : Memory) (list node : Nat) : Except Stop Memory := do
  let found ← listSearch mem list node
  assert (!found)
  return Chain.insertBefore NEXT mem (list + TAIL) node

def listRemove (mem : Memory) (node : Nat) : Except Stop Memory := do
  assert (mem node ≠ 0)
  assert (mem (node + NEXT) ≠ 0)
  return Chain.unlink NEXT mem node

def listPop (mem : Memory) (list : Nat) : Except Stop (Nat × Memory) := do
  assert (!listEmpty mem list)
  let node := mem (list + NEXT)
  let mem ← listRemove mem node
  return (node, mem)

def listPopback (mem : Memory) (list : Nat) : Except Stop (Nat × Memory) := do
  assert (!listEmpty mem list)
  let node := mem (list + TAIL)
  let mem ← listRemove mem node
  return (node, mem)

/-- `(int)node + offset`. -/
def keyAddr (node : Nat) (offset : Int) : Nat := ((node + offset) % ADDRESSES).toNat

/-- `element_node_key(node, offset)`. -/
def elementNodeKey (mem : Memory) (node : Nat) (offset : Int) : Int :=
  (BitVec.ofNat 32 (mem (keyAddr node offset))).toInt

/-- `list_insert_sort`: before the first node with a greater key. -/
def listInsertSort (mem : Memory) (list node : Nat) (offset : Int) : Except Stop Memory := do
  let key := elementNodeKey mem node offset
  let anchor ← walked (Chain.find NEXT mem (list + TAIL) (fun ptr => elementNodeKey mem ptr offset > key)
    ADDRESSES (mem (list + NEXT)))
  assert (mem (node + NEXT) = 0)
  assert (mem node = 0)
  return Chain.insertBefore NEXT mem anchor node

/-- The calls, and a store of other code. -/
inductive Op where
  | push (list node : Nat)
  | pushback (list node : Nat)
  | pop (list : Nat)
  | popback (list : Nat)
  | remove (node : Nat)
  | insertSort (list node : Nat) (offset : Int)
  | write (x v : Nat)
  deriving DecidableEq, Repr

/-- The call on a memory: what it answers, and the memory after it. -/
def Op.exec (mem : Memory) : Op → Except Stop (Option Nat × Memory)
  | push list node => (none, ·) <$> listPush mem list node
  | pushback list node => (none, ·) <$> listPushback mem list node
  | pop list => (fun r => (some r.1, r.2)) <$> listPop mem list
  | popback list => (fun r => (some r.1, r.2)) <$> listPopback mem list
  | remove node => (none, ·) <$> listRemove mem node
  | insertSort list node offset => (none, ·) <$> listInsertSort mem list node offset
  | write x v => .ok (none, Function.update mem x v)

/-! ## 2. Lists and nodes in memory -/

/-- The lists and the nodes of a system: none is at NULL, and no two overlap. -/
structure Pool where
  lists : List Nat
  nodes : Set Nat
  listRoom : ∀ l ∈ lists, 0 < l ∧ l + 16 ≤ ADDRESSES
  nodeRoom : ∀ n ∈ nodes, 0 < n ∧ n + 8 ≤ ADDRESSES
  listsApart : lists.Pairwise fun l l' => l + 16 ≤ l' ∨ l' + 16 ≤ l
  nodesApart : ∀ n ∈ nodes, ∀ m ∈ nodes, n ≠ m → n + 8 ≤ m ∨ m + 8 ≤ n
  apart : ∀ l ∈ lists, ∀ n ∈ nodes, l + 16 ≤ n ∨ n + 8 ≤ l

namespace Pool

variable (P : Pool)

/-- The two words of a `list_node_t`: a node, or the head or the tail of a list. -/
def Cell (a : Nat) : Prop := (∃ l ∈ P.lists, a = l ∨ a = l + TAIL) ∨ a ∈ P.nodes

/-- The four bytes at `x` are no part of a cell. -/
def Outside (x : Nat) : Prop := ∀ a, P.Cell a → x + 4 ≤ a ∨ a + 8 ≤ x

/-- The key at this offset is a member of the element beside its node. -/
def KeyOffset (offset : Int) : Prop := ∀ n ∈ P.nodes, P.Outside (keyAddr n offset)

variable {P} {a b l l' : Nat}

theorem lists_apart (hl : l ∈ P.lists) (hl' : l' ∈ P.lists) (hne : l ≠ l') : l + 16 ≤ l' ∨ l' + 16 ≤ l := by
  have : Std.Symm fun l l' : Nat => l + 16 ≤ l' ∨ l' + 16 ≤ l := ⟨fun _ _ h => h.symm⟩
  exact P.listsApart.forall hl hl' hne

theorem Cell.apart (ha : P.Cell a) (hb : P.Cell b) (hne : a ≠ b) : a + 8 ≤ b ∨ b + 8 ≤ a := by
  rcases ha with ⟨l, hl, ha⟩ | ha
  · rcases hb with ⟨l', hl', hb⟩ | hb
    · by_cases e : l = l'
      · subst e
        unfold TAIL at ha hb
        omega
      · have := lists_apart hl hl' e
        unfold TAIL at ha hb
        omega
    · have := P.apart l hl b hb
      unfold TAIL at ha
      omega
  · rcases hb with ⟨l', hl', hb⟩ | hb
    · have := P.apart l' hl' a ha
      unfold TAIL at hb
      omega
    · exact P.nodesApart a ha b hb hne

theorem Cell.bounds (ha : P.Cell a) : 0 < a ∧ a + 8 ≤ ADDRESSES := by
  rcases ha with ⟨l, hl, ha⟩ | ha
  · have := P.listRoom l hl
    unfold TAIL at ha
    omega
  · exact P.nodeRoom a ha

theorem cell_head (hl : l ∈ P.lists) : P.Cell l := .inl ⟨l, hl, .inl rfl⟩

theorem cell_tail (hl : l ∈ P.lists) : P.Cell (l + TAIL) := .inl ⟨l, hl, .inr rfl⟩

/-- No node is the head or the tail of a list. -/
theorem node_ne (hl : l ∈ P.lists) (ha : a ∈ P.nodes) : a ≠ l ∧ a ≠ l + TAIL := by
  have := P.apart l hl a ha
  unfold TAIL
  omega

theorem spaced {L : List Nat} (hn : L.Nodup) (h : ∀ a ∈ L, P.Cell a) : Chain.Spaced NEXT L := by
  refine ⟨hn, fun a ha b hb e => ?_⟩
  by_cases hab : a = b
  · unfold NEXT at e
    omega
  · have := (h a ha).apart (h b hb) hab
    unfold NEXT at e
    omega

/-- The words of a cell are no words of other cells. -/
theorem cell_apart {L : List Nat} (ha : P.Cell a) (h : ∀ b ∈ L, P.Cell b ∧ a ≠ b) :
    Chain.Apart NEXT L a ∧ Chain.Apart NEXT L (a + NEXT) := by
  constructor <;> intro b hb
  · have := ha.apart (h b hb).1 (h b hb).2
    unfold NEXT
    omega
  · have := ha.apart (h b hb).1 (h b hb).2
    unfold NEXT
    omega

theorem outside_apart {L : List Nat} {x : Nat} (hx : P.Outside x) (h : ∀ b ∈ L, P.Cell b) :
    Chain.Apart NEXT L x := by
  intro b hb
  have := hx b (h b hb)
  unfold NEXT
  omega

/-- A list of nodes is shorter than the address space. -/
theorem length_lt {F : List Nat} (hn : F.Nodup) (hF : ∀ n ∈ F, n ∈ P.nodes) : F.length < ADDRESSES := by
  have hsub : insert 0 F.toFinset ⊆ Finset.range ADDRESSES := by
    intro n hmem
    rw [Finset.mem_range]
    rcases Finset.mem_insert.mp hmem with rfl | hmem
    · exact Nat.two_pow_pos 32
    · have := P.nodeRoom n (hF n (List.mem_toFinset.mp hmem))
      omega
  have h0 : 0 ∉ F.toFinset := fun h => by
    have := (P.nodeRoom 0 (hF 0 (List.mem_toFinset.mp h))).1
    omega
  have hle := Finset.card_le_card hsub
  rw [Finset.card_insert_of_notMem h0, List.toFinset_card_of_nodup hn, Finset.card_range] at hle
  exact hle

end Pool

/-! ## 3. What the lists stand for -/

/-- The sequence of each list, and the nodes removed and not put in again. -/
structure Contents where
  seq : Nat → List Nat
  removed : Finset Nat

/-- Empty lists. -/
def Contents.empty : Contents := ⟨fun _ => [], ∅⟩

namespace Contents

variable (A : Contents)

/-- A list gets a sequence with `node` in it. -/
def put (list node : Nat) (F : List Nat) : Contents := ⟨Function.update A.seq list F, A.removed.erase node⟩

/-- A list gets a sequence without `node`. -/
def took (list node : Nat) (F : List Nat) : Contents := ⟨Function.update A.seq list F, insert node A.removed⟩

/-- A sequence with `node` behind the nodes in front whose keys are not greater. -/
def inserted (key : Nat → Int) (node : Nat) (F : List Nat) : List Nat :=
  F.takeWhile (fun a => key a ≤ key node) ++ node :: F.dropWhile fun a => key a ≤ key node

/-- What a call makes of the sequences. -/
def next (mem : Memory) : Op → Contents
  | .push list node => A.put list node (node :: A.seq list)
  | .pushback list node => A.put list node (A.seq list ++ [node])
  | .pop list => A.took list ((A.seq list).head?.getD 0) (A.seq list).tail
  | .popback list => A.took list ((A.seq list).getLast?.getD 0) (A.seq list).dropLast
  | .remove node => ⟨fun list => (A.seq list).erase node, insert node A.removed⟩
  | .insertSort list node offset =>
    A.put list node (inserted (fun a => elementNodeKey mem a offset) node (A.seq list))
  | .write _ _ => A

/-- What a call answers. -/
def answer : Op → Option Nat
  | .pop list => (A.seq list).head?
  | .popback list => (A.seq list).getLast?
  | _ => none

end Contents

/-- **The memory shows the sequences.** -/
structure Represents (P : Pool) (mem : Memory) (A : Contents) : Prop where
  linked : ∀ l ∈ P.lists, Chain.Linked NEXT mem (l :: A.seq l ++ [l + TAIL])
  nodup : ∀ l ∈ P.lists, (A.seq l).Nodup
  inside : ∀ l ∈ P.lists, ∀ n ∈ A.seq l, n ∈ P.nodes
  once : ∀ l ∈ P.lists, ∀ l' ∈ P.lists, l ≠ l' → List.Disjoint (A.seq l) (A.seq l')
  others : ∀ l ∉ P.lists, A.seq l = []
  cleared : ∀ n ∈ A.removed, n ∈ P.nodes ∧ mem n = 0 ∧ mem (n + NEXT) = 0 ∧ ∀ l, n ∉ A.seq l

/-- A node goes into a list only if it is in none, and with both links NULL into a sorted one; a node
    is removed only from a list, and taken only from a list that has nodes. -/
def Allowed (P : Pool) (mem : Memory) (A : Contents) : Op → Prop
  | .push list node | .pushback list node => list ∈ P.lists ∧ node ∈ P.nodes ∧ ∀ l, node ∉ A.seq l
  | .pop list | .popback list => list ∈ P.lists ∧ A.seq list ≠ []
  | .remove node => ∃ l ∈ P.lists, node ∈ A.seq l
  | .insertSort list node offset =>
    list ∈ P.lists ∧ node ∈ P.nodes ∧ mem node = 0 ∧ mem (node + NEXT) = 0 ∧ P.KeyOffset offset
  | .write x _ => P.Outside x

/-- **Calls one after another**, from lists just initialised. -/
inductive Runs (P : Pool) : Memory → Contents → Prop
  | start (mem : Memory) : Runs P (P.lists.foldl listInit mem) .empty
  | step {mem mem' : Memory} {A : Contents} {op : Op} {r : Option Nat} (h : Runs P mem A)
      (ha : Allowed P mem A op) (he : op.exec mem = .ok (r, mem')) : Runs P mem' (A.next mem op)

/-! ## 4. One node in, one node out -/

section Steps

variable {P : Pool} {mem mem' : Memory} {A : Contents} {l l' list node n : Nat} {F F₁ F₂ : List Nat}

theorem nodup_sentinels (hl : l ∈ P.lists) (hF : F.Nodup) (hin : ∀ n ∈ F, n ∈ P.nodes) :
    (l :: F ++ [l + TAIL]).Nodup := by
  refine List.nodup_append.mpr ⟨List.nodup_cons.mpr ⟨fun h => (P.node_ne hl (hin l h)).1 rfl, hF⟩,
    List.nodup_singleton _, fun a ha b hb => ?_⟩
  rw [List.mem_singleton.mp hb]
  rcases List.mem_cons.mp ha with rfl | ha
  · exact Nat.ne_of_lt (Nat.lt_add_of_pos_right (by decide))
  · exact (P.node_ne hl (hin a ha)).2

theorem cells (hl : l ∈ P.lists) (hin : ∀ n ∈ F, n ∈ P.nodes) : ∀ a ∈ l :: F ++ [l + TAIL], P.Cell a := by
  intro a ha
  rcases List.mem_append.mp ha with ha | ha
  · rcases List.mem_cons.mp ha with rfl | ha
    · exact P.cell_head hl
    · exact .inr (hin a ha)
  · rw [List.mem_singleton.mp ha]
    exact P.cell_tail hl

/-- A node that is not in a list is none of its cells. -/
theorem not_cell (hl : l ∈ P.lists) (hn : node ∈ P.nodes) (hF : node ∉ F) :
    ∀ a ∈ l :: F ++ [l + TAIL], node ≠ a := by
  rintro a ha rfl
  rcases List.mem_append.mp ha with ha | ha
  · rcases List.mem_cons.mp ha with rfl | ha
    · exact (P.node_ne hl hn).1 rfl
    · exact hF ha
  · exact (P.node_ne hl hn).2 (List.mem_singleton.mp ha)

/-- The cells of two lists with different nodes are different. -/
theorem cells_ne (hl : l ∈ P.lists) (hl' : l' ∈ P.lists) (hne : l ≠ l') (hin : ∀ n ∈ F₁, n ∈ P.nodes)
    (hin' : ∀ n ∈ F₂, n ∈ P.nodes) (hd : List.Disjoint F₁ F₂) {a b : Nat} (ha : a ∈ l :: F₁ ++ [l + TAIL])
    (hb : b ∈ l' :: F₂ ++ [l' + TAIL]) : a ≠ b := by
  have hlists := P.lists_apart hl hl' hne
  rcases List.mem_append.mp ha with ha | ha
  · rcases List.mem_cons.mp ha with rfl | ha
    · rcases List.mem_append.mp hb with hb | hb
      · rcases List.mem_cons.mp hb with rfl | hb
        · exact hne
        · exact (P.node_ne hl (hin' b hb)).1.symm
      · rw [List.mem_singleton.mp hb]
        unfold TAIL
        omega
    · exact not_cell hl' (hin a ha) (fun h => hd ha h) b hb
  · rw [List.mem_singleton.mp ha]
    rcases List.mem_append.mp hb with hb | hb
    · rcases List.mem_cons.mp hb with rfl | hb
      · unfold TAIL
        omega
      · exact (P.node_ne hl (hin' b hb)).2.symm
    · rw [List.mem_singleton.mp hb]
      unfold TAIL
      omega

namespace Represents

theorem spaced (h : Represents P mem A) (hl : l ∈ P.lists) : Chain.Spaced NEXT (l :: A.seq l ++ [l + TAIL]) :=
  P.spaced (nodup_sentinels hl (h.nodup l hl) (h.inside l hl)) (cells hl (h.inside l hl))

/-- The nodes of no list are in none. -/
theorem in_none (h : Represents P mem A) (hn : ∀ l ∈ P.lists, n ∉ A.seq l) (l : Nat) : n ∉ A.seq l := by
  by_cases hl : l ∈ P.lists
  · exact hn l hl
  · rw [h.others l hl]
    exact List.not_mem_nil

/-- A node in one list is in no other. -/
theorem in_one (h : Represents P mem A) (hl : list ∈ P.lists) (hn : node ∈ A.seq list) (hne : l ≠ list) :
    node ∉ A.seq l := by
  by_cases hl' : l ∈ P.lists
  · exact fun hmem => h.once l hl' list hl hne hmem hn
  · rw [h.others l hl']
    exact List.not_mem_nil

theorem start (h : Represents P mem A) (hl : l ∈ P.lists) :
    mem (l + NEXT) = Chain.start (A.seq l) (l + TAIL) ∧ Chain.Linked NEXT mem (A.seq l ++ [l + TAIL]) :=
  Chain.next_of_linked (h.linked l hl)

theorem tail_notMem (h : Represents P mem A) (hl : l ∈ P.lists) : l + TAIL ∉ A.seq l :=
  fun ht => (P.node_ne hl (h.inside l hl _ ht)).2 rfl

theorem length_lt (h : Represents P mem A) (hl : l ∈ P.lists) : (A.seq l).length < ADDRESSES :=
  P.length_lt (h.nodup l hl) (h.inside l hl)

/-- Other sequences that agree outside `list`. -/
theorem others_update (h : Represents P mem A) (hl : list ∈ P.lists) :
    ∀ l ∉ P.lists, Function.update A.seq list F l = [] := by
  intro l hl'
  have hne : l ≠ list := fun e => hl' (e ▸ hl)
  rw [Function.update_of_ne hne]
  exact h.others l hl'

/-- A changed list and the others, which rest on words that have not changed. -/
theorem update (h : Represents P mem A) (hl : list ∈ P.lists)
    (hlinked : Chain.Linked NEXT mem' (list :: F ++ [list + TAIL])) (hnodup : F.Nodup)
    (hin : ∀ n ∈ F, n ∈ P.nodes) (hd : ∀ l ≠ list, List.Disjoint F (A.seq l))
    (hsame : ∀ l ∈ P.lists, l ≠ list → ∀ a ∈ l :: A.seq l ++ [l + TAIL],
      mem' (a + NEXT) = mem (a + NEXT) ∧ mem' a = mem a)
    {R : Finset Nat} (hcleared : ∀ n ∈ R, n ∈ P.nodes ∧ mem' n = 0 ∧ mem' (n + NEXT) = 0 ∧
      ∀ l, n ∉ Function.update A.seq list F l) :
    Represents P mem' ⟨Function.update A.seq list F, R⟩ := by
  refine ⟨fun l hl' => ?_, fun l hl' => ?_, fun l hl' => ?_, fun l hl' l' hl'' hne => ?_, h.others_update hl,
    hcleared⟩
  · by_cases e : l = list
    · subst e
      simpa using hlinked
    · simp only [Function.update_of_ne e]
      exact Chain.linked_congr' (h.linked l hl') (hsame l hl' e)
  · by_cases e : l = list
    · subst e
      simpa using hnodup
    · simpa only [Function.update_of_ne e] using h.nodup l hl'
  · by_cases e : l = list
    · subst e
      simpa using hin
    · simpa only [Function.update_of_ne e] using h.inside l hl'
  · show List.Disjoint (Function.update A.seq list F l) (Function.update A.seq list F l')
    by_cases e : l = list
    · subst e
      rw [Function.update_self, Function.update_of_ne hne.symm]
      exact hd l' hne.symm
    · by_cases e' : l' = list
      · subst e'
        rw [Function.update_self, Function.update_of_ne e]
        exact (hd l e).symm
      · rw [Function.update_of_ne e, Function.update_of_ne e']
        exact h.once l hl' l' hl'' hne

/-- **A node goes in** before the first of `F₂`. -/
theorem insert (h : Represents P mem A) (hl : list ∈ P.lists) (hn : node ∈ P.nodes)
    (hno : ∀ l, node ∉ A.seq l) (hF : A.seq list = F₁ ++ F₂) :
    Represents P (Chain.insertBefore NEXT mem (Chain.start F₂ (list + TAIL)) node)
        (A.put list node (F₁ ++ node :: F₂)) ∧
      ∀ x, P.Outside x → Chain.insertBefore NEXT mem (Chain.start F₂ (list + TAIL)) node x = mem x := by
  have hlinked := h.linked list hl
  have hold := nodup_sentinels hl (h.nodup list hl) (h.inside list hl)
  have hcells := cells hl (h.inside list hl)
  have hnot := not_cell hl hn (hno list)
  have hmem : ∀ c, c ∈ F₁ ++ node :: F₂ ↔ c = node ∨ c ∈ A.seq list := fun c => by
    rw [hF]
    simp only [List.mem_append, List.mem_cons]
    tauto
  have hin : ∀ c ∈ F₁ ++ node :: F₂, c ∈ P.nodes := fun c hc => by
    rcases (hmem c).mp hc with rfl | hc
    · exact hn
    · exact h.inside list hl c hc
  have hnodup : (F₁ ++ node :: F₂).Nodup := by
    refine (List.perm_middle.nodup_iff).mpr (List.nodup_cons.mpr ⟨?_, ?_⟩)
    · rw [← hF]
      exact hno list
    · rw [← hF]
      exact h.nodup list hl
  have hall : ∀ a ∈ node :: (list :: A.seq list ++ [list + TAIL]), P.Cell a :=
    List.forall_mem_cons.mpr ⟨.inr hn, hcells⟩
  have hspaced : Chain.Spaced NEXT (node :: (list :: A.seq list ++ [list + TAIL])) :=
    P.spaced (List.nodup_cons.mpr ⟨fun hc => hnot node hc rfl, hold⟩) hall
  rw [hF] at hlinked hspaced hall
  obtain ⟨hnew, hframe⟩ := Chain.linked_insertBefore hlinked hspaced
  have hdis : ∀ l ≠ list, List.Disjoint (F₁ ++ node :: F₂) (A.seq l) := fun l hne c hc hc' => by
    rcases (hmem c).mp hc with rfl | hc
    · exact hno l hc'
    · exact h.in_one hl hc hne hc'
  have hsame : ∀ c, P.Cell c → c ≠ node → (∀ a ∈ list :: (F₁ ++ F₂) ++ [list + TAIL], c ≠ a) →
      Chain.insertBefore NEXT mem (Chain.start F₂ (list + TAIL)) node (c + NEXT) = mem (c + NEXT) ∧
        Chain.insertBefore NEXT mem (Chain.start F₂ (list + TAIL)) node c = mem c := fun c hc hcn hca => by
    have hap := P.cell_apart hc (L := node :: (list :: (F₁ ++ F₂) ++ [list + TAIL])) fun b hb =>
      ⟨hall b hb, (List.forall_mem_cons.mpr ⟨hcn, hca⟩) b hb⟩
    exact ⟨hframe _ hap.2, hframe _ hap.1⟩
  refine ⟨h.update hl hnew hnodup hin hdis (fun l hl' hne a ha => ?_) fun n hR => ?_, fun x hx => ?_⟩
  · refine hsame a (cells hl' (h.inside l hl') a ha) (not_cell hl' hn (hno l) a ha).symm fun b hb => ?_
    have hd : List.Disjoint (A.seq l) (F₁ ++ F₂) := by
      rw [← hF]
      exact h.once l hl' list hl hne
    exact cells_ne hl' hl hne (h.inside l hl') (hF ▸ h.inside list hl) hd ha hb
  · obtain ⟨hne, hR⟩ := Finset.mem_erase.mp hR
    obtain ⟨hn', h0, h0', hnone⟩ := h.cleared n hR
    have hcell := hsame n (.inr hn') hne (not_cell hl hn' (hF ▸ hnone list))
    refine ⟨hn', hcell.2.trans h0, hcell.1.trans h0', fun l => ?_⟩
    by_cases e : l = list
    · subst e
      rw [Function.update_self, hmem]
      exact not_or.mpr ⟨hne, hnone l⟩
    · rw [Function.update_of_ne e]
      exact hnone l
  · exact hframe x (P.outside_apart hx hall)

/-- A node in a list has links. -/
theorem links (h : Represents P mem A) (hl : list ∈ P.lists) (hn : node ∈ A.seq list) :
    mem node ≠ 0 ∧ mem (node + NEXT) ≠ 0 := by
  have hlinked := h.linked list hl
  have hspaced := h.spaced hl
  have hcells := cells hl (h.inside list hl)
  obtain ⟨F₁, F₂, hF⟩ := List.append_of_mem hn
  rw [hF] at hlinked hspaced hcells
  obtain ⟨-, -, -, -, hprev, hnext⟩ := Chain.linked_erase hlinked hspaced
  have hall : list :: (F₁ ++ node :: F₂) ++ [list + TAIL] = (list :: F₁) ++ node :: (F₂ ++ [list + TAIL]) := by
    simp
  rw [hall] at hcells
  constructor
  · exact Nat.ne_of_gt (hcells _ (List.mem_append_left _ hprev)).bounds.1
  · exact Nat.ne_of_gt (hcells _ (List.mem_append_right _ (List.mem_cons_of_mem node hnext))).bounds.1

/-- **A node comes out**, and its links are cleared. -/
theorem take (h : Represents P mem A) (hl : list ∈ P.lists) (hF : A.seq list = F₁ ++ node :: F₂) :
    listRemove mem node = .ok (Chain.unlink NEXT mem node) ∧
      Represents P (Chain.unlink NEXT mem node) (A.took list node (F₁ ++ F₂)) := by
  have hlinked := h.linked list hl
  have hspaced := h.spaced hl
  have hcells := cells hl (h.inside list hl)
  have hmem : node ∈ A.seq list := hF ▸ List.mem_append_right F₁ List.mem_cons_self
  have hn := h.inside list hl node hmem
  have hnodup := h.nodup list hl
  rw [hF] at hlinked hspaced hcells hnodup
  obtain ⟨hnew, hframe, h0, h0', -⟩ := Chain.linked_erase hlinked hspaced
  obtain ⟨hnot, hrest⟩ := List.nodup_cons.mp (List.perm_middle.nodup_iff.mp hnodup)
  have hsub : ∀ c ∈ F₁ ++ F₂, c ∈ A.seq list := fun c hc => by
    rw [hF]
    exact (List.sublist_append_right [node] F₂).append_left F₁ |>.mem hc
  have hsame : ∀ c, P.Cell c → (∀ a ∈ list :: (F₁ ++ node :: F₂) ++ [list + TAIL], c ≠ a) →
      Chain.unlink NEXT mem node (c + NEXT) = mem (c + NEXT) ∧ Chain.unlink NEXT mem node c = mem c :=
    fun c hc hca => by
      have hap := P.cell_apart hc fun b hb => ⟨hcells b hb, hca b hb⟩
      exact ⟨hframe _ hap.2, hframe _ hap.1⟩
  have hnone : ∀ l, node ∉ Function.update A.seq list (F₁ ++ F₂) l := fun l => by
    by_cases e : l = list
    · subst e
      rw [Function.update_self]
      exact hnot
    · rw [Function.update_of_ne e]
      exact h.in_one hl hmem e
  refine ⟨?_, h.update hl hnew hrest (fun c hc => h.inside list hl c (hsub c hc))
    (fun l hne c hc hc' => h.in_one hl (hsub c hc) hne hc') (fun l hl' hne a ha => ?_) fun n hR => ?_⟩
  · obtain ⟨h1, h2⟩ := h.links hl hmem
    rw [listRemove, decide_eq_true h1, decide_eq_true h2]
    rfl
  · refine hsame a (cells hl' (h.inside l hl') a ha) fun b hb => ?_
    rw [← hF] at hb
    exact cells_ne hl' hl hne (h.inside l hl') (h.inside list hl) (h.once l hl' list hl hne) ha hb
  · rcases Finset.mem_insert.mp hR with rfl | hR
    · exact ⟨hn, h0, h0', hnone⟩
    · obtain ⟨hn', hz, hz', hno⟩ := h.cleared n hR
      have hcell := hsame n (.inr hn') (hF ▸ not_cell hl hn' (hno list))
      refine ⟨hn', hcell.2.trans hz, hcell.1.trans hz', fun l => ?_⟩
      by_cases e : l = list
      · subst e
        rw [Function.update_self]
        exact fun hc => hno l (hsub n hc)
      · rw [Function.update_of_ne e]
        exact hno l

/-- A store elsewhere. -/
theorem store (h : Represents P mem A) {x v : Nat} (hx : P.Outside x) :
    Represents P (Function.update mem x v) A := by
  have hcell : ∀ a, P.Cell a → Function.update mem x v (a + NEXT) = mem (a + NEXT) ∧
      Function.update mem x v a = mem a := fun a ha => by
    have := hx a ha
    unfold NEXT
    exact ⟨Function.update_of_ne (by omega) .., Function.update_of_ne (by omega) ..⟩
  refine ⟨fun l hl => ?_, h.nodup, h.inside, h.once, h.others, fun n hn => ?_⟩
  · exact Chain.linked_congr' (h.linked l hl) fun a ha => hcell a (cells hl (h.inside l hl) a ha)
  · obtain ⟨hn', h0, h0', hno⟩ := h.cleared n hn
    obtain ⟨e, e'⟩ := hcell n (.inr hn')
    exact ⟨hn', e'.trans h0, e.trans h0', hno⟩

/-! ## 5. What the calls answer -/

theorem search (h : Represents P mem A) (hl : l ∈ P.lists) (node : Nat) :
    listSearch mem l node = .ok (decide (node ∈ A.seq l)) := by
  obtain ⟨hnext, hlinked⟩ := h.start hl
  have hsearch : Chain.search NEXT mem (l + TAIL) node ADDRESSES (Chain.start (A.seq l) (l + TAIL)) =
      some (decide (node ∈ A.seq l)) := Chain.search_linked hlinked (h.tail_notMem hl) (h.length_lt hl)
  rw [listSearch, hnext, hsearch]
  rfl

theorem size (h : Represents P mem A) (hl : l ∈ P.lists) : listSize mem l = .ok (A.seq l).length := by
  obtain ⟨hnext, hlinked⟩ := h.start hl
  have hsize : Chain.size NEXT mem (l + TAIL) 32 ADDRESSES (Chain.start (A.seq l) (l + TAIL)) 0 =
      some ((0 + (A.seq l).length) % 2 ^ 32) :=
    Chain.size_linked hlinked (h.tail_notMem hl) (h.length_lt hl) (Nat.two_pow_pos 32)
  have hlt : (A.seq l).length < 2 ^ 32 := h.length_lt hl
  rw [listSize, hnext, hsize, Nat.zero_add, Nat.mod_eq_of_lt hlt]
  rfl

theorem nonempty (h : Represents P mem A) (hl : l ∈ P.lists) (hne : A.seq l ≠ []) : listEmpty mem l = false := by
  rw [listEmpty, (h.start hl).1]
  cases hF : A.seq l with
  | nil => exact absurd hF hne
  | cons b F =>
    have hb : b ∈ A.seq l := hF ▸ List.mem_cons_self
    exact beq_eq_false_iff_ne.mpr (P.node_ne hl (h.inside l hl b hb)).2

theorem push (h : Represents P mem A) (hl : l ∈ P.lists) (hn : node ∈ P.nodes) (hno : ∀ l, node ∉ A.seq l) :
    ∃ mem', listPush mem l node = .ok mem' ∧ Represents P mem' (A.put l node (node :: A.seq l)) := by
  have hF : A.seq l = [] ++ A.seq l := (List.nil_append _).symm
  obtain ⟨hkept, -⟩ := h.insert hl hn hno hF
  have hspaced := P.spaced (List.nodup_cons.mpr
      ⟨fun hc => not_cell hl hn (hno l) node hc rfl, nodup_sentinels hl (h.nodup l hl) (h.inside l hl)⟩)
    (List.forall_mem_cons.mpr ⟨.inr hn, cells hl (h.inside l hl)⟩)
  refine ⟨_, ?_, hkept⟩
  rw [listPush, h.search hl, decide_eq_false (hno l), ← Chain.insertAfter_head (h.linked l hl) hspaced]
  rfl

theorem pushback (h : Represents P mem A) (hl : l ∈ P.lists) (hn : node ∈ P.nodes) (hno : ∀ l, node ∉ A.seq l) :
    ∃ mem', listPushback mem l node = .ok mem' ∧ Represents P mem' (A.put l node (A.seq l ++ [node])) := by
  have hF : A.seq l = A.seq l ++ [] := (List.append_nil _).symm
  obtain ⟨hkept, -⟩ := h.insert hl hn hno hF
  refine ⟨_, ?_, hkept⟩
  rw [listPushback, h.search hl, decide_eq_false (hno l)]
  rfl

theorem pop (h : Represents P mem A) (hl : l ∈ P.lists) (hF : A.seq l = node :: F) :
    ∃ mem', listPop mem l = .ok (node, mem') ∧ Represents P mem' (A.took l node F) := by
  have hF' : A.seq l = [] ++ node :: F := hF
  obtain ⟨hremove, hkept⟩ := h.take hl hF'
  have hfirst : mem (l + NEXT) = node := by
    rw [(h.start hl).1, hF, Chain.start_cons]
  refine ⟨_, ?_, hkept⟩
  rw [listPop, h.nonempty hl (by simp [hF]), hfirst]
  show (listRemove mem node >>= fun mem => pure (node, mem)) = _
  rw [hremove]
  rfl

theorem popback (h : Represents P mem A) (hl : l ∈ P.lists) (hF : A.seq l = F ++ [node]) :
    ∃ mem', listPopback mem l = .ok (node, mem') ∧ Represents P mem' (A.took l node F) := by
  obtain ⟨hremove, hkept⟩ := h.take hl hF
  have hlast : mem (l + TAIL) = node := by
    have hlinked := h.linked l hl
    rw [hF, List.cons_append, List.append_assoc, ← List.cons_append] at hlinked
    exact (Chain.linked_append.mp hlinked).2.2.1
  rw [List.append_nil] at hkept
  refine ⟨_, ?_, hkept⟩
  rw [listPopback, h.nonempty hl (by simp [hF]), hlast]
  show (listRemove mem node >>= fun mem => pure (node, mem)) = _
  rw [hremove]
  rfl

theorem remove (h : Represents P mem A) (hl : l ∈ P.lists) (hn : node ∈ A.seq l) :
    ∃ mem', listRemove mem node = .ok mem' ∧
      Represents P mem' ⟨fun l => (A.seq l).erase node, Insert.insert node A.removed⟩ := by
  obtain ⟨F₁, F₂, hF⟩ := List.append_of_mem hn
  obtain ⟨hremove, hkept⟩ := h.take hl hF
  have hnodup := h.nodup l hl
  rw [hF] at hnodup
  have hnot : node ∉ F₁ := fun h₁ => List.disjoint_of_nodup_append hnodup h₁ List.mem_cons_self
  have hseq : Function.update A.seq l (F₁ ++ F₂) = fun l => (A.seq l).erase node := by
    funext l'
    by_cases e : l' = l
    · subst e
      rw [Function.update_self, hF, List.erase_append_right _ hnot, List.erase_cons_head]
    · rw [Function.update_of_ne e, List.erase_of_not_mem (h.in_one hl hn e)]
  refine ⟨_, hremove, ?_⟩
  rw [← hseq]
  exact hkept

/-- **`list_insert_sort`** puts the node behind the nodes in front whose keys are not greater. -/
theorem insertSort (h : Represents P mem A) (hl : l ∈ P.lists) (hn : node ∈ P.nodes) (h0 : mem node = 0)
    (h0' : mem (node + NEXT) = 0) (offset : Int) :
    ∃ mem', listInsertSort mem l node offset = .ok mem' ∧
      Represents P mem' (A.put l node (Contents.inserted (fun a => elementNodeKey mem a offset) node (A.seq l))) ∧
      ∀ x, P.Outside x → mem' x = mem x := by
  have hno : ∀ l, node ∉ A.seq l := h.in_none fun l hl hmem => (h.links hl hmem).1 h0
  obtain ⟨hnext, hlinked⟩ := h.start hl
  have hfind := Chain.find_linked (p := fun ptr => elementNodeKey mem ptr offset > elementNodeKey mem node offset)
    hlinked (h.tail_notMem hl) (h.length_lt hl)
  have hle : (fun a => !decide (elementNodeKey mem a offset > elementNodeKey mem node offset)) =
      fun a => decide (elementNodeKey mem a offset ≤ elementNodeKey mem node offset) := by
    funext a
    rw [← decide_not]
    exact decide_eq_decide.mpr Int.not_lt
  rw [hle] at hfind
  obtain ⟨hkept, hframe⟩ := h.insert hl hn hno (List.takeWhile_append_dropWhile
    (p := fun a => decide (elementNodeKey mem a offset ≤ elementNodeKey mem node offset)) (l := A.seq l)).symm
  refine ⟨_, ?_, hkept, hframe⟩
  refine bind_of_ok (by rw [hnext, hfind, walked]) ?_
  rw [h0, h0']
  rfl

/-- **A call that is allowed comes to its end**, with what the sequences say. -/
theorem step (h : Represents P mem A) {op : Op} (ha : Allowed P mem A op) :
    ∃ mem', op.exec mem = .ok (A.answer op, mem') ∧ Represents P mem' (A.next mem op) := by
  cases op with
  | push list node =>
    obtain ⟨hl, hn, hno⟩ := ha
    obtain ⟨mem', hr, hkept⟩ := h.push hl hn hno
    exact ⟨mem', by rw [Op.exec, hr]; rfl, hkept⟩
  | pushback list node =>
    obtain ⟨hl, hn, hno⟩ := ha
    obtain ⟨mem', hr, hkept⟩ := h.pushback hl hn hno
    exact ⟨mem', by rw [Op.exec, hr]; rfl, hkept⟩
  | pop list =>
    obtain ⟨hl, hne⟩ := ha
    obtain ⟨b, F, hF⟩ := List.exists_cons_of_ne_nil hne
    obtain ⟨mem', hr, hkept⟩ := h.pop hl hF
    refine ⟨mem', ?_, ?_⟩
    · rw [Op.exec, hr, Contents.answer, hF]
      rfl
    · rw [Contents.next, hF]
      exact hkept
  | popback list =>
    obtain ⟨hl, hne⟩ := ha
    obtain ⟨F, b, hF⟩ : ∃ F b, A.seq list = F ++ [b] := ⟨_, _, (List.dropLast_concat_getLast hne).symm⟩
    obtain ⟨mem', hr, hkept⟩ := h.popback hl hF
    refine ⟨mem', ?_, ?_⟩
    · rw [Op.exec, hr, Contents.answer, hF, List.getLast?_concat]
      rfl
    · rw [Contents.next, hF, List.getLast?_concat, List.dropLast_concat]
      exact hkept
  | remove node =>
    obtain ⟨l, hl, hn⟩ := ha
    obtain ⟨mem', hr, hkept⟩ := h.remove hl hn
    exact ⟨mem', by rw [Op.exec, hr]; rfl, hkept⟩
  | insertSort list node offset =>
    obtain ⟨hl, hn, h0, h0', -⟩ := ha
    obtain ⟨mem', hr, hkept, -⟩ := h.insertSort hl hn h0 h0' offset
    exact ⟨mem', by rw [Op.exec, hr]; rfl, hkept⟩
  | write x v => exact ⟨_, rfl, h.store ha⟩

end Represents

/-! ## 6. Runs -/

theorem listInit_other {x : Nat} (h : x < l ∨ l + 16 ≤ x) : listInit mem l x = mem x := by
  unfold listInit TAIL NEXT
  rw [Function.update_of_ne (by omega), Function.update_of_ne (by omega), Function.update_of_ne (by omega),
    Function.update_of_ne (by omega)]

theorem listInit_linked : Chain.Linked NEXT (listInit mem l) [l, l + TAIL] := by
  refine ⟨?_, Function.update_self .., trivial⟩
  unfold listInit TAIL NEXT
  rw [Function.update_of_ne (by omega), Function.update_self]

theorem foldl_other {ls : List Nat} {x : Nat} (h : ∀ l ∈ ls, x < l ∨ l + 16 ≤ x) :
    ls.foldl listInit mem x = mem x := by
  induction ls generalizing mem with
  | nil => rfl
  | cons l ls ih =>
    obtain ⟨hl, hls⟩ := List.forall_mem_cons.mp h
    rw [List.foldl_cons, ih hls, listInit_other hl]

/-- Lists that have been initialised are empty. -/
theorem foldl_linked {ls : List Nat} (h : ls.Pairwise fun l l' => l + 16 ≤ l' ∨ l' + 16 ≤ l) :
    ∀ l ∈ ls, Chain.Linked NEXT (ls.foldl listInit mem) [l, l + TAIL] := by
  induction ls generalizing mem with
  | nil => exact fun l hl => absurd hl List.not_mem_nil
  | cons l ls ih =>
    obtain ⟨hl, hls⟩ := List.pairwise_cons.mp h
    refine List.forall_mem_cons.mpr ⟨?_, ih hls⟩
    obtain ⟨hnext, hprev, -⟩ : Chain.Linked NEXT (listInit mem l) [l, l + TAIL] := listInit_linked
    have hrest : ∀ x, l ≤ x → x < l + 16 → ls.foldl listInit (listInit mem l) x = listInit mem l x :=
      fun x h1 h2 => foldl_other fun l' hl' => by
        have := hl l' hl'
        omega
    rw [List.foldl_cons]
    refine ⟨?_, ?_, trivial⟩
    · rw [hrest _ (by omega) (by unfold NEXT; omega), hnext]
    · rw [hrest _ (by omega) (by unfold TAIL; omega), hprev]

theorem represents_start (P : Pool) (mem : Memory) : Represents P (P.lists.foldl listInit mem) .empty where
  linked := foldl_linked P.listsApart
  nodup _ _ := List.nodup_nil
  inside _ _ _ hn := absurd hn List.not_mem_nil
  once _ _ _ _ _ := List.disjoint_nil_left _
  others _ _ := rfl
  cleared _ hn := absurd hn (Finset.notMem_empty _)

/-- **Every run keeps the sequences.** -/
theorem Runs.represents (h : Runs P mem A) : Represents P mem A := by
  induction h with
  | start mem => exact represents_start P mem
  | step _ ha he ih =>
    obtain ⟨mem'', hr, hkept⟩ := ih.step ha
    obtain ⟨-, rfl⟩ := Prod.mk.inj (Except.ok.inj (he.symm.trans hr))
    exact hkept

/-- The keys do not fall along the sequence. -/
def Sorted (key : Nat → Int) (F : List Nat) : Prop := F.Pairwise fun a b => key a ≤ key b

/-- **An insertion into a sorted sequence** goes behind all keys that are not greater, and the sequence
    stays sorted. -/
theorem inserted_sorted {key : Nat → Int} (h : Sorted key F) (node : Nat) : ∃ F₁ F₂, F = F₁ ++ F₂ ∧
    Contents.inserted key node F = F₁ ++ node :: F₂ ∧ (∀ a ∈ F₁, key a ≤ key node) ∧
      (∀ a ∈ F₂, key node < key a) ∧ Sorted key (F₁ ++ node :: F₂) := by
  have hsplit := List.takeWhile_append_dropWhile (p := fun a => decide (key a ≤ key node)) (l := F)
  have hfront : ∀ a ∈ F.takeWhile (fun a => key a ≤ key node), key a ≤ key node := fun a ha => by
    simpa using List.mem_takeWhile_imp ha
  rw [Sorted, ← hsplit, List.pairwise_append] at h
  obtain ⟨h₁, h₂, hcross⟩ := h
  have hback : ∀ a ∈ F.dropWhile (fun a => key a ≤ key node), key node < key a := by
    cases hF : F.dropWhile fun a => key a ≤ key node with
    | nil => exact fun a ha => absurd ha List.not_mem_nil
    | cons b G =>
      have hb : key node < key b := by
        have hnot := List.head_dropWhile_not (fun a => decide (key a ≤ key node)) (l := F) (by simp [hF])
        simp only [hF, List.head_cons, decide_eq_false_iff_not, Int.not_le] at hnot
        exact hnot
      rw [hF] at h₂
      refine List.forall_mem_cons.mpr ⟨hb, fun a ha => ?_⟩
      exact Int.lt_of_lt_of_le hb ((List.pairwise_cons.mp h₂).1 a ha)
  refine ⟨_, _, hsplit.symm, rfl, hfront, hback, List.pairwise_append.mpr ⟨h₁, ?_, fun a ha b hb => ?_⟩⟩
  · exact List.pairwise_cons.mpr ⟨fun a ha => Int.le_of_lt (hback a ha), h₂⟩
  · rcases List.mem_cons.mp hb with rfl | hb
    · exact hfront a ha
    · exact hcross a ha b hb

/-- **`lib/list.c` keeps its lists.** In every run each list stands for a sequence of nodes without
    repetition, linked forward and backward; no node is in two lists and removed nodes have both links
    NULL; `list_size` and `list_search` report the sequence; a call that is allowed comes to its end with
    what the sequences say; and `list_insert_sort` keeps a sorted list sorted, the node behind all nodes
    with an equal or smaller key. -/
theorem runs_represents (h : Runs P mem A) : Represents P mem A ∧
    (∀ l ∈ P.lists, listSize mem l = .ok (A.seq l).length ∧
      ∀ node, listSearch mem l node = .ok (decide (node ∈ A.seq l))) ∧
    (∀ op, Allowed P mem A op →
      ∃ mem', op.exec mem = .ok (A.answer op, mem') ∧ Runs P mem' (A.next mem op)) ∧
    ∀ l node offset, Allowed P mem A (.insertSort l node offset) →
      Sorted (fun a => elementNodeKey mem a offset) (A.seq l) →
        ∃ mem' F₁ F₂, listInsertSort mem l node offset = .ok mem' ∧ A.seq l = F₁ ++ F₂ ∧
          (A.next mem (.insertSort l node offset)).seq l = F₁ ++ node :: F₂ ∧
          (∀ a ∈ F₁, elementNodeKey mem' a offset ≤ elementNodeKey mem' node offset) ∧
          (∀ a ∈ F₂, elementNodeKey mem' node offset < elementNodeKey mem' a offset) ∧
          Sorted (fun a => elementNodeKey mem' a offset) (F₁ ++ node :: F₂) := by
  have hrep := h.represents
  refine ⟨hrep, fun l hl => ⟨hrep.size hl, hrep.search hl⟩, fun op ha => ?_, fun l node offset ha hs => ?_⟩
  · obtain ⟨mem', hr, -⟩ := hrep.step ha
    exact ⟨mem', hr, h.step ha hr⟩
  · obtain ⟨hl, hn, h0, h0', hoff⟩ := ha
    obtain ⟨mem', hr, -, hframe⟩ := hrep.insertSort hl hn h0 h0' offset
    obtain ⟨F₁, F₂, hsplit, hnew, hfront, hback, hsorted⟩ := inserted_sorted hs node
    -- the keys are where they were
    have hkey : ∀ a ∈ P.nodes, elementNodeKey mem' a offset = elementNodeKey mem a offset := fun a ha => by
      rw [elementNodeKey, hframe _ (hoff a ha), elementNodeKey]
    have hin := hrep.inside l hl
    rw [hsplit] at hin
    have hfirst : ∀ a ∈ F₁, a ∈ P.nodes := fun a ha => hin a (List.mem_append_left _ ha)
    have hlast : ∀ a ∈ F₂, a ∈ P.nodes := fun a ha => hin a (List.mem_append_right _ ha)
    have hall : ∀ a ∈ F₁ ++ node :: F₂, a ∈ P.nodes := fun a ha => by
      rcases List.mem_append.mp ha with ha | ha
      · exact hfirst a ha
      · rcases List.mem_cons.mp ha with rfl | ha
        · exact hn
        · exact hlast a ha
    refine ⟨mem', F₁, F₂, hr, hsplit, ?_, fun a ha => ?_, fun a ha => ?_, ?_⟩
    · exact (Function.update_self ..).trans hnew
    · rw [hkey a (hfirst a ha), hkey node hn]
      exact hfront a ha
    · rw [hkey a (hlast a ha), hkey node hn]
      exact hback a ha
    · refine List.Pairwise.imp_of_mem (fun ha hb hab => ?_) hsorted
      have ha' := hkey _ (hall _ ha)
      have hb' := hkey _ (hall _ hb)
      dsimp only at hab ⊢
      rw [ha', hb']
      exact hab

end Steps

/-- Two lists, and three nodes with a key behind the links. -/
def samplePool : Pool where
  lists := [0x1000, 0x1010]
  nodes := {0x2000, 0x2010, 0x2020}
  listRoom := by decide
  nodeRoom := by
    rintro n (rfl | rfl | rfl) <;> decide
  listsApart := by decide
  nodesApart := by
    rintro n (rfl | rfl | rfl) m (rfl | rfl | rfl) h <;> first | exact absurd rfl h | decide
  apart := by
    rintro l hl n hn
    simp only [List.mem_cons, List.not_mem_nil, or_false, Set.mem_insert_iff, Set.mem_singleton_iff] at hl hn
    omega

theorem samplePool_key : samplePool.KeyOffset 8 := by
  have hcells : ∀ a, samplePool.Cell a → a = 0x1000 ∨ a = 0x1008 ∨ a = 0x1010 ∨ a = 0x1018 ∨ a = 0x2000 ∨
      a = 0x2010 ∨ a = 0x2020 := fun a ha => by
    simp only [Pool.Cell, samplePool, TAIL, List.mem_cons, List.not_mem_nil, or_false, exists_eq_or_imp,
      exists_eq_left, Set.mem_insert_iff, Set.mem_singleton_iff] at ha
    omega
  rintro n (rfl | rfl | rfl) a ha <;> have := hcells a ha <;> simp only [keyAddr, ADDRESSES] <;> omega

/-- A sorted insertion, a second node at the end, and one node taken. -/
theorem runs_represents_sample : ∃ mem mem', (Op.pop 0x1000).exec mem = .ok (some 0x2000, mem') ∧
    listSize mem' 0x1000 = .ok 1 ∧ listSearch mem' 0x1000 0x2010 = .ok true := by
  have hlist : 0x1000 ∈ samplePool.lists := by decide
  have h₀ := Runs.start (P := samplePool) fun _ => 0
  obtain ⟨mem₁, -, h₁⟩ := (runs_represents h₀).2.2.1 (.insertSort 0x1000 0x2000 8)
    ⟨hlist, .inl rfl, by decide, by decide, samplePool_key⟩
  have hno : ∀ l, 0x2010 ∉ Function.update (fun _ => ([] : List Nat)) 0x1000 [0x2000] l := fun l => by
    by_cases e : l = 0x1000
    · subst e
      decide
    · simp [Function.update_of_ne e]
  obtain ⟨mem₂, -, h₂⟩ := (runs_represents h₁).2.2.1 (.pushback 0x1000 0x2010) ⟨hlist, .inr (.inl rfl), hno⟩
  obtain ⟨mem₃, hr, h₃⟩ := (runs_represents h₂).2.2.1 (.pop 0x1000) ⟨hlist, List.cons_ne_nil 0x2000 [0x2010]⟩
  obtain ⟨hsize, hsearch⟩ := (runs_represents h₃).2.1 _ hlist
  exact ⟨mem₂, mem₃, hr, hsize, hsearch 0x2010⟩

end Yuios.Lists
