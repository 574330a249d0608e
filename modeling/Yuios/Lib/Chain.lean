/-
  File:      Yuios/Lib/Chain.lean
  Subject:   DOUBLY LINKED LISTS IN A MEMORY of words. A node at `a` has its predecessor in the word `a`
             and its successor in the word `a + w`.

  * `Linked w mem l` -- neighbours in `l` point at each other.
  * `linked_append` cuts a list at a node, `linked_congr` names the words it rests on: the successor of
    every node but the last, the predecessor of every node but the first.
  * `linked_insertAfter`, `linked_insertBefore`, `linked_unlink` -- the edits. Each writes the words of
    three nodes.
  * `search_linked`, `collect_linked`, `size_linked`, `find_linked` -- what the walk along the successors
    finds.
-/
import Mathlib.Algebra.Group.Nat.Defs
import Mathlib.Data.List.Infix
import Mathlib.Logic.Function.Basic

namespace Yuios.Lib.Chain

variable {w : Nat}

/-! ## 1. The operations -/

/-- The node goes in behind `anchor`. -/
def insertAfter (w : Nat) (mem : Nat → Nat) (anchor node : Nat) : Nat → Nat :=
  let mem := Function.update mem node anchor
  let mem := Function.update mem (node + w) (mem (anchor + w))
  let mem := Function.update mem (mem (anchor + w)) node
  Function.update mem (anchor + w) node

/-- The node goes in before `anchor`. -/
def insertBefore (w : Nat) (mem : Nat → Nat) (anchor node : Nat) : Nat → Nat :=
  let mem := Function.update mem node (mem anchor)
  let mem := Function.update mem (node + w) anchor
  let mem := Function.update mem (mem anchor + w) node
  Function.update mem anchor node

/-- The neighbours of the node are joined, and its words cleared. -/
def unlink (w : Nat) (mem : Nat → Nat) (node : Nat) : Nat → Nat :=
  let mem := Function.update mem (mem node + w) (mem (node + w))
  let mem := Function.update mem (mem (node + w)) (mem node)
  let mem := Function.update mem (node + w) 0
  Function.update mem node 0

/-- Is the node met on the way from `next` to `tail`? -/
def search (w : Nat) (mem : Nat → Nat) (tail node : Nat) : (fuel next : Nat) → Option Bool
  | 0, _ => none
  | fuel + 1, next =>
    if next = tail then some false
    else if next = node then some true
    else search w mem tail node fuel (mem (next + w))

/-- The nodes from `next` up to `tail`. -/
def collect (w : Nat) (mem : Nat → Nat) (tail : Nat) : (fuel next : Nat) → List Nat
  | 0, _ => []
  | fuel + 1, next => if next = tail then [] else next :: collect w mem tail fuel (mem (next + w))

/-- The number of nodes from `next` up to `tail`, counted in `bits` bits. -/
def size (w : Nat) (mem : Nat → Nat) (tail bits : Nat) : (fuel next count : Nat) → Option Nat
  | 0, _, _ => none
  | fuel + 1, next, count =>
    if next = tail then some count
    else size w mem tail bits fuel (mem (next + w)) ((count + 1) % 2 ^ bits)

/-- The first node from `next` on that has the property, or `tail`. -/
def find (w : Nat) (mem : Nat → Nat) (tail : Nat) (p : Nat → Bool) : (fuel next : Nat) → Option Nat
  | 0, _ => none
  | fuel + 1, next =>
    if next = tail then some tail
    else if p next then some next
    else find w mem tail p fuel (mem (next + w))

/-! ## 2. Lists -/

/-- **Neighbours point at each other.** -/
def Linked (w : Nat) (mem : Nat → Nat) : List Nat → Prop
  | a :: b :: l => mem (a + w) = b ∧ mem b = a ∧ Linked w mem (b :: l)
  | _ => True

/-- The two words of a node are no words of another. -/
structure Spaced (w : Nat) (l : List Nat) : Prop where
  nodup : l.Nodup
  apart : ∀ a ∈ l, ∀ b ∈ l, a + w ≠ b

section Lists

variable {mem mem' : Nat → Nat} {l l₁ l₂ : List Nat} {a b x node tail fuel : Nat}

/-- The list is cut at a node, which both parts have. -/
theorem linked_append : Linked w mem (l₁ ++ x :: l₂) ↔ Linked w mem (l₁ ++ [x]) ∧ Linked w mem (x :: l₂) := by
  induction l₁ with
  | nil => exact (and_iff_right trivial).symm
  | cons a l₁ ih =>
    cases l₁ with
    | nil => exact ⟨fun ⟨h, h', hl⟩ => ⟨⟨h, h', trivial⟩, hl⟩, fun ⟨⟨h, h', _⟩, hl⟩ => ⟨h, h', hl⟩⟩
    | cons b l₁ =>
      have ih : Linked w mem (b :: (l₁ ++ x :: l₂)) ↔ _ := ih
      show _ ∧ _ ∧ Linked w mem (b :: (l₁ ++ x :: l₂)) ↔ (_ ∧ _ ∧ Linked w mem (b :: (l₁ ++ [x]))) ∧ _
      rw [ih]
      exact ⟨fun ⟨h, h', hl, hr⟩ => ⟨⟨h, h', hl⟩, hr⟩, fun ⟨⟨h, h', hl⟩, hr⟩ => ⟨h, h', hl, hr⟩⟩

/-- The words a list rests on. -/
theorem linked_congr (h : Linked w mem l) (hnext : ∀ a ∈ l.dropLast, mem' (a + w) = mem (a + w))
    (hprev : ∀ a ∈ l.tail, mem' a = mem a) : Linked w mem' l := by
  induction l with
  | nil => trivial
  | cons a l ih =>
    cases l with
    | nil => trivial
    | cons b l =>
      obtain ⟨h1, h2, h3⟩ := h
      refine ⟨?_, ?_, ih h3 (fun x hx => hnext x (List.mem_cons_of_mem a hx))
        fun x hx => hprev x (List.mem_cons_of_mem b hx)⟩
      · rw [hnext a List.mem_cons_self, h1]
      · rw [hprev b List.mem_cons_self, h2]

theorem linked_congr' (h : Linked w mem l) (hw : ∀ a ∈ l, mem' (a + w) = mem (a + w) ∧ mem' a = mem a) :
    Linked w mem' l :=
  linked_congr h (fun a ha => (hw a (List.mem_of_mem_dropLast ha)).1)
    fun a ha => (hw a (List.mem_of_mem_tail ha)).2

theorem Spaced.sublist (h : Spaced w l) (hs : l₁.Sublist l) : Spaced w l₁ :=
  ⟨h.nodup.sublist hs, fun a ha b hb => h.apart a (hs.mem ha) b (hs.mem hb)⟩

theorem Spaced.perm (h : Spaced w l) (hp : l.Perm l₁) : Spaced w l₁ :=
  ⟨hp.nodup_iff.mp h.nodup, fun a ha b hb => h.apart a (hp.mem_iff.mpr ha) b (hp.mem_iff.mpr hb)⟩

/-- What an insertion writes. -/
theorem insertAfter_other (hx : x ≠ node ∧ x ≠ node + w ∧ x ≠ mem (a + w) ∧ x ≠ a + w)
    (ha : a + w ≠ node ∧ a ≠ node) : insertAfter w mem a node x = mem x := by
  have h1 : Function.update mem node a (a + w) = mem (a + w) := Function.update_of_ne ha.1 ..
  have h2 : Function.update (Function.update mem node a) (node + w) (mem (a + w)) (a + w) = mem (a + w) := by
    rw [Function.update_of_ne (by omega), h1]
  rw [insertAfter, h1, h2, Function.update_of_ne hx.2.2.2, Function.update_of_ne hx.2.2.1,
    Function.update_of_ne hx.2.1, Function.update_of_ne hx.1]

/-- **A node behind the first.** -/
theorem linked_insertAfter (h : Linked w mem (a :: b :: l)) (hs : Spaced w (node :: a :: b :: l)) :
    Linked w (insertAfter w mem a node) (a :: node :: b :: l) := by
  obtain ⟨hn, hab⟩ := List.nodup_cons.mp hs.nodup
  obtain ⟨ha, hb⟩ := List.nodup_cons.mp hab
  obtain ⟨hb, -⟩ := List.nodup_cons.mp hb
  have hmem {x : Nat} (hx : x ∈ b :: l) : x ∈ node :: a :: b :: l :=
    List.mem_cons_of_mem _ (List.mem_cons_of_mem _ hx)
  have hna : node ≠ a := fun e => hn (e ▸ List.mem_cons_self)
  have hnb : node ≠ b := fun e => hn (e ▸ List.mem_cons_of_mem _ List.mem_cons_self)
  have hab : a ≠ b := fun e => ha (e ▸ List.mem_cons_self)
  have mn : node ∈ node :: a :: b :: l := List.mem_cons_self
  have ma : a ∈ node :: a :: b :: l := List.mem_cons_of_mem _ List.mem_cons_self
  have mb : b ∈ node :: a :: b :: l := hmem List.mem_cons_self
  have hann := hs.apart a ma node mn
  obtain ⟨hnext, -, hrest⟩ := h
  have hother {x : Nat} (hx : x ≠ node ∧ x ≠ node + w ∧ x ≠ b ∧ x ≠ a + w) :
      insertAfter w mem a node x = mem x :=
    insertAfter_other (hnext ▸ hx) ⟨hann, hna.symm⟩
  have hread : Function.update (Function.update mem node a) (node + w) (Function.update mem node a (a + w)) (a + w) = b := by
    rw [Function.update_of_ne (by omega), Function.update_of_ne hann, hnext]
  refine ⟨?_, ?_, ?_, ?_, linked_congr hrest (fun x hx => hother ?_) fun x hx => hother ?_⟩
  · rw [insertAfter, Function.update_self]
  · rw [insertAfter, hread, Function.update_of_ne (hs.apart a ma node mn).symm, Function.update_of_ne hnb,
      Function.update_of_ne (hs.apart node mn node mn).symm, Function.update_self]
  · rw [insertAfter, hread, Function.update_of_ne (by omega),
      Function.update_of_ne (hs.apart node mn b mb), Function.update_self, Function.update_of_ne hann, hnext]
  · rw [insertAfter, hread, Function.update_of_ne (hs.apart a ma b mb).symm, Function.update_self]
  · have hx' := List.mem_of_mem_dropLast hx
    have hxn : x ≠ node := fun e => hn (e ▸ List.mem_cons_of_mem _ hx')
    have hxa : x ≠ a := fun e => ha (e ▸ hx')
    exact ⟨hs.apart x (hmem hx') node mn, by omega, hs.apart x (hmem hx') b mb, by omega⟩
  · have hx' : x ∈ b :: l := List.mem_cons_of_mem b hx
    have hxn : x ≠ node := fun e => hn (e ▸ List.mem_cons_of_mem _ hx')
    have hxb : x ≠ b := fun e => hb (e ▸ hx)
    exact ⟨hxn, (hs.apart node mn x (hmem hx')).symm, hxb, (hs.apart a ma x (hmem hx')).symm⟩

/-- **A node between two others.** -/
theorem linked_insert (h : Linked w mem (l₁ ++ a :: b :: l₂)) (hs : Spaced w (node :: (l₁ ++ a :: b :: l₂))) :
    Linked w (insertAfter w mem a node) (l₁ ++ a :: node :: b :: l₂) := by
  obtain ⟨hpre, hpost⟩ := linked_append.mp h
  have hsub : (node :: a :: b :: l₂).Sublist (node :: (l₁ ++ a :: b :: l₂)) :=
    (List.sublist_append_right l₁ _).cons_cons node
  have hrest := linked_insertAfter hpost (hs.sublist hsub)
  obtain ⟨hn, hall⟩ := List.nodup_cons.mp hs.nodup
  obtain ⟨-, hright, hdisj⟩ := List.nodup_append.mp hall
  have ma : a ∈ a :: b :: l₂ := List.mem_cons_self
  have mb : b ∈ a :: b :: l₂ := List.mem_cons_of_mem a List.mem_cons_self
  have hab : a ≠ b := fun e => (List.nodup_cons.mp hright).1 (e ▸ List.mem_cons_self)
  have mright {x : Nat} (hx : x ∈ a :: b :: l₂) : x ∈ node :: (l₁ ++ a :: b :: l₂) :=
    List.mem_cons_of_mem node (List.mem_append_right l₁ hx)
  have mn : node ∈ node :: (l₁ ++ a :: b :: l₂) := List.mem_cons_self
  have hna : a ≠ node := fun e => hn (e ▸ List.mem_append_right l₁ ma)
  have hother {x : Nat} (hx : x ≠ node ∧ x ≠ node + w ∧ x ≠ b ∧ x ≠ a + w) :
      insertAfter w mem a node x = mem x :=
    insertAfter_other (hpost.1 ▸ hx) ⟨hs.apart a (mright ma) node mn, hna⟩
  refine linked_append.mpr ⟨linked_congr hpre (fun x hx => hother ?_) fun x hx => hother ?_, hrest⟩
  · -- the successors of the nodes before `a`
    rw [List.dropLast_concat] at hx
    have mx : x ∈ node :: (l₁ ++ a :: b :: l₂) := List.mem_cons_of_mem node (List.mem_append_left _ hx)
    have hxn : x ≠ node := fun e => hn (e ▸ List.mem_append_left _ hx)
    have hxa : x ≠ a := hdisj x hx a ma
    exact ⟨hs.apart x mx node mn, by omega, hs.apart x mx b (mright mb), by omega⟩
  · -- the predecessors of the nodes up to `a`
    have hx' : x ∈ l₁ ++ [a] := List.mem_of_mem_tail hx
    have hxall : x ∈ l₁ ++ a :: b :: l₂ := by
      rcases List.mem_append.mp hx' with hx' | hx'
      · exact List.mem_append_left _ hx'
      · exact List.mem_append_right _ (List.mem_singleton.mp hx' ▸ ma)
    have mx : x ∈ node :: (l₁ ++ a :: b :: l₂) := List.mem_cons_of_mem node hxall
    refine ⟨fun e => hn (e ▸ hxall), (hs.apart node mn x mx).symm, ?_, (hs.apart a (mright ma) x mx).symm⟩
    rcases List.mem_append.mp hx' with hx' | hx'
    · exact hdisj x hx' b mb
    · rw [List.mem_singleton.mp hx']
      exact hab

/-- An insertion before a node is one behind its predecessor. -/
theorem insertBefore_eq (h : Linked w mem (l₁ ++ a :: b :: l₂)) (hs : Spaced w (node :: (l₁ ++ a :: b :: l₂))) :
    insertBefore w mem b node = insertAfter w mem a node := by
  obtain ⟨-, hnext, hprev, -⟩ := linked_append.mp h
  obtain ⟨hn, hall⟩ := List.nodup_cons.mp hs.nodup
  have mn : node ∈ node :: (l₁ ++ a :: b :: l₂) := List.mem_cons_self
  have ma : a ∈ node :: (l₁ ++ a :: b :: l₂) :=
    List.mem_cons_of_mem node (List.mem_append_right l₁ List.mem_cons_self)
  have mb : b ∈ node :: (l₁ ++ a :: b :: l₂) :=
    List.mem_cons_of_mem node (List.mem_append_right l₁ (List.mem_cons_of_mem a List.mem_cons_self))
  have hnb : b ≠ node := fun e => hn (e ▸ List.mem_append_right l₁ (List.mem_cons_of_mem a List.mem_cons_self))
  have hread : Function.update (Function.update mem node a) (node + w) b b = a := by
    rw [Function.update_of_ne (hs.apart node mn b mb).symm, Function.update_of_ne hnb, hprev]
  have hread' : Function.update mem node a (a + w) = b := by
    rw [Function.update_of_ne (hs.apart a ma node mn), hnext]
  have hread'' : Function.update (Function.update mem node a) (node + w) b (a + w) = b := by
    by_cases e : a + w = node + w
    · rw [e, Function.update_self]
    · rw [Function.update_of_ne e, hread']
  rw [insertBefore, insertAfter, hprev, hread, hread', hread'']
  exact Function.update_comm (hs.apart a ma b mb) ..

/-- What the removal of a node writes, its neighbours being `a` and `b`. -/
theorem unlink_eq (hp : mem node = a) (hn : mem (node + w) = b) (h1 : node ≠ a + w) (h2 : node ≠ a) :
    unlink w mem node =
      Function.update (Function.update (Function.update (Function.update mem (a + w) b) b a) (node + w) 0) node 0 := by
  have e1 : Function.update mem (a + w) b (node + w) = b := by
    rw [Function.update_of_ne (by omega), hn]
  have e2 : Function.update mem (a + w) b node = a := by
    rw [Function.update_of_ne h1, hp]
  rw [unlink, hp, hn, e1, e2]

theorem unlink_other (hp : mem node = a) (hn : mem (node + w) = b) (h1 : node ≠ a + w) (h2 : node ≠ a)
    (hx : x ≠ node ∧ x ≠ node + w ∧ x ≠ b ∧ x ≠ a + w) : unlink w mem node x = mem x := by
  rw [unlink_eq hp hn h1 h2, Function.update_of_ne hx.1, Function.update_of_ne hx.2.1,
    Function.update_of_ne hx.2.2.1, Function.update_of_ne hx.2.2.2]

/-- **A node is taken out.** -/
theorem linked_unlink (h : Linked w mem (l₁ ++ a :: node :: b :: l₂))
    (hs : Spaced w (l₁ ++ a :: node :: b :: l₂)) : Linked w (unlink w mem node) (l₁ ++ a :: b :: l₂) := by
  obtain ⟨hpre, hnext, hprev, hnext', hprev', hpost⟩ := linked_append.mp h
  obtain ⟨-, hright, hdisj⟩ := List.nodup_append.mp hs.nodup
  obtain ⟨ha, hright⟩ := List.nodup_cons.mp hright
  obtain ⟨hn, hright⟩ := List.nodup_cons.mp hright
  obtain ⟨hb, -⟩ := List.nodup_cons.mp hright
  have mright {x : Nat} (hx : x ∈ a :: node :: b :: l₂) : x ∈ l₁ ++ a :: node :: b :: l₂ :=
    List.mem_append_right l₁ hx
  have ma : a ∈ a :: node :: b :: l₂ := List.mem_cons_self
  have mn : node ∈ a :: node :: b :: l₂ := List.mem_cons_of_mem a List.mem_cons_self
  have mpost {x : Nat} (hx : x ∈ b :: l₂) : x ∈ a :: node :: b :: l₂ :=
    List.mem_cons_of_mem a (List.mem_cons_of_mem node hx)
  have mb : b ∈ a :: node :: b :: l₂ := mpost List.mem_cons_self
  have hna : node ≠ a := fun e => ha (e ▸ List.mem_cons_self)
  have hnb : node ≠ b := fun e => hn (e ▸ List.mem_cons_self)
  have hab : a ≠ b := fun e => ha (e ▸ List.mem_cons_of_mem node List.mem_cons_self)
  have hfar {x y : Nat} (hx : x ∈ l₁ ++ a :: node :: b :: l₂) (hy : y ∈ l₁ ++ a :: node :: b :: l₂) : x + w ≠ y :=
    hs.apart x hx y hy
  have hother {x : Nat} (hx : x ≠ node ∧ x ≠ node + w ∧ x ≠ b ∧ x ≠ a + w) : unlink w mem node x = mem x :=
    unlink_other hprev hnext' (hfar (mright ma) (mright mn)).symm hna hx
  refine linked_append.mpr ⟨linked_congr hpre (fun x hx => hother ?_) fun x hx => hother ?_, ?_, ?_,
    linked_congr hpost (fun x hx => hother ?_) fun x hx => hother ?_⟩
  · -- the nodes before `a`
    rw [List.dropLast_concat] at hx
    have mx : x ∈ l₁ ++ a :: node :: b :: l₂ := List.mem_append_left _ hx
    have hxn : x ≠ node := hdisj x hx node mn
    have hxa : x ≠ a := hdisj x hx a ma
    exact ⟨hfar mx (mright mn), by omega, hfar mx (mright mb), by omega⟩
  · have hx' : x ∈ l₁ ++ [a] := List.mem_of_mem_tail hx
    have mx : x ∈ l₁ ++ a :: node :: b :: l₂ := by
      obtain hx' | hx' := List.mem_append.mp hx'
      · exact List.mem_append_left _ hx'
      · rw [List.mem_singleton.mp hx']
        exact mright ma
    refine ⟨?_, (hfar (mright mn) mx).symm, ?_, (hfar (mright ma) mx).symm⟩
    · obtain hx' | hx' := List.mem_append.mp hx'
      · exact hdisj x hx' node mn
      · rw [List.mem_singleton.mp hx']
        exact hna.symm
    · obtain hx' | hx' := List.mem_append.mp hx'
      · exact hdisj x hx' b mb
      · rw [List.mem_singleton.mp hx']
        exact hab
  · rw [unlink_eq hprev hnext' (hfar (mright ma) (mright mn)).symm hna,
      Function.update_of_ne (hfar (mright ma) (mright mn)), Function.update_of_ne (by omega),
      Function.update_of_ne (hfar (mright ma) (mright mb)), Function.update_self]
  · rw [unlink_eq hprev hnext' (hfar (mright ma) (mright mn)).symm hna, Function.update_of_ne hnb.symm,
      Function.update_of_ne (hfar (mright mn) (mright mb)).symm, Function.update_self]
  · have hx' := List.mem_of_mem_dropLast hx
    have mx := mright (mpost hx')
    have hxn : x ≠ node := fun e => hn (e ▸ hx')
    have hxa : x ≠ a := fun e => ha (e ▸ List.mem_cons_of_mem node hx')
    exact ⟨hfar mx (mright mn), by omega, hfar mx (mright mb), by omega⟩
  · have hx' : x ∈ b :: l₂ := List.mem_cons_of_mem b hx
    have mx := mright (mpost hx')
    have hxn : x ≠ node := fun e => hn (e ▸ hx')
    have hxb : x ≠ b := fun e => hb (e ▸ hx)
    exact ⟨hxn, (hfar (mright mn) mx).symm, hxb, (hfar (mright ma) mx).symm⟩

/-! ## 3. The walk -/

/-- The first node of a list that ends in `tail`. -/
def start (l : List Nat) (tail : Nat) : Nat := l.head?.getD tail

theorem start_nil : start [] tail = tail := rfl

theorem start_cons : start (a :: l) tail = a := rfl

theorem next_of_linked (h : Linked w mem (a :: l ++ [tail])) :
    mem (a + w) = start l tail ∧ Linked w mem (l ++ [tail]) := by
  cases l with
  | nil => exact ⟨h.1, trivial⟩
  | cons b l => exact ⟨h.1, h.2.2⟩

/-- **The search finds the nodes of the list, and no others.** -/
theorem search_linked (h : Linked w mem (l ++ [tail])) (ht : tail ∉ l) (hf : l.length < fuel) :
    search w mem tail node fuel (start l tail) = some (decide (node ∈ l)) := by
  induction l generalizing fuel with
  | nil =>
    obtain ⟨fuel, rfl⟩ := Nat.exists_eq_succ_of_ne_zero (Nat.ne_of_gt hf)
    rw [search, start_nil, if_pos rfl]
    simp
  | cons a l ih =>
    obtain ⟨fuel, rfl⟩ := Nat.exists_eq_succ_of_ne_zero (Nat.ne_of_gt (Nat.lt_of_le_of_lt (Nat.zero_le _) hf))
    obtain ⟨hat, htl⟩ := not_or.mp (mt List.mem_cons.mpr ht)
    obtain ⟨hnext, hrest⟩ := next_of_linked h
    rw [search, start_cons, if_neg (Ne.symm hat), hnext]
    by_cases e : a = node
    · rw [if_pos e]
      simp [e]
    · rw [if_neg e, ih hrest htl (Nat.lt_of_succ_lt_succ hf)]
      simp [Ne.symm e]

theorem collect_linked (h : Linked w mem (l ++ [tail])) (ht : tail ∉ l) (hf : l.length < fuel) :
    collect w mem tail fuel (start l tail) = l := by
  induction l generalizing fuel with
  | nil =>
    obtain ⟨fuel, rfl⟩ := Nat.exists_eq_succ_of_ne_zero (Nat.ne_of_gt hf)
    exact if_pos rfl
  | cons a l ih =>
    obtain ⟨fuel, rfl⟩ := Nat.exists_eq_succ_of_ne_zero (Nat.ne_of_gt (Nat.lt_of_le_of_lt (Nat.zero_le _) hf))
    obtain ⟨hat, htl⟩ := not_or.mp (mt List.mem_cons.mpr ht)
    obtain ⟨hnext, hrest⟩ := next_of_linked h
    rw [collect, start_cons, if_neg (Ne.symm hat), hnext,
      ih hrest htl (Nat.lt_of_succ_lt_succ hf)]

theorem size_linked {bits count : Nat} (h : Linked w mem (l ++ [tail])) (ht : tail ∉ l) (hf : l.length < fuel)
    (hc : count < 2 ^ bits) :
    size w mem tail bits fuel (start l tail) count = some ((count + l.length) % 2 ^ bits) := by
  induction l generalizing fuel count with
  | nil =>
    obtain ⟨fuel, rfl⟩ := Nat.exists_eq_succ_of_ne_zero (Nat.ne_of_gt hf)
    rw [size, start_nil, if_pos rfl, List.length_nil, Nat.add_zero, Nat.mod_eq_of_lt hc]
  | cons a l ih =>
    obtain ⟨fuel, rfl⟩ := Nat.exists_eq_succ_of_ne_zero (Nat.ne_of_gt (Nat.lt_of_le_of_lt (Nat.zero_le _) hf))
    obtain ⟨hat, htl⟩ := not_or.mp (mt List.mem_cons.mpr ht)
    obtain ⟨hnext, hrest⟩ := next_of_linked h
    rw [size, start_cons, if_neg (Ne.symm hat), hnext, ih hrest htl (Nat.lt_of_succ_lt_succ hf)
      (Nat.mod_lt _ (Nat.two_pow_pos bits)), Nat.mod_add_mod, List.length_cons, Nat.add_assoc, Nat.add_comm 1]

/-- The walk stops at the first node that has the property. -/
theorem find_linked {p : Nat → Bool} (h : Linked w mem (l ++ [tail])) (ht : tail ∉ l) (hf : l.length < fuel) :
    find w mem tail p fuel (start l tail) = some (start (l.dropWhile fun a => !p a) tail) := by
  induction l generalizing fuel with
  | nil =>
    obtain ⟨fuel, rfl⟩ := Nat.exists_eq_succ_of_ne_zero (Nat.ne_of_gt hf)
    exact if_pos rfl
  | cons a l ih =>
    obtain ⟨fuel, rfl⟩ := Nat.exists_eq_succ_of_ne_zero (Nat.ne_of_gt (Nat.lt_of_le_of_lt (Nat.zero_le _) hf))
    obtain ⟨hat, htl⟩ := not_or.mp (mt List.mem_cons.mpr ht)
    obtain ⟨hnext, hrest⟩ := next_of_linked h
    rw [find, start_cons, if_neg (Ne.symm hat), hnext]
    cases hp : p a with
    | true => simp [hp, start_cons]
    | false =>
      rw [if_neg Bool.false_ne_true, ih hrest htl (Nat.lt_of_succ_lt_succ hf)]
      simp [hp]

end Lists

/-! ## 4. Lists between two sentinels -/

section Between

variable {mem : Nat → Nat} {head tail node x : Nat} {F F₁ F₂ : List Nat}

/-- The word `x` is no word of a node in `l`. -/
def Apart (w : Nat) (l : List Nat) (x : Nat) : Prop := ∀ c ∈ l, x ≠ c ∧ x ≠ c + w

/-- A list between sentinels is cut between `F₁` and `F₂`. -/
theorem exists_cut (head tail : Nat) (F₁ F₂ : List Nat) : ∃ l₁ a l₂, head :: F₁ = l₁ ++ [a] ∧
    F₂ ++ [tail] = start F₂ tail :: l₂ := by
  obtain ⟨l₁, a, h⟩ : ∃ l₁ a, head :: F₁ = l₁ ++ [a] :=
    ⟨_, _, (List.dropLast_concat_getLast (List.cons_ne_nil head F₁)).symm⟩
  cases F₂ with
  | nil => exact ⟨l₁, a, [], h, rfl⟩
  | cons b F₂ => exact ⟨l₁, a, F₂ ++ [tail], h, rfl⟩

theorem cut_eq {l₁ l₂ : List Nat} {a b : Nat} (h : head :: F₁ = l₁ ++ [a]) (h' : F₂ ++ [tail] = b :: l₂)
    (F : List Nat) : head :: (F₁ ++ (F ++ F₂)) ++ [tail] = l₁ ++ a :: (F ++ b :: l₂) := by
  rw [← h', List.cons_append, List.append_assoc, List.append_assoc, ← List.cons_append, h, List.append_assoc,
    List.singleton_append]

/-- **A node goes in before the first of `F₂`.** -/
theorem linked_insertBefore (h : Linked w mem (head :: (F₁ ++ F₂) ++ [tail]))
    (hs : Spaced w (node :: (head :: (F₁ ++ F₂) ++ [tail]))) :
    Linked w (insertBefore w mem (start F₂ tail) node) (head :: (F₁ ++ node :: F₂) ++ [tail]) ∧
      ∀ x, Apart w (node :: (head :: (F₁ ++ F₂) ++ [tail])) x →
        insertBefore w mem (start F₂ tail) node x = mem x := by
  obtain ⟨l₁, a, l₂, hpre, hpost⟩ := exists_cut head tail F₁ F₂
  have hold : head :: (F₁ ++ F₂) ++ [tail] = l₁ ++ a :: start F₂ tail :: l₂ := cut_eq hpre hpost []
  have hnew : head :: (F₁ ++ node :: F₂) ++ [tail] = l₁ ++ a :: node :: start F₂ tail :: l₂ :=
    cut_eq hpre hpost [node]
  rw [hold] at h hs
  rw [hold, hnew, insertBefore_eq h hs]
  refine ⟨linked_insert h hs, fun x hx => ?_⟩
  obtain ⟨-, hnext, -⟩ := linked_append.mp h
  have mn : node ∈ node :: (l₁ ++ a :: start F₂ tail :: l₂) := List.mem_cons_self
  have ma : a ∈ node :: (l₁ ++ a :: start F₂ tail :: l₂) :=
    List.mem_cons_of_mem node (List.mem_append_right l₁ List.mem_cons_self)
  have mb : start F₂ tail ∈ node :: (l₁ ++ a :: start F₂ tail :: l₂) :=
    List.mem_cons_of_mem node (List.mem_append_right l₁ (List.mem_cons_of_mem a List.mem_cons_self))
  have hna : a ≠ node := fun e => (List.nodup_cons.mp hs.nodup).1
    (e ▸ List.mem_append_right l₁ List.mem_cons_self)
  exact insertAfter_other ⟨(hx node mn).1, (hx node mn).2, hnext ▸ (hx _ mb).1, (hx a ma).2⟩
    ⟨hs.apart a ma node mn, hna⟩

/-- Behind the first sentinel is before the first node. -/
theorem insertAfter_head (h : Linked w mem (head :: F ++ [tail])) (hs : Spaced w (node :: (head :: F ++ [tail]))) :
    insertAfter w mem head node = insertBefore w mem (start F tail) node := by
  obtain ⟨-, -, l₂, -, hpost⟩ := exists_cut head tail [] F
  have hold : head :: F ++ [tail] = [] ++ head :: start F tail :: l₂ := by
    rw [List.cons_append, hpost, List.nil_append]
  rw [hold] at h hs
  exact (insertBefore_eq h hs).symm

/-- **A node is taken out.** Its words are cleared, and its neighbours were other nodes of the list. -/
theorem linked_erase (h : Linked w mem (head :: (F₁ ++ node :: F₂) ++ [tail]))
    (hs : Spaced w (head :: (F₁ ++ node :: F₂) ++ [tail])) :
    Linked w (unlink w mem node) (head :: (F₁ ++ F₂) ++ [tail]) ∧
      (∀ x, Apart w (head :: (F₁ ++ node :: F₂) ++ [tail]) x → unlink w mem node x = mem x) ∧
      unlink w mem node node = 0 ∧ unlink w mem node (node + w) = 0 ∧
      mem node ∈ head :: F₁ ∧ mem (node + w) ∈ F₂ ++ [tail] := by
  obtain ⟨l₁, a, l₂, hpre, hpost⟩ := exists_cut head tail F₁ F₂
  have hnew : head :: (F₁ ++ F₂) ++ [tail] = l₁ ++ a :: start F₂ tail :: l₂ := cut_eq hpre hpost []
  have hold : head :: (F₁ ++ node :: F₂) ++ [tail] = l₁ ++ a :: node :: start F₂ tail :: l₂ :=
    cut_eq hpre hpost [node]
  rw [hold] at h hs
  rw [hold, hnew]
  obtain ⟨-, -, hprev, hnext, -⟩ := linked_append.mp h
  have ma : a ∈ l₁ ++ a :: node :: start F₂ tail :: l₂ := List.mem_append_right l₁ List.mem_cons_self
  have mn : node ∈ l₁ ++ a :: node :: start F₂ tail :: l₂ :=
    List.mem_append_right l₁ (List.mem_cons_of_mem a List.mem_cons_self)
  have mb : start F₂ tail ∈ l₁ ++ a :: node :: start F₂ tail :: l₂ :=
    List.mem_append_right l₁ (List.mem_cons_of_mem a (List.mem_cons_of_mem node List.mem_cons_self))
  have hna : node ≠ a := fun e => (List.nodup_cons.mp (List.nodup_append.mp hs.nodup).2.1).1
    (e ▸ List.mem_cons_self)
  have hne := (hs.apart a ma node mn).symm
  refine ⟨linked_unlink h hs, fun x hx => ?_, ?_, ?_, ?_, ?_⟩
  · exact unlink_other hprev hnext hne hna ⟨(hx node mn).1, (hx node mn).2, (hx _ mb).1, (hx a ma).2⟩
  · rw [unlink_eq hprev hnext hne hna, Function.update_self]
  · rw [unlink_eq hprev hnext hne hna, Function.update_of_ne (hs.apart node mn node mn), Function.update_self]
  · rw [hpre, hprev]
    exact List.mem_append_right _ (List.mem_singleton.mpr rfl)
  · rw [hpost, hnext]
    exact List.mem_cons_self

end Between

end Yuios.Lib.Chain
