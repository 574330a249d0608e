/-
  File:      Yuios/Fs/Tree.lean
  Subject:   THE DIRECTORIES AS A TREE: inodes by device and number, and where a name leads from one.

  * `Tables.inodeOf`, `Tables.under`, `Tables.top` -- where an inode's descriptor lies, the directory
    `..` is looked up in, and the root that covers a directory something is mounted on.
  * `Tables.look` -- where a name leads: what `find_entry` and `iget` come to (`look_steps`).
  * `Kernel.Child`, `Kernel.Below`, `Kernel.Treelike` -- the edges, what is below a directory, and
    that the directories make a tree.
-/
import Yuios.Fs.Settled
import Yuios.Lib.Branch

namespace Yuios

open Lib Prog Code Relation

/-! ## 1. Inodes by their number -/

/-- An inode by its device and its number there. -/
structure Ident where
  dev : Int
  nr : Nat
  deriving DecidableEq, Repr

def Inode.ident (ino : Inode) : Ident := ⟨ino.dev, ino.nr⟩

/-- The component is `.`. -/
def isDot (name : List UInt8) : Bool := (matchName (ofString DOT) 0 name).isSome

/-- The component is `..`. -/
def isDotDot (name : List UInt8) : Bool := (matchName (ofString DOTDOT) 0 name).isSome

namespace Tables

variable (T : Tables)

/-- Where the descriptor of an inode lies. -/
def inodeOf (d : Ident) : Option Inode :=
  (T.getSuper d.dev).map fun i =>
    ⟨d.dev, d.nr, ⟨d.dev, inodeBlock (T.superTable i) d.nr⟩, 32 * ((d.nr - 1) % BLOCK_INODES), 1, 0,
      false⟩

/-- The directory a component is looked up in: from a root, `..` is in the covered one. -/
def under (d : Ident) (name : List UInt8) : Ident :=
  if isDotDot name ∧ d.nr = 1 then
    (((T.getSuper d.dev).bind fun i => (T.superTable i).imount).map fun m =>
      (T.inodeTable m).ident).getD d
  else d

/-- What is mounted on an inode, if it is in slot `x`. -/
def mountAt (d : Ident) (x : Nat) : Option Int :=
  let ino := T.inodeTable x
  if ino.ident = d ∧ ino.mount ≠ 0 then some ino.mount else none

/-- The inode itself, or the root of what is mounted on it. -/
def top (d : Ident) : Ident :=
  match (List.range INODE_NR).findSome? (T.mountAt d) with
  | some dev => ⟨dev, 1⟩
  | none => d

/-- Where the first component of `name` leads from directory `d`, and the rest of the path. -/
def look (w : View) (d : Ident) (name : List UInt8) : Option (Ident × List UInt8) :=
  let e := T.under d name
  ((T.inodeOf e).bind (·.find w name)).map fun (k, off, next) =>
    (T.top ⟨e.dev, fetch (w k) off 2⟩, next)

end Tables

/-! ## 2. The tree -/

namespace Kernel

variable (s : Kernel)

abbrev look (d : Ident) (name : List UInt8) : Option (Ident × List UInt8) :=
  s.tab.look s.view d name

def isDir (d : Ident) : Bool := (s.tab.inodeOf d).any fun ino => ISDIR (ino.field s.view .mode)

/-- Some name leads from directory `a` to `b`. -/
def Names (a b : Ident) : Prop := s.isDir a = true ∧ ∃ name next, s.look a name = some (b, next)

/-- Directory `a` has an entry, other than `.` and `..`, for `b`. -/
def Child (a b : Ident) : Prop :=
  s.isDir a = true ∧ ∃ name next, isDot name = false ∧ isDotDot name = false ∧
    s.look a name = some (b, next)

/-- **The subtree of `R`.** -/
def Below (R d : Ident) : Prop := ReflTransGen s.Child R d

/-- What a walk from `R` may come to at all. -/
def Reaches (R d : Ident) : Prop := ReflTransGen s.Names R d

/-- **The directories make a tree**, as far as a walk from `R` may come: a directory has one parent
    and is not below its child; `.` is the directory itself, and `..` its parent, or itself. -/
structure Treelike (R : Ident) : Prop where
  one : ∀ {a b c}, s.Reaches R a → s.Reaches R b → s.isDir c = true → s.Child a c → s.Child b c →
    a = b
  acyclic : ∀ {a b}, s.Reaches R a → s.Child a b → ¬ s.Below b a
  dot : ∀ {d e name next}, s.Reaches R d → s.isDir d = true → isDot name = true →
    s.look d name = some (e, next) → e = d
  up : ∀ {d e name next}, s.Reaches R d → s.isDir d = true → isDotDot name = true →
    s.look d name = some (e, next) → e = d ∨ s.Child e d

end Kernel

section Tree

variable {s : Kernel} {R d e : Ident} {name next : List UInt8}

theorem Kernel.Child.names (h : s.Child d e) : s.Names d e := by
  obtain ⟨hd, name, next, -, -, hl⟩ := h
  exact ⟨hd, name, next, hl⟩

theorem Kernel.Treelike.branching (h : s.Treelike R) :
    Branching (s.Reaches R) (fun c => s.isDir c = true) s.Child where
  closed ha he := ha.tail he.names
  one := h.one
  acyclic := h.acyclic

/-- In a tree, a component is a move. -/
theorem Kernel.Treelike.move (h : s.Treelike R) (hd : s.Reaches R d) (hdir : s.isDir d = true)
    (hl : s.look d name = some (e, next)) : Move s.Child (isDotDot name) d e := by
  cases hup : isDotDot name with
  | true =>
    obtain rfl | hc := h.up hd hdir hup hl
    · exact .stay true e
    · exact .up hc
  | false =>
    cases hdot : isDot name with
    | true =>
      rw [h.dot hd hdir hdot hl]
      exact .stay false d
    | false => exact .down ⟨hdir, name, next, hdot, hup, hl⟩

end Tree

/-! ## 3. The tables while a lookup goes on -/

section Stable

variable {T T' : Tables} {refs : List Nat} {w : View} {x y : Nat}

/-- What the tables say of names depends on what is mounted alone. -/
theorem look_stays (hm : Mounted T) (hr : Rooted T refs) (hs : T.Stays T' refs) :
    T'.inodeOf = T.inodeOf ∧ T'.under = T.under ∧ T'.top = T.top := by
  have hget := hs.getSuper
  have hident : ∀ y ∈ refs, (T'.inodeTable y).ident = (T.inodeTable y).ident := by
    intro y hy
    obtain ⟨n, hn⟩ := hs.core y hy
    rw [hn]
    rfl
  refine ⟨?_, ?_, ?_⟩
  · funext d
    unfold Tables.inodeOf inodeBlock
    rw [hget]
    congr 1
    funext i
    rw [hs.super i]
  · funext d name
    unfold Tables.under
    rw [hget]
    cases hi : T.getSuper d.dev with
    | none => rfl
    | some i =>
      have himount : (T'.superTable i).imount = (T.superTable i).imount := by rw [hs.super i]
      simp only [Option.bind_some, himount]
      cases hy : (T.superTable i).imount with
      | none => rfl
      | some m =>
        have hi' : (T.superTable i).dev ≠ devEOF := by
          intro hdev
          rw [(hm.spare i hdev).2] at hy
          cases hy
        simp [hident m (hr.roots i hi' m (.inr hy)).1]
  · have hat : T'.mountAt = T.mountAt := by
      funext d x
      unfold Tables.mountAt
      simp only [hs.mount x]
      by_cases hx : (T.inodeTable x).mount = 0
      · simp [hx]
      · rw [hident x (hr.covered x hx)]
    funext d
    unfold Tables.top
    rw [hat]

/-- An inode in memory lies where its number says. -/
theorem Owned.inodeOf (h : Owned T refs) (hx : x ∈ refs) (hp : (T.inodeTable x).pipe = false) :
    ∃ ino, T.inodeOf (T.inodeTable x).ident = some ino ∧ ino.dev = (T.inodeTable x).dev ∧
      ino.buf = (T.inodeTable x).buf ∧ ino.desc = (T.inodeTable x).desc := by
  obtain ⟨i, hi⟩ := h.placed.onList x ((h.live x).mpr hx) hp
  have hhome := h.placed.home i x hi
  obtain ⟨hbuf, hdesc⟩ := h.placed.filled i x hi
  refine ⟨{ T.inodeTable x with count := 1, mount := 0, pipe := false }, ?_, rfl, rfl, rfl⟩
  simp only [Tables.inodeOf, Inode.ident, hhome, Option.map_some, ← hbuf, ← hdesc]

/-- An inode is in memory once. -/
theorem Owned.ident_inj (h : Owned T refs) (hx : x ∈ refs) (hp : (T.inodeTable x).pipe = false)
    (hy : y ∈ refs) (hp' : (T.inodeTable y).pipe = false)
    (e : (T.inodeTable x).ident = (T.inodeTable y).ident) : x = y := by
  obtain ⟨i, hi⟩ := h.placed.onList x ((h.live x).mpr hx) hp
  obtain ⟨j, hj⟩ := h.placed.onList y ((h.live y).mpr hy) hp'
  obtain ⟨hdev, hnr⟩ := Ident.mk.inj e
  have hi' := h.placed.home i x hi
  have hj' := h.placed.home j y hj
  rw [hdev, hj'] at hi'
  obtain rfl := Option.some.inj hi'
  exact h.placed.distinct _ x hi y hj hnr

theorem Inode.find_congr {ino ino' : Inode} (hdev : ino.dev = ino'.dev) (hbuf : ino.buf = ino'.buf)
    (hdesc : ino.desc = ino'.desc) : ino.find w = ino'.find w ∧ ino.field w = ino'.field w := by
  obtain ⟨dev, nr, buf, desc, count, mount, pipe⟩ := ino
  obtain ⟨dev', nr', buf', desc', count', mount', pipe'⟩ := ino'
  cases hdev
  cases hbuf
  cases hdesc
  exact ⟨rfl, rfl⟩

/-- What something is mounted on is in memory, and no pipe. -/
theorem Mounted.slot (hm : Mounted T) (ho : Owned T refs) (hx : (T.inodeTable x).mount ≠ 0) :
    x ∈ refs ∧ (T.inodeTable x).pipe = false := by
  obtain ⟨i, hi, hxi⟩ := hm.covered x hx
  obtain ⟨m, hm', hp⟩ := hm.covers i hi
  obtain rfl : x = m := Option.some.inj (hxi.symm.trans hm')
  exact ⟨ho.count_ne.mp fun hc => hx (ho.bare x fun h => ho.count_ne.mpr h hc).2, hp⟩

theorem mountAt_cases (T : Tables) (d : Ident) (x : Nat) : T.mountAt d x = none ∨
    (T.inodeTable x).ident = d ∧ (T.inodeTable x).mount ≠ 0 := by
  by_cases h : (T.inodeTable x).ident = d ∧ (T.inodeTable x).mount ≠ 0
  · exact .inr h
  · exact .inl (if_neg h)

/-- What is mounted on an inode in memory. -/
theorem top_of_slot (ho : Owned T refs) (hm : Mounted T) (hx : x ∈ refs)
    (hp : (T.inodeTable x).pipe = false) :
    T.top (T.inodeTable x).ident =
      if (T.inodeTable x).mount = 0 then (T.inodeTable x).ident else ⟨(T.inodeTable x).mount, 1⟩ := by
  have hat : ∀ z, T.mountAt (T.inodeTable x).ident z = none ∨
      z = x ∧ (T.inodeTable x).mount ≠ 0 := by
    intro z
    obtain hn | ⟨hid, hz⟩ := mountAt_cases T (T.inodeTable x).ident z
    · exact .inl hn
    · obtain ⟨hzr, hzp⟩ := hm.slot ho hz
      have e := ho.ident_inj hzr hzp hx hp hid
      exact .inr ⟨e, e ▸ hz⟩
  unfold Tables.top
  by_cases hmount : (T.inodeTable x).mount = 0
  · have hnone : (List.range INODE_NR).findSome? (T.mountAt (T.inodeTable x).ident) = none :=
      List.findSome?_eq_none_iff.mpr fun z _ => (hat z).resolve_right fun h => h.2 hmount
    rw [hnone, if_pos hmount]
  · have hself : T.mountAt (T.inodeTable x).ident x = some (T.inodeTable x).mount :=
      if_pos ⟨rfl, hmount⟩
    rw [if_neg hmount]
    cases hf : (List.range INODE_NR).findSome? (T.mountAt (T.inodeTable x).ident) with
    | none =>
      have := List.findSome?_eq_none_iff.mp hf x (List.mem_range.mpr (ho.bound x hx))
      rw [hself] at this
      cases this
    | some dev =>
      obtain ⟨z, -, hz⟩ := List.exists_of_findSome?_eq_some hf
      obtain hn | ⟨rfl, -⟩ := hat z
      · rw [hn] at hz
        cases hz
      · rw [hself] at hz
        cases hz
        rfl

/-- `iget` answers the inode, or the root of what is mounted on it. -/
theorem Got.ident {dev : Int} {nr : Nat} (h : Got T dev nr y T') (ho : Owned T refs) (hm : Mounted T) :
    (T'.inodeTable y).ident = T.top ⟨dev, nr⟩ := by
  have hslot : ∀ i x, T.getSuper dev = some i → x ∈ (T.superTable i).inodeList →
      (T.inodeTable x).nr = nr → x ∈ refs ∧ (T.inodeTable x).pipe = false ∧
        (T.inodeTable x).ident = ⟨dev, nr⟩ := by
    intro i x hi hx hnr
    refine ⟨ho.listed hx, (ho.lists.listed i x hx).2, ?_⟩
    have hd : (T.superTable i).dev = (T.inodeTable x).dev := getSuper_dev (ho.placed.home i x hx)
    rw [← hnr, ← getSuper_dev hi, hd]
    rfl
  have htook : ∀ z, ((T.took y).inodeTable z).ident = (T.inodeTable z).ident := by
    intro z
    obtain ⟨n, -, hn⟩ := Tables.took_inodeTable (T := T) y z
    rw [hn]
    rfl
  cases h with
  | found i _ hi hx hnr hmount =>
    obtain ⟨hmem, hp, hid⟩ := hslot i y hi hx hnr
    have := top_of_slot ho hm hmem hp
    rw [htook, ← hid, this, if_pos hmount]
  | crossed i x j _ hi hx hnr hmount hj hy =>
    obtain ⟨hmem, hp, hid⟩ := hslot i x hi hx hnr
    have := top_of_slot ho hm hmem hp
    have hdev : (T.superTable j).dev ≠ devEOF := getSuper_dev hj ▸ ho.mount x
    obtain ⟨r, hr, hrdev, hrnr, -⟩ := hm.roots j hdev
    cases hr.symm.trans hy
    rw [htook, ← hid, this, if_neg hmount, ← getSuper_dev hj, ← hrdev, ← hrnr]
    rfl
  | fresh i _ hi hnr hlt hfree =>
    have hnone : (List.range INODE_NR).findSome? (T.mountAt ⟨dev, nr⟩) = none := by
      refine List.findSome?_eq_none_iff.mpr fun z _ => ?_
      obtain hn | ⟨hid, hz⟩ := mountAt_cases T ⟨dev, nr⟩ z
      · exact hn
      · obtain ⟨hzr, hzp⟩ := hm.slot ho hz
        obtain ⟨k, hk⟩ := ho.placed.onList z ((ho.live z).mpr hzr) hzp
        have hhome := ho.placed.home k z hk
        obtain ⟨hzd, hzn⟩ := Ident.mk.inj hid
        rw [hzd, hi] at hhome
        obtain rfl := Option.some.inj hhome
        exact absurd hzn (hnr z hk)
    unfold Tables.top
    rw [hnone]
    simp [Tables.claimed, Tables.setSuper, Tables.setInode, Inode.ident]

end Stable

/-! ## 4. One component -/

/-- The blocks show the same. -/
def Sees (s t : Kernel) : Prop := t.view = s.view

instance : Steady Sees where
  refl _ := rfl
  trans h h' := Eq.trans h' h

theorem walks_sees : Walks Sees :=
  have hsame : ∀ {α : Type} {p : Code α}, Obeys Same p → Obeys Sees p :=
    fun h s a t hr => (h s a t hr).views
  Reading.walks
    ⟨fun dev block => hsame (bread_same dev block), fun k => hsame (bwrite_same k),
      fun k => hsame (brelse_same k), fun k => hsame (hold_same k 1)⟩
    (fun _ _ => obeys_modify fun _ => rfl) fun _ _ => obeys_modify fun _ => rfl

/-- **A lookup from `s₀` goes on**: it holds `held`, and the blocks show what they did. -/
structure Walking (s₀ : Kernel) (kept held : List Nat) (s : Kernel) : Prop where
  owns : Owns s₀.tab kept held s
  view : s.view = s₀.view

section Walking

variable {s₀ s t : Kernel} {kept held : List Nat} {x y dir e : Nat} {name next : List UInt8}

theorem Walking.same (h : Walking s₀ kept held s) (hs : Same s t) : Walking s₀ kept held t :=
  ⟨h.owns.congr hs.tab, hs.views.trans h.view⟩

variable (hm : Mounted s₀.tab) (hr : Rooted s₀.tab kept)
include hm hr

theorem Walking.stays (h : Walking s₀ kept held s) :
    Mounted s.tab ∧ s.tab.inodeOf = s₀.tab.inodeOf ∧ s.tab.under = s₀.tab.under ∧
      s.tab.top = s₀.tab.top := by
  have hst := h.owns.around.stays h.owns.core
  refine ⟨hm.stays (hst.mono fun x hx => ?_), look_stays hm hr hst⟩
  obtain ⟨i, -, hx⟩ := List.mem_flatMap.mp hx
  unfold SuperBlock.refs at hx
  split at hx
  · cases hx
  · rename_i hi
    rw [List.mem_append, Option.mem_toList, Option.mem_toList] at hx
    exact (hr.roots i hi x hx).1

/-- What is held reads as its number says. -/
theorem Walking.reads (hs : Walking s₀ kept held s) (hx : x ∈ held) :
    ∃ ino, s₀.tab.inodeOf (s.tab.inodeTable x).ident = some ino ∧
      ino.find s₀.view = (s.tab.inodeTable x).find s.view ∧
        ino.field s₀.view = (s.tab.inodeTable x).field s.view := by
  obtain ⟨-, hof, -, -⟩ := hs.stays hm hr
  obtain ⟨ino, hino, hdev, hbuf, hdesc⟩ :=
    hs.owns.owned.inodeOf (List.mem_append_left _ hx) (hs.owns.plain x hx)
  rw [hof] at hino
  rw [hs.view]
  exact ⟨ino, hino, Inode.find_congr hdev hbuf hdesc⟩

omit hm in
theorem Walking.iput (hs : Walking s₀ kept (x :: held) s) {u : Unit} (h : Ends (iput x) s u t) :
    Walking s₀ kept held t ∧ s.tab.Core t.tab held := by
  obtain ⟨-, hcore⟩ := (iput_putAway h).owned hs.owns.owned fun hx =>
    hs.owns.bare hr fun hk => hx (List.mem_append_right _ hk)
  exact ⟨⟨owns_iput hr x _ _ _ hs.owns h, (walks_sees.iput x _ _ _ h).trans hs.view⟩,
    fun y hy => hcore y (List.mem_append_left _ hy)⟩

/-- Where `iget` leads. -/
theorem Walking.iget (hs : Walking s₀ kept held s) {dev : Int} {nr : Nat} (hdev : dev ≠ devEOF)
    (h : Ends (iget dev nr) s y t) :
    Walking s₀ kept (y :: held) t ∧ (t.tab.inodeTable y).ident = s₀.tab.top ⟨dev, nr⟩ := by
  obtain ⟨hmt, -, -, htop⟩ := hs.stays hm hr
  obtain ⟨hgot, hv⟩ :=
    iget_got (fun i x hx => hs.owns.owned.count_ne.mpr (hs.owns.owned.listed hx)) h
  rw [← htop]
  exact ⟨⟨owns_iget hr hdev nr _ _ _ hs.owns h, hv.trans hs.view⟩, hgot.ident hs.owns.owned hmt⟩

/-- `..` in a root moves on to the covered directory. -/
theorem Walking.crossMount (hs : Walking s₀ kept (dir :: held) s)
    (h : Ends (crossMount dir name) s e t) :
    Walking s₀ kept (e :: held) t ∧
      (t.tab.inodeTable e).ident = s₀.tab.under (s.tab.inodeTable dir).ident name := by
  have ht : Walking s₀ kept (e :: held) t := ⟨(owns_crossMount hr dir name _ _ _ hs.owns h).1,
    (walks_sees.crossMount dir name _ _ _ h).trans hs.view⟩
  refine ⟨ht, ?_⟩
  obtain ⟨-, -, hunder, -⟩ := hs.stays hm hr
  rw [← hunder]
  obtain ⟨ino, s₁, ⟨rfl, rfl⟩, h⟩ := runs_bind.mp h
  obtain ⟨hc, h⟩ | ⟨hc, rfl, rfl⟩ := runs_ite.mp h
  · obtain ⟨sb, s₁, h₁, h⟩ := runs_bind.mp h
    obtain ⟨⟨i, hi, rfl⟩, rfl⟩ := runs_superOf.mp h₁
    obtain ⟨m, s₁, h₁, h⟩ := runs_bind.mp h
    obtain ⟨hmnt, rfl⟩ := runs_need.mp h₁
    obtain ⟨_, s₂, -, h⟩ := runs_bind.mp h
    obtain ⟨_, s₃, -, rfl, -⟩ := runs_bind.mp h
    have hi' : (s.tab.superTable i).dev ≠ devEOF := getSuper_dev hi ▸ hs.owns.live List.mem_cons_self
    have hk := (hs.owns.roots hr hi' (.inr hmnt)).1
    obtain ⟨n, hn⟩ := hs.owns.core m hk
    obtain ⟨n', hn'⟩ := ht.owns.core m hk
    have hunder : s.tab.under (s.tab.inodeTable dir).ident name = (s.tab.inodeTable m).ident := by
      have hi : s.tab.getSuper (s.tab.inodeTable dir).ident.dev = some i := hi
      have hmnt : (s.tab.superTable i).imount = some m := hmnt
      have hc : isDotDot name ∧ (s.tab.inodeTable dir).ident.nr = 1 := hc
      rw [Tables.under, if_pos hc, hi, Option.bind_some, hmnt]
      rfl
    rw [hunder, hn, hn']
    rfl
  · exact (if_neg hc).symm

/-- **Where a component leads**: `find_entry` answers the entry whose inode `iget` is asked for, and no
    entry where the component leads nowhere. -/
theorem Walking.findEntry_look (hs : Walking s₀ kept (dir :: held) s)
    {r : Option (Key × Nat × List UInt8)} (h : Ends (findEntry dir name) s (e, r) t) :
    Walking s₀ kept (e :: held) t ∧ s₀.isDir (s.tab.inodeTable dir).ident = true ∧
      s₀.look (s.tab.inodeTable dir).ident name = r.map fun r =>
        (s₀.tab.top ⟨(t.tab.inodeTable e).dev, fetch (t.view r.1) r.2.1 2⟩, r.2.2) := by
  obtain ⟨mode, s₁, h₁, h⟩ := runs_bind.mp h
  obtain ⟨rfl, rfl⟩ := runs_descGet.mp h₁
  obtain ⟨_, s₁, h₁, h⟩ := runs_bind.mp h
  obtain ⟨hdir, rfl⟩ := runs_assert.mp h₁
  obtain ⟨d, s₁, h₁, h⟩ := runs_bind.mp h
  obtain ⟨hs₁, hid⟩ := hs.crossMount hm hr h₁
  obtain ⟨size, s₂, h₂, h⟩ := runs_bind.mp h
  obtain ⟨rfl, rfl⟩ := runs_descGet.mp h₂
  obtain ⟨r', s₂, h₂, h⟩ := runs_bind.mp h
  obtain ⟨he, rfl⟩ := runs_pure.mp h
  obtain ⟨rfl, rfl⟩ := Prod.mk.inj he
  obtain ⟨hsame, hr'⟩ := findEntryLoop_find (by exact rfl) h₂
  refine ⟨hs₁.same hsame, ?_, ?_⟩
  · obtain ⟨ino, hino, -, hfield⟩ := hs.reads hm hr List.mem_cons_self
    unfold Kernel.isDir
    rw [hino, Option.any_some, hfield]
    exact hdir
  · obtain ⟨ino, hino, hfind, -⟩ := hs₁.reads hm hr List.mem_cons_self
    have hsize : s₁.desc d .size / 16 = (s₁.tab.inodeTable d).field s₁.view .size / 16 := rfl
    rw [hsize, ← List.range_eq_range'] at hr'
    have hr' : (s₁.tab.inodeTable d).find s₁.view name = r' := hr'.symm
    unfold Kernel.look Tables.look
    rw [hsame.tab, hsame.views, hs₁.view, ← hid]
    dsimp only
    rw [hino, Option.bind_some, hfind, hr']
    rfl

theorem Walking.findEntry (hs : Walking s₀ kept (dir :: held) s) {k : Key} {entry : Nat}
    (h : Ends (findEntry dir name) s (e, some (k, entry, next)) t) :
    Walking s₀ kept (e :: held) t ∧ s₀.isDir (s.tab.inodeTable dir).ident = true ∧
      s₀.look (s.tab.inodeTable dir).ident name =
        some (s₀.tab.top ⟨(t.tab.inodeTable e).dev, fetch (t.view k) entry 2⟩, next) :=
  hs.findEntry_look hm hr h

end Walking

end Yuios
