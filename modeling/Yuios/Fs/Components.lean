/-
  File:      Yuios/Fs/Components.lean
  Subject:   A PATH FROM COMPONENT TO COMPONENT: what `named` of `fs/namei.c` returns, on every tree of
             directories and every path that is spelled with single separators.

  * `Path` -- components and separators, one behind the other; `text` is the string.
  * `Tables.step`, `Kernel.enterable`, `Kernel.stroll` -- one component, whether the task may search what it
    leads to, and the walk through a list of them.
  * `Kernel.Passable` -- the directories that a walk may come to are in order, and so is what is mounted.
  * **`named_strolls`** -- `named` comes to its end, unless the inode table is full, at the directory that the
    walk comes to, or with NULL where the walk does not go on.
-/
import Yuios.Fs.Chroot
import Yuios.Fs.Content
import Yuios.Fs.FullName

namespace Yuios

open Lib Prog Code Relation

/-! ## 1. Paths -/

abbrev Separator := {c : UInt8 // isSeparator c = true}

/-- No byte is a separator or ends the string. -/
def Plain (text : List UInt8) : Prop := ∀ c ∈ text, isSeparator c = false ∧ c ≠ 0

theorem plain_of_all {text : List UInt8} (h : (text.all fun c => !isSeparator c && c != 0) = true) :
    Plain text := by
  simpa [Plain] using h

structure Component where
  text : List UInt8
  nonempty : text ≠ []
  plain : Plain text

/-- A path: a separator in front, components with a separator behind each, and a component without one
    at the end. Without the last one there is a separator at the end. -/
structure Path where
  lead : Option Separator
  dirs : List (Component × Separator)
  last : Option Component
  some : dirs ≠ [] ∨ last ≠ none

namespace Path

variable (p : Path)

def rest : List UInt8 := (p.last.map Component.text).getD []

/-- The components with a separator behind each, and what is left. -/
def spell (dirs : List (Component × Separator)) (rest : List UInt8) : List UInt8 :=
  dirs.flatMap (fun d => d.1.text ++ [d.2.1]) ++ rest

/-- The string. -/
def text : List UInt8 := (p.lead.map Subtype.val).toList ++ spell p.dirs p.rest

end Path

section Text

variable {pre rest text : List UInt8} {c : Component} {s : Separator} {dirs : List (Component × Separator)}

theorem Path.rest_plain (p : Path) : Plain p.rest := by
  unfold rest
  cases p.last with
  | none => exact fun c hc => absurd hc List.not_mem_nil
  | some c => exact c.plain

theorem Path.spell_cons (c : Component) (s : Separator) (dirs : List (Component × Separator))
    (rest : List UInt8) : spell ((c, s) :: dirs) rest = c.text ++ s.1 :: spell dirs rest := by
  simp [spell]

theorem afterLastSep_plain (h : Plain text) : afterLastSep text = none := by
  induction text with
  | nil => rfl
  | cons c cs ih =>
    have hc := (h c List.mem_cons_self).1
    rw [afterLastSep, ih fun d hd => h d (List.mem_cons_of_mem _ hd)]
    simp [hc]

theorem afterLastSep_append {right : List UInt8} (h : afterLastSep text = some right) :
    afterLastSep (pre ++ text) = some right := by
  induction pre with
  | nil => exact h
  | cons c cs ih => rw [List.cons_append, afterLastSep, ih]

/-- `strrsep` finds the separator in front of what is left. -/
theorem afterLastSep_spell (h : Plain rest) (hne : dirs ≠ []) :
    afterLastSep (Path.spell dirs rest) = some rest := by
  induction dirs with
  | nil => exact absurd rfl hne
  | cons d dirs ih =>
    obtain ⟨c, s⟩ := d
    rw [Path.spell_cons]
    refine afterLastSep_append ?_
    cases dirs with
    | nil =>
      show afterLastSep (s.1 :: rest) = _
      rw [afterLastSep, afterLastSep_plain h]
      simp [s.2]
    | cons d dirs =>
      rw [afterLastSep, ih (List.cons_ne_nil _ _)]

/-- **The two cursors meet** where no directory is left. -/
theorem spell_eq_rest : Path.spell dirs rest = rest ↔ dirs = [] := by
  constructor
  · intro h
    cases dirs with
    | nil => rfl
    | cons d dirs =>
      have := congrArg List.length h
      obtain ⟨c, s⟩ := d
      rw [Path.spell_cons] at this
      simp [Path.spell] at this
      omega
  · rintro rfl
    rfl

theorem length_le_spell : dirs.length ≤ (Path.spell dirs rest).length := by
  induction dirs with
  | nil => exact Nat.zero_le _
  | cons d dirs ih =>
    obtain ⟨c, s⟩ := d
    rw [Path.spell_cons]
    simp
    omega

theorem zero_notMem_spell (h : Plain rest) : (0 : UInt8) ∉ Path.spell dirs rest := by
  induction dirs with
  | nil => exact fun h0 => (h 0 h0).2 rfl
  | cons d dirs ih =>
    obtain ⟨c, s⟩ := d
    rw [Path.spell_cons]
    intro h0
    rcases List.mem_append.mp h0 with h0 | h0
    · exact (c.plain 0 h0).2 rfl
    · rcases List.mem_cons.mp h0 with h0 | h0
      · exact absurd s.2 (by rw [← h0]; decide)
      · exact ih h0

theorem Path.spell_ne_nil (p : Path) : spell p.dirs p.rest ≠ [] := by
  rcases p.some with h | h
  · obtain ⟨⟨c, s⟩, dirs, hd⟩ := List.exists_cons_of_ne_nil h
    rw [hd, spell_cons]
    simp
  · obtain ⟨c, hc⟩ := Option.ne_none_iff_exists'.mp h
    have hrest : p.rest = c.text := by rw [rest, hc]; rfl
    rw [hrest, spell]
    exact fun he => c.nonempty (List.append_eq_nil_iff.mp he).2

/-- **The first byte** says where the path starts. -/
theorem Path.text_cases (p : Path) : ∃ c cs, p.text = c :: cs ∧ isSeparator c = p.lead.isSome ∧
    (if isSeparator c then cs else c :: cs) = spell p.dirs p.rest := by
  unfold text
  cases p.lead with
  | some s => exact ⟨s.1, spell p.dirs p.rest, rfl, s.2, if_pos s.2⟩
  | none =>
    -- the first component begins with another byte
    have hhead : ∃ c cs, spell p.dirs p.rest = c :: cs ∧ isSeparator c = false := by
      cases hd : p.dirs with
      | nil =>
        obtain ⟨c, cs, he⟩ := List.exists_cons_of_ne_nil p.spell_ne_nil
        rw [hd] at he
        have hmem : c ∈ p.rest := by
          have he : p.rest = c :: cs := he
          rw [he]
          exact List.mem_cons_self
        exact ⟨c, cs, he, (p.rest_plain c hmem).1⟩
      | cons d dirs =>
        obtain ⟨a, s⟩ := d
        obtain ⟨c, cs, he⟩ := List.exists_cons_of_ne_nil a.nonempty
        rw [spell_cons, he]
        exact ⟨c, _, rfl, (a.plain c (by rw [he]; exact List.mem_cons_self)).1⟩
    obtain ⟨c, cs, he, hc⟩ := hhead
    refine ⟨c, cs, he, hc, ?_⟩
    rw [if_neg (by simp [hc]), he]

/-- The first component, and what is behind it. -/
theorem component_spell : component (c.text ++ s.1 :: rest) = c.text ∧
    afterComponent (c.text ++ s.1 :: rest) = rest :=
  component_append (fun b hb => (c.plain b hb).1) s.2

end Text

/-! ## 2. Steps -/

/-- The number in the first live entry of that name. -/
def Inode.child (ino : Inode) (w : View) (c : List UInt8) : Option Nat :=
  ((List.range (ino.field w .size / 16)).find? fun i => ino.entryName w i == c && decide (ino.entryLive w i)).map
    fun i => fetch (w (ino.entry w i).1) (ino.entry w i).2 2

namespace Tables

variable (T : Tables)

/-- The directory that the volume of `d` is mounted on. -/
def covered (d : Ident) : Ident :=
  (((T.getSuper d.dev).bind fun i => (T.superTable i).imount).map fun m => (T.inodeTable m).ident).getD d

/-- **One component.** `..` in a volume's root is looked up in the directory that it covers; and what is
    covered leads to the root of what is mounted on it. -/
def step (w : View) (d : Ident) (c : List UInt8) : Option Ident :=
  let e := if c = DOTDOT ∧ d.nr = 1 then T.covered d else d
  ((T.inodeOf e).bind (·.child w c)).map fun nr => T.top ⟨e.dev, nr⟩

end Tables

namespace Kernel

variable (s : Kernel)

/-- A directory, and the running task may search it. -/
def enterable (e : Ident) : Bool := (s.tab.inodeOf e).any fun ino => ino.enters s.view (s.tab.task s.tab.running)

/-- **Through the components**, as long as each leads to a directory that may be searched. -/
def stroll (d : Ident) (cs : List (List UInt8)) : Option Ident :=
  cs.foldlM (fun d c => (s.tab.step s.view d c).filter s.enterable) d

/-- Where a path starts. -/
def start (p : Path) : Ident := if p.lead.isSome then s.rootIdent else s.pwdIdent

end Kernel

/-- **The directory is in order**: its blocks have zones, its names end before their field does, and its live
    entries have names of one component and numbers that the volume has. -/
structure Inode.Tidy (ino : Inode) (w : View) (inodes : Nat) : Prop where
  mapped : ∀ i < ino.field w .size / 16, i / BLOCK_DENTRIES < TOTAL_BLOCK ∧ ino.zone w (i / BLOCK_DENTRIES) ≠ 0
  ended : ∀ i < ino.field w .size / 16, (ino.entryName w i).length < NAME_LEN
  single : ∀ i < ino.field w .size / 16, ino.entryLive w i → ∀ c ∈ ino.entryName w i, isSeparator c = false
  number : ∀ i < ino.field w .size / 16, fetch (w (ino.entry w i).1) (ino.entry w i).2 2 ≤ inodes

section Steps

variable {T : Tables} {s : Kernel} {ino : Inode} {w : View} {d : Ident} {inodes : Nat} {name text : List UInt8}

theorem findSome?_ite {α β : Type} (p : α → Bool) (f : α → β) (l : List α) :
    (l.findSome? fun x => if p x then some (f x) else none) = (l.find? p).map f := by
  induction l with
  | nil => rfl
  | cons x l ih =>
    rw [List.findSome?_cons, List.find?_cons]
    cases p x with
    | true => rfl
    | false => exact ih

theorem Inode.findNamed_child (ino : Inode) (w : View) (name : List UInt8) :
    (ino.findNamed w name).map (fun r => (fetch (w r.1) r.2.1 2, r.2.2)) =
      (ino.child w (component name)).map fun nr => (nr, afterComponent name) := by
  have hmatch : ino.nameMatch w name = fun i =>
      if ino.entryName w i == component name && decide (ino.entryLive w i) then
        some ((ino.entry w i).1, (ino.entry w i).2, afterComponent name) else none := by
    funext i
    simp [nameMatch]
  rw [findNamed, hmatch, findSome?_ite, child, Option.map_map, Option.map_map]
  rfl

/-- In a directory in order, the entries are compared as wholes. -/
theorem Inode.Tidy.regular (h : ino.Tidy w inodes) (name : List UInt8) : ino.AllRegular w name := by
  intro i hi _
  refine ⟨fun _ => h.ended i hi, fun hl ⟨c, hc, hs⟩ => ?_⟩
  rw [h.single i hi hl c hc] at hs
  cases hs

/-- **What `find_entry` finds**: the first live entry of that name. -/
theorem Inode.Tidy.find (h : ino.Tidy w inodes) (hname : (0 : UInt8) ∉ name) :
    (ino.find w name).map (fun r => (fetch (w r.1) r.2.1 2, r.2.2)) =
      (ino.child w (component name)).map fun nr => (nr, afterComponent name) := by
  rw [((Inode.find_named hname).mpr (h.regular name)).1, findNamed_child]

/-- A directory is its device, and where its descriptor lies. -/
theorem Inode.Tidy.congr {ino' : Inode} (h : ino.Tidy w inodes) (hdev : ino.dev = ino'.dev)
    (hbuf : ino.buf = ino'.buf) (hdesc : ino.desc = ino'.desc) : ino'.Tidy w inodes := by
  obtain ⟨dev, nr, buf, desc, count, mount, pipe⟩ := ino
  obtain ⟨dev', nr', buf', desc', count', mount', pipe'⟩ := ino'
  cases hdev
  cases hbuf
  cases hdesc
  exact ⟨h.mapped, h.ended, h.single, h.number⟩

theorem Inode.child_congr {ino' : Inode} (hdev : ino.dev = ino'.dev) (hbuf : ino.buf = ino'.buf)
    (hdesc : ino.desc = ino'.desc) : ino.child w = ino'.child w := by
  obtain ⟨dev, nr, buf, desc, count, mount, pipe⟩ := ino
  obtain ⟨dev', nr', buf', desc', count', mount', pipe'⟩ := ino'
  cases hdev
  cases hbuf
  cases hdesc
  rfl

theorem Inode.Tidy.child_le (h : ino.Tidy w inodes) {nr : Nat} (hc : ino.child w name = some nr) : nr ≤ inodes := by
  obtain ⟨i, hi, rfl⟩ := Option.map_eq_some_iff.mp hc
  exact h.number i (List.mem_range.mp (List.mem_of_find?_eq_some hi))

/-- A name that ends with its string matches the paths with that first component. -/
theorem matchName_component {b : Bytes} {off : Nat} {pre : List UInt8} (h : HoldsName b off pre)
    (h0 : b (off + pre.length) = 0) (hpre : ∀ c ∈ pre, isSeparator c = false) (hname : (0 : UInt8) ∉ name) :
    (matchName b off name).isSome = true ↔ component name = pre := by
  by_cases hp : pre <+: name
  · obtain ⟨rest, rfl⟩ := hp
    have hrest : (0 : UInt8) ∉ rest := fun hr => hname (List.mem_append_right _ hr)
    rw [(matchName_append rest h).1, (matchName_end h0 hrest).1]
    cases hend : atEnd rest with
    | true => exact iff_of_true rfl (component_append hpre hend).1
    | false =>
      refine iff_of_false Bool.false_ne_true fun hc => ?_
      obtain ⟨rest', he, -, hend'⟩ := component_iff.mp hc
      rw [List.append_cancel_left he, hend'] at hend
      cases hend
  · rw [(matchName_differs h hp).1]
    refine iff_of_false Bool.false_ne_true fun hc => hp ?_
    obtain ⟨rest', he, -, -⟩ := component_iff.mp hc
    exact ⟨rest', he.symm⟩

theorem isDotDot_iff (hname : (0 : UInt8) ∉ name) : isDotDot name = true ↔ component name = DOTDOT := by
  have hplain : Plain DOTDOT := plain_of_all rfl
  refine matchName_component (fun j hj => ?_) rfl (fun c hc => (hplain c hc).1) hname
  rw [Nat.zero_add]
  refine ⟨by simp [ofString, hj], ?_⟩
  have hj : j < 2 := hj
  obtain rfl | rfl : j = 0 ∨ j = 1 := by omega
  · exact (by decide : (46 : UInt8) ≠ 0)
  · exact (by decide : (46 : UInt8) ≠ 0)

/-- The directory a component is looked up in. -/
theorem under_component (hname : (0 : UInt8) ∉ name) :
    T.under d name = if component name = DOTDOT ∧ d.nr = 1 then T.covered d else d :=
  if_congr (and_congr_left' (isDotDot_iff hname)) rfl rfl

end Steps

/-! ## 3. A lookup that can go on -/

/-- The directory, as its volume shows it, is in order. -/
def Kernel.Tidy (s : Kernel) (d : Ident) : Prop :=
  ∀ i ino, s.tab.getSuper d.dev = some i → s.tab.inodeOf d = some ino →
    ino.Tidy s.view (s.tab.superTable i).inodes

/-- **Walks can go on anywhere**: they start in directories, and all that they may come to are in order; what
    is mounted is known, an inode in memory holds its block, and slot 0 is the system's root. -/
structure Kernel.Passable (s : Kernel) (refs : List Nat) : Prop where
  root : s.isDir s.rootIdent = true
  pwd : s.isDir s.pwdIdent = true
  tidy : ∀ R, R = s.rootIdent ∨ R = s.pwdIdent → ∀ d, s.Reaches R d → s.isDir d = true →
    s.Tidy d ∧ s.Tidy (s.tab.covered d)
  mounts : ∀ x, (s.tab.inodeTable x).mount ≠ 0 → ∃ i, s.tab.getSuper (s.tab.inodeTable x).mount = some i
  backed : ∀ k, (s.tab.owners k : Int) ≤ (s.cache.buf k).count
  first : 0 ∈ refs

/-- No slot for an inode is free. -/
def Kernel.Full (s : Kernel) : Prop := ∀ x < INODE_NR, (s.tab.inodeTable x).Live

/-- **The code comes to its end**, or stops in `get_free_inode` because no slot is free. -/
def Settles {α : Type} (full : Prop) (p : Code α) (s : Kernel) : Prop :=
  (∃ a t, Ends p s a t) ∨ full ∧ p.run s = .error .panic

/-- It comes to its end with what is said of it. -/
def Answers {α : Type} (full : Prop) (p : Code α) (s : Kernel) (Q : α → Kernel → Prop) : Prop :=
  Settles full p s ∧ ∀ a t, Ends p s a t → Q a t

/-- A lookup that has taken references to the inodes in `held` and to the buffers in `leak`. -/
structure Underway (s₀ : Kernel) (kept held : List Nat) (leak : List Key) (s : Kernel) : Prop
    extends Walking s₀ kept held s where
  holding : Holding s₀ held leak s

section Settles

variable {α β : Type} {full : Prop} {p : Code α} {f : α → Code β} {s t : Kernel} {a : α}

theorem settles_of_ends (h : Ends p s a t) : Settles full p s := .inl ⟨a, t, h⟩

theorem settles_bind (h : Settles full p s) (hf : ∀ a t, Ends p s a t → Settles full (f a) t) :
    Settles full (p >>= f) s := by
  cases h with
  | inr h => exact .inr ⟨h.1, run_stopped h.2⟩
  | inl h =>
    obtain ⟨a, t, h⟩ := h
    cases hf a t h with
    | inl h' =>
      obtain ⟨b, u, h'⟩ := h'
      exact .inl ⟨b, u, runs_bind.mpr ⟨a, t, h, h'⟩⟩
    | inr h' => exact .inr ⟨h'.1, (run_then (ends_iff.mp h)).trans h'.2⟩

theorem settles_then (h : Ends p s a t) (hf : Settles full (f a) t) : Settles full (p >>= f) s :=
  settles_bind (settles_of_ends h) fun a' t' h' => by
    obtain ⟨rfl, rfl⟩ := ends_unique h h'
    exact hf

theorem answers_bind {Q : β → Kernel → Prop} (h : Settles full p s)
    (hf : ∀ a t, Ends p s a t → Answers full (f a) t Q) : Answers full (p >>= f) s Q := by
  refine ⟨settles_bind h fun a t h' => (hf a t h').1, fun b u hb => ?_⟩
  obtain ⟨a, t, h₁, h₂⟩ := runs_bind.mp hb
  exact (hf a t h₁).2 b u h₂

theorem answers_then {Q : β → Kernel → Prop} (h : Ends p s a t) (hf : Answers full (f a) t Q) :
    Answers full (p >>= f) s Q :=
  answers_bind (settles_of_ends h) fun a' t' h' => by
    obtain ⟨rfl, rfl⟩ := ends_unique h h'
    exact hf

theorem answers_pure {Q : α → Kernel → Prop} (h : Q a s) : Answers full (pure a : Code α) s Q :=
  ⟨settles_of_ends ⟨rfl, rfl⟩, fun _ _ h' => by
    obtain ⟨rfl, rfl⟩ := runs_pure.mp h'
    exact h⟩

end Settles

/-- The tables that are in order for a lookup are booked. -/
theorem Kernel.Ready.booked {s : Kernel} {refs : List Nat} (h : s.Ready refs) : Booked s.tab where
  free x hx := by
    have hx : x ∉ refs := fun hm => hx ((h.owned.live x).mpr hm)
    exact ⟨by rw [h.owned.count x, List.count_eq_zero.mpr hx], (h.owned.bare x hx).1⟩
  live x hx := by
    have hx := (h.owned.live x).mp hx
    exact ⟨h.owned.count_ne.mpr hx, h.owned.bound x hx⟩
  mount := h.owned.mount
  listed := h.owned.lists.listed
  nodup := h.owned.lists.nodup
  apart := h.owned.lists.apart
  roots i hi y hy := (h.owned.live y).mpr (h.rooted.roots i hi y hy).1
  task := ⟨(h.owned.live _).mpr (h.starts _ (.inl rfl)).1, (h.owned.live _).mpr (h.starts _ (.inr rfl)).1⟩

theorem Kernel.Ready.underway {s : Kernel} {refs : List Nat} (h : s.Ready refs) : Underway s refs [] [] s :=
  ⟨h.walking, holding_refl h.booked⟩

/-! ## 4. The calls come to their end -/

section Calls

variable {full : Prop} {s t : Kernel} {refs : List Nat} {x : Nat} {k : Key}

theorem settles_modify {f : Kernel → Kernel} : Settles full (Prog.modify f : Code Unit) s :=
  .inl ⟨(), f s, runs_modify.mpr rfl⟩

theorem settles_inodeAt {β : Type} {f : Inode → Code β} (h : Settles full (f (s.tab.inodeTable x)) s) :
    Settles full (inodeAt x >>= f) s := settles_then ⟨rfl, rfl⟩ h

theorem settles_onInode {β : Type} {g : Inode → Inode} {f : Unit → Code β}
    (h : Settles full (f ()) (s.setInode x (g (s.tab.inodeTable x)))) :
    Settles full (onInode x g >>= f) s := settles_then (runs_modify.mpr rfl) h

theorem settles_assert {β : Type} {c : Bool} {f : Unit → Code β} (hc : c = true) (h : Settles full (f ()) s) :
    Settles full (Code.assert c >>= f) s := settles_then (runs_assert.mpr ⟨hc, rfl⟩) h

theorem settles_superOf {β : Type} {dev : Int} {i : Nat} {f : SuperBlock → Code β}
    (hi : s.tab.getSuper dev = some i) (h : Settles full (f (s.tab.superTable i)) s) :
    Settles full (superOf dev >>= f) s := settles_then (runs_superOf.mpr ⟨⟨i, hi, rfl⟩, rfl⟩) h

theorem settles_brelse (hpos : 0 < (s.cache.buf k).count) : Settles full (brelse k) s := by
  obtain ⟨t, ht, -⟩ := brelse_ends hpos
  exact settles_of_ends ht

theorem settles_descGet {β : Type} {fd : Field} {f : Nat → Code β} (h : Settles full (f (s.desc x fd)) s) :
    Settles full (descGet x fd >>= f) s := settles_then (runs_descGet.mpr ⟨rfl, rfl⟩) h

/-- Reading a descriptor does not stop. -/
theorem settles_searchable : Settles full (searchable x) s := by
  have hret : ∀ b : Bool, Settles full (return b) s := fun b => settles_of_ends ⟨rfl, rfl⟩
  refine settles_descGet ?_
  split
  · refine settles_descGet (settles_descGet ?_)
    split
    · exact hret false
    · refine settles_then (runs_runningTask.mpr ⟨rfl, rfl⟩) ?_
      split
      · exact hret true
      · exact settles_descGet (settles_descGet (hret _))
  · exact hret false

theorem getSuper_bound {T : Tables} {dev : Int} {i : Nat} (h : T.getSuper dev = some i) : i < SUPER_NR :=
  List.mem_range.mp (List.mem_of_find?_eq_some h)

/-- `iput` of an inode that is no pipe: its last reference is not that of slot 0. -/
theorem settles_iput (ho : Owned s.tab (x :: refs)) (hp : (s.tab.inodeTable x).pipe = false) (h0 : 0 ∈ refs)
    (hb : ∀ k, (s.tab.owners k : Int) ≤ (s.cache.buf k).count) : Settles full (iput x) s := by
  have hlive : (s.tab.inodeTable x).Live := (ho.live x).mpr List.mem_cons_self
  have hcount := ho.count x
  rw [List.count_cons_self] at hcount
  refine settles_inodeAt ?_
  rw [if_neg (by simp [hp])]
  obtain ⟨s₁, h₁, hsame⟩ := bwrite_run s (s.tab.inodeTable x).buf
  have hcounts := bwrite_counts _ _ _ _ (ends_iff.mpr h₁)
  refine settles_then (ends_iff.mpr h₁) (settles_onInode (settles_inodeAt ?_))
  obtain ⟨s₂, hs₂⟩ : ∃ s₂, s₂ = s₁.setInode x
      { s₁.tab.inodeTable x with count := (s₁.tab.inodeTable x).count - 1 } := ⟨_, rfl⟩
  rw [← hs₂]
  have hself : s₂.tab.inodeTable x = { s.tab.inodeTable x with count := (s.tab.inodeTable x).count - 1 } := by
    rw [hs₂, hsame.tab]
    exact Function.update_self ..
  rw [hself]
  by_cases hz : (s.tab.inodeTable x).count - 1 = 0
  · rw [if_neg (not_not.mpr hz)]
    -- the slot holds the block of its descriptor
    have hpos : 0 < (s₂.cache.buf (s.tab.inodeTable x).buf).count := by
      have howner : 0 < s.tab.owners (s.tab.inodeTable x).buf := by
        refine List.countP_pos_iff.mpr ⟨x, List.mem_range.mpr (ho.bound x List.mem_cons_self), ?_⟩
        have hlive : (s.tab.inodeTable x).dev ≠ devEOF := hlive
        simp [Inode.owns, hp, hlive]
      have := hb (s.tab.inodeTable x).buf
      have hsame₂ : (s₂.cache.buf (s.tab.inodeTable x).buf).count =
          (s.cache.buf (s.tab.inodeTable x).buf).count := by
        rw [hs₂]
        exact hcounts _
      omega
    refine settles_bind (settles_brelse hpos) fun _ s₃ h₃ => ?_
    have htab₃ := (brelse_same _ _ _ _ h₃).tab
    obtain ⟨i, hi⟩ := ho.placed.onList x hlive hp
    have hlist : ∀ j, s₃.tab.superTable j = s.tab.superTable j := fun j => by
      rw [htab₃, hs₂]
      exact congrFun (congrArg Tables.superTable hsame.tab) j
    have hremove : Settles full (listRemoveInode x) s₃ := by
      cases hf : (List.range SUPER_NR).find? fun i => (s₃.tab.superTable i).inodeList.contains x with
      | none =>
        have := List.find?_eq_none.mp hf i (List.mem_range.mpr (getSuper_bound (ho.placed.home i x hi)))
        simp [hlist, hi] at this
      | some j =>
        exact settles_then ⟨rfl, rfl⟩ (settles_then (runs_need.mpr ⟨hf, rfl⟩) settles_modify)
    refine settles_bind hremove fun _ s₄ h₄ => ?_
    obtain ⟨j, -, hs₄⟩ := runs_listRemoveInode h₄
    have hx0 : x ≠ 0 := by
      rintro rfl
      have := List.count_pos_iff.mpr h0
      omega
    have hzero : (s₄.tab.inodeTable x).count = 0 := by
      rw [hs₄]
      show (s₃.tab.inodeTable x).count = 0
      rw [htab₃, hself]
      exact hz
    exact settles_assert (by simpa using hx0) (settles_inodeAt (settles_assert (by simpa using hzero)
      settles_modify))
  · rw [if_pos hz]
    exact settles_of_ends ⟨rfl, rfl⟩

end Calls

/-! ## 5. A lookup goes on -/

section Underway

variable {full : Prop} {s₀ s t : Kernel} {kept held : List Nat} {leak : List Key} {x y dir e : Nat}
  {name : List UInt8} {k : Key} {u : Unit}

theorem Underway.brelse (h : Underway s₀ kept held (k :: leak) s) (h' : Ends (brelse k) s u t) :
    Underway s₀ kept held leak t :=
  ⟨h.toWalking.same (brelse_same k _ _ _ h'), holding_brelse k _ _ _ h.holding h'⟩

/-- A reference to an inode in use. -/
theorem Underway.count (h : Underway s₀ kept held leak s) (hx : x ∈ kept)
    (hp : (s₀.tab.inodeTable x).pipe = false)
    (h' : Ends (onInode x fun i => { i with count := i.count + 1 }) s u t) :
    Underway s₀ kept (x :: held) leak t ∧ (t.tab.inodeTable x).ident = (s₀.tab.inodeTable x).ident := by
  obtain ⟨n, hn⟩ := h.owns.core x hx
  have ht : Underway s₀ kept (x :: held) leak t := by
    refine ⟨⟨owns_count x _ _ _ ⟨h.owns, hx, by rw [hn]; exact hp⟩ h',
      (walks_sees.count x _ _ _ h').trans h.view⟩, holding_count x _ _ _ ⟨h.holding, ?_⟩ h'⟩
    exact (h.owns.owned.live x).mpr (List.mem_append_right _ hx)
  obtain ⟨m, hm⟩ := ht.owns.core x hx
  exact ⟨ht, by rw [hm]; rfl⟩

variable (hm : Mounted s₀.tab) (hr : Rooted s₀.tab kept) (hg : s₀.Passable kept)

include hg in
/-- The inodes in memory and the code hold what they have taken. -/
theorem Underway.backed (h : Underway s₀ kept held leak s) (k : Key) :
    (s.tab.owners k : Int) + leak.count k ≤ (s.cache.buf k).count := by
  have := h.holding.balance k
  have := hg.backed k
  omega

include hg in
theorem Underway.settles_brelse (h : Underway s₀ kept held (k :: leak) s) : Settles full (Yuios.brelse k) s := by
  refine Yuios.settles_brelse ?_
  have := h.backed hg k
  rw [List.count_cons_self] at this
  omega

include hr in
theorem Underway.iput (h : Underway s₀ kept (x :: held) leak s) (h' : Ends (iput x) s u t) :
    Underway s₀ kept held leak t ∧ s.tab.Core t.tab held :=
  have hw := h.toWalking.iput hr h'
  ⟨⟨hw.1, holding_iput x _ _ _ h.holding h'⟩, hw.2⟩

include hg in
theorem Underway.settles_iput (h : Underway s₀ kept (x :: held) leak s) : Settles full (Yuios.iput x) s :=
  Yuios.settles_iput h.owns.owned (h.owns.plain x List.mem_cons_self) (List.mem_append_right _ hg.first) fun k => by
    have := h.backed hg k
    omega

include hm hr in
/-- What is held reads as its number says, and its volume is known. -/
theorem Walking.slot (h : Walking s₀ kept held s) (hx : x ∈ held) :
    ∃ i ino, s₀.tab.getSuper (s.tab.inodeTable x).dev = some i ∧
      s₀.tab.inodeOf (s.tab.inodeTable x).ident = some ino ∧ ino.dev = (s.tab.inodeTable x).dev ∧
      ino.buf = (s.tab.inodeTable x).buf ∧ ino.desc = (s.tab.inodeTable x).desc := by
  obtain ⟨-, hof, -, -⟩ := h.stays hm hr
  have hget := (h.owns.around.stays h.owns.core).getSuper
  have hp := h.owns.plain x hx
  obtain ⟨i, hi⟩ := h.owns.owned.placed.onList x (h.owns.live hx) hp
  have hhome := h.owns.owned.placed.home i x hi
  obtain ⟨ino, hino, hdev, hbuf, hdesc⟩ := h.owns.owned.inodeOf (List.mem_append_left _ hx) hp
  rw [hget] at hhome
  rw [hof] at hino
  exact ⟨i, ino, hhome, hino, hdev, hbuf, hdesc⟩

include hm hr in
/-- The test of `named` on what a component leads to. -/
theorem Walking.enters (h : Walking s₀ kept held s) (hx : x ∈ held) {ok : Bool}
    (h' : Ends (Yuios.searchable x) s ok t) : s = t ∧ ok = s₀.enterable (s.tab.inodeTable x).ident := by
  obtain ⟨rfl, hok⟩ := searchable_enters h'
  refine ⟨rfl, hok.trans ?_⟩
  obtain ⟨i, ino, -, hino, -, hbuf, hdesc⟩ := h.slot hm hr hx
  unfold Kernel.enterable
  rw [hino, Option.any_some, Inode.enters_congr hbuf hdesc, h.view, h.owns.around.task, h.owns.around.running]

include hm hr in
/-- **`..` in a root** moves on to the directory that it covers. -/
theorem Underway.crossMount (h : Underway s₀ kept (dir :: held) leak s) (h' : Ends (crossMount dir name) s e t) :
    Underway s₀ kept (e :: held) leak t ∧
      (t.tab.inodeTable e).ident = s₀.tab.under (s.tab.inodeTable dir).ident name :=
  have hw := h.toWalking.crossMount hm hr h'
  ⟨⟨hw.1, holding_crossMount dir name _ _ _ h.holding h'⟩, hw.2⟩

include hm hr hg in
theorem Underway.settles_crossMount (h : Underway s₀ kept (dir :: held) leak s) :
    Settles full (Yuios.crossMount dir name) s := by
  refine settles_inodeAt ?_
  split
  · obtain ⟨i, ino, hi, -⟩ := h.slot hm hr List.mem_cons_self
    have hst := h.owns.around.stays h.owns.core
    have hi : s.tab.getSuper (s.tab.inodeTable dir).dev = some i := by rw [hst.getSuper, hi]
    have hdev : (s.tab.superTable i).dev ≠ devEOF := getSuper_dev hi ▸ h.owns.live List.mem_cons_self
    obtain ⟨hmt, -⟩ := h.toWalking.stays hm hr
    obtain ⟨m, hmnt, -⟩ := hmt.covers i hdev
    have hk := (h.owns.roots hr hdev (.inr hmnt)).1
    have hp : (s₀.tab.inodeTable m).pipe = false := by
      obtain ⟨n, hn⟩ := h.owns.core m hk
      have := (h.owns.roots hr hdev (.inr hmnt)).2
      rwa [hn] at this
    refine settles_superOf hi (settles_then (runs_need.mpr ⟨hmnt, rfl⟩) ?_)
    refine settles_bind settles_modify fun _ s₁ h₁ => ?_
    have hs₁ := (h.count hk hp h₁).1
    have hs₁' : Underway s₀ kept (dir :: m :: held) leak s₁ :=
      ⟨⟨hs₁.owns.perm (.swap _ _ _), hs₁.view⟩, hs₁.holding.perm (.swap _ _ _)⟩
    exact settles_bind (hs₁'.settles_iput hg) fun _ s₂ _ => settles_of_ends ⟨rfl, rfl⟩
  · exact settles_of_ends ⟨rfl, rfl⟩

include hm hr in
theorem Underway.isDir (h : Underway s₀ kept held leak s) (hx : x ∈ held) :
    s₀.isDir (s.tab.inodeTable x).ident = ISDIR (s.desc x .mode) := by
  obtain ⟨ino, hino, -, hfield⟩ := h.toWalking.reads hm hr hx
  unfold Kernel.isDir
  rw [hino, Option.any_some, hfield]
  rfl

include hm hr in
/-- **`find_entry`** comes to the directory that the component is looked up in, and finds the first live
    entry of that name there. -/
theorem Underway.findEntry (h : Underway s₀ kept (dir :: held) leak s)
    (ht : s₀.Tidy (s₀.tab.under (s.tab.inodeTable dir).ident name)) (hname : (0 : UInt8) ∉ name)
    {r : Option (Key × Nat × List UInt8)} (h' : Ends (findEntry dir name) s (e, r) t) :
    Underway s₀ kept (e :: held) ((r.map (·.1)).toList ++ leak) t ∧
      (t.tab.inodeTable e).ident = s₀.tab.under (s.tab.inodeTable dir).ident name ∧
        r.map (fun r => (fetch (t.view r.1) r.2.1 2, r.2.2)) =
          ((s₀.tab.inodeOf (t.tab.inodeTable e).ident).bind (·.child s₀.view (component name))).map
            fun nr => (nr, afterComponent name) := by
  have hhold := holding_findEntry dir name _ _ _ h.holding h'
  obtain ⟨mode, s₁, h₁, h'⟩ := runs_bind.mp h'
  obtain ⟨rfl, rfl⟩ := runs_descGet.mp h₁
  obtain ⟨_, s₁, h₁, h'⟩ := runs_bind.mp h'
  obtain ⟨-, rfl⟩ := runs_assert.mp h₁
  obtain ⟨d, s₁, h₁, h'⟩ := runs_bind.mp h'
  obtain ⟨hs₁, hid⟩ := h.crossMount hm hr h₁
  obtain ⟨size, s₂, h₂, h'⟩ := runs_bind.mp h'
  obtain ⟨rfl, rfl⟩ := runs_descGet.mp h₂
  obtain ⟨r', s₂, h₂, h'⟩ := runs_bind.mp h'
  obtain ⟨he, rfl⟩ := runs_pure.mp h'
  obtain ⟨rfl, rfl⟩ := Prod.mk.inj he
  obtain ⟨hsame, hr'⟩ := findEntryLoop_find (by exact rfl) h₂
  have hfind : r' = (s₁.tab.inodeTable d).find s₁.view name := by
    rw [hr', ← List.range_eq_range']
    rfl
  obtain ⟨i, ino, hi, hino, hdev, hbuf, hdesc⟩ := hs₁.slot hm hr List.mem_cons_self
  have hi' : s₀.tab.getSuper (s₁.tab.inodeTable d).ident.dev = some i := hi
  rw [← hid] at ht
  have htidy := (ht i ino hi' hino).congr hdev hbuf hdesc
  refine ⟨⟨hs₁.toWalking.same hsame, hhold⟩, by rw [hsame.tab]; exact hid, ?_⟩
  rw [hsame.tab, hino, Option.bind_some, Inode.child_congr hdev hbuf hdesc, ← htidy.find hname, hfind,
    hsame.views, hs₁.view]

include hm hr hg in
theorem Underway.settles_findEntry (h : Underway s₀ kept (dir :: held) leak s)
    (hdir : s₀.isDir (s.tab.inodeTable dir).ident = true)
    (ht : s₀.Tidy (s₀.tab.under (s.tab.inodeTable dir).ident name)) :
    Settles full (Yuios.findEntry dir name) s := by
  rw [h.isDir hm hr List.mem_cons_self] at hdir
  refine settles_descGet (settles_assert hdir ?_)
  refine settles_bind (h.settles_crossMount hm hr hg) fun d s₁ h₁ => ?_
  obtain ⟨hs₁, hid⟩ := h.crossMount hm hr h₁
  refine settles_descGet (settles_bind ?_ fun _ _ _ => settles_of_ends ⟨rfl, rfl⟩)
  obtain ⟨i, ino, hi, hino, hdev, hbuf, hdesc⟩ := hs₁.slot hm hr List.mem_cons_self
  have hi' : s₀.tab.getSuper (s₁.tab.inodeTable d).ident.dev = some i := hi
  rw [← hid] at ht
  have htidy := (ht i ino hi' hino).congr hdev hbuf hdesc
  have hmapped : Mapped s₁ d := by
    rw [← hs₁.view] at htidy
    exact htidy.mapped
  have hcounts : CountsKept s₁ := fun k => by
    have := hs₁.backed hg k
    omega
  have hstart : Cursor (s₁.tab.inodeTable d) s₁.view 0 none 0 := rfl
  have hnone : Borrowed (none : Option Key).toList s₁ s₁ := Borrowed.refl s₁
  have hret : Returns (run (findEntryLoop d name (s₁.desc d .size / 16) 0 none 0) s₁) _ :=
    findEntryLoop_borrowed hcounts hmapped (Nat.zero_add _) hnone hstart
  obtain ⟨⟨r, t⟩, hrun, -⟩ := hret
  exact settles_of_ends (ends_iff.mpr hrun)

include hm hr in
/-- `iget` comes to the inode, or to the root of what is mounted on it. -/
theorem Underway.iget (h : Underway s₀ kept held leak s) {dev : Int} {nr : Nat} (hdev : dev ≠ devEOF)
    (h' : Ends (iget dev nr) s y t) :
    Underway s₀ kept (y :: held) leak t ∧ (t.tab.inodeTable y).ident = s₀.tab.top ⟨dev, nr⟩ :=
  have hw := h.toWalking.iget hm hr hdev h'
  ⟨⟨hw.1, holding_iget hdev nr _ _ _ h.holding h'⟩, hw.2⟩

include hm hr hg in
theorem Underway.settles_fitInode (h : Underway s₀ kept (x :: held) leak s) : Settles full (fitInode x) s := by
  refine settles_inodeAt ?_
  split
  · exact settles_of_ends ⟨rfl, rfl⟩
  · rename_i hmount
    rw [h.owns.around.mount x] at hmount
    obtain ⟨i, hi⟩ := hg.mounts x hmount
    have hst := h.owns.around.stays h.owns.core
    rw [← hst.getSuper, ← h.owns.around.mount x] at hi
    obtain ⟨hmt, -⟩ := h.toWalking.stays hm hr
    obtain ⟨r, hroot, -⟩ := hmt.roots i (getSuper_dev hi ▸ h.owns.owned.mount x)
    refine settles_superOf hi (settles_bind (h.settles_iput hg) fun _ s₁ _ => ?_)
    exact settles_then (runs_need.mpr ⟨hroot, rfl⟩) (settles_bind settles_modify fun _ _ _ =>
      settles_of_ends ⟨rfl, rfl⟩)

/-- A free slot is found, or all are in use since the lookup began. -/
theorem Underway.settles_getFreeInode (h : Underway s₀ kept [] leak s) : Settles s₀.Full getFreeInode s := by
  cases hf : (List.range INODE_NR).find? fun x => (s.tab.inodeTable x).dev == devEOF with
  | some x => exact settles_then ⟨rfl, rfl⟩ (settles_of_ends (runs_need.mpr ⟨hf, rfl⟩))
  | none =>
    refine .inr ⟨fun x hx => ?_, ?_⟩
    · have hlive := List.find?_eq_none.mp hf x (List.mem_range.mpr hx)
      have hlive : (s.tab.inodeTable x).dev ≠ devEOF := by simpa using hlive
      have hcount := (h.holding.booked.live x hlive).1
      rw [h.holding.count x, List.count_nil, Nat.add_zero] at hcount
      exact h.holding.start.live_of_count hcount
    · show (Prog.need .panic ((List.range INODE_NR).find? fun x => (s.tab.inodeTable x).dev == devEOF) :
        Code Nat).run s = _
      rw [hf]
      rfl

include hm hr hg in
/-- **`iget`** of a number that the volume has comes to its end, if a slot is free. -/
theorem Underway.settles_iget (h : Underway s₀ kept [] leak s) {dev : Int} {nr i : Nat}
    (hi : s₀.tab.getSuper dev = some i) (hnr : nr ≤ (s₀.tab.superTable i).inodes) :
    Settles s₀.Full (Yuios.iget dev nr) s := by
  have hst := h.owns.around.stays h.owns.core
  rw [← hst.getSuper] at hi
  have hfind : Ends (findInode dev nr) s
      ((s.tab.superTable i).inodeList.find? fun x => (s.tab.inodeTable x).nr == nr) s :=
    runs_bind.mpr ⟨_, s, runs_superOf.mpr ⟨⟨i, hi, rfl⟩, rfl⟩, runs_bind.mpr ⟨_, s, ⟨rfl, rfl⟩, rfl, rfl⟩⟩
  refine settles_then hfind ?_
  cases hx : (s.tab.superTable i).inodeList.find? fun x => (s.tab.inodeTable x).nr == nr with
  | some x =>
    have hmem := List.mem_of_find?_eq_some hx
    have hk : x ∈ kept := by simpa using h.owns.owned.listed hmem
    have hp : (s₀.tab.inodeTable x).pipe = false := by
      obtain ⟨n, hn⟩ := h.owns.core x hk
      have := (h.owns.owned.lists.listed i x hmem).2
      rwa [hn] at this
    exact settles_bind settles_modify fun _ s₁ h₁ => ((h.count hk hp h₁).1).settles_fitInode hm hr hg
  | none =>
    have hinodes : nr ≤ (s.tab.superTable i).inodes := by
      rw [hst.super i]
      exact hnr
    refine settles_superOf hi (settles_assert (by simpa using hinodes) ?_)
    refine settles_bind h.settles_getFreeInode fun x s₁ h₁ => ?_
    obtain ⟨-, hfree, rfl⟩ := runs_getFreeInode h₁
    refine settles_onInode ?_
    have hpush : Settles s₀.Full (listPushInode dev x) (s.setInode x { s.tab.inodeTable x with
        dev := dev, nr := nr, count := (s.tab.inodeTable x).count + 1 }) := by
      refine settles_then ⟨rfl, rfl⟩ (settles_then (runs_need.mpr ⟨hi, rfl⟩) (settles_assert ?_ settles_modify))
      exact decide_eq_true fun hx => (h.owns.owned.lists.listed i x hx).1 hfree
    refine settles_bind hpush fun _ s₂ _ => ?_
    obtain ⟨s₃, h₃, -⟩ := bread_goes s₂ dev (inodeBlock (s.tab.superTable i) nr)
    exact settles_then h₃ (settles_bind settles_modify fun _ _ _ => settles_of_ends ⟨rfl, rfl⟩)

end Underway

/-! ## 6. The walk -/

/-- The answer is the directory that the walk comes to, with the rest of the path, or NULL. -/
def Leading (rest : List UInt8) (d : Option Ident) (r : Option (Nat × List UInt8)) (t : Kernel) : Prop :=
  r.map (fun r => ((t.tab.inodeTable r.1).ident, r.2)) = d.map fun d => (d, rest)

section Walk

variable {s₀ s t : Kernel} {kept : List Nat} {leak : List Key} {x fuel : Nat} {d R : Ident} {rest : List UInt8}
  {dirs : List (Component × Separator)}

theorem Kernel.stroll_cons (s : Kernel) (d : Ident) (c : List UInt8) (cs : List (List UInt8)) :
    s.stroll d (c :: cs) = ((s.tab.step s.view d c).filter s.enterable).bind fun d => s.stroll d cs := rfl

theorem Kernel.enterable_isDir {e : Ident} (h : s.enterable e = true) : s.isDir e = true := by
  unfold Kernel.enterable at h
  unfold Kernel.isDir
  cases hino : s.tab.inodeOf e with
  | none =>
    rw [hino] at h
    cases h
  | some ino =>
    rw [hino, Option.any_some] at h
    unfold Inode.enters at h
    simp only [Bool.and_eq_true] at h
    exact h.1.1

variable (hm : Mounted s₀.tab) (hr : Rooted s₀.tab kept) (hg : s₀.Passable kept)
include hm hr hg

/-- **The loop of `named`**: a round is a step of the walk. -/
theorem Underway.namedLoop (hR : R = s₀.rootIdent ∨ R = s₀.pwdIdent) (hrest : Plain rest)
    (h : Underway s₀ kept [x] leak s) (hx : (s.tab.inodeTable x).ident = d) (hreach : s₀.Reaches R d)
    (hdir : s₀.isDir d = true) (hne : dirs ≠ []) (hfuel : dirs.length ≤ fuel) :
    Answers s₀.Full (namedLoop rest fuel x (Path.spell dirs rest)) s
      (Leading rest (s₀.stroll d (dirs.map fun c => c.1.text))) := by
  induction dirs generalizing x d s leak fuel with
  | nil => exact absurd rfl hne
  | cons c dirs ih =>
    obtain ⟨c, sep⟩ := c
    obtain ⟨fuel, rfl⟩ : ∃ n, fuel = n + 1 := ⟨fuel - 1, by simp at hfuel; omega⟩
    obtain ⟨name, hname⟩ : ∃ name, name = Path.spell ((c, sep) :: dirs) rest := ⟨_, rfl⟩
    have hzero : (0 : UInt8) ∉ name := hname ▸ zero_notMem_spell hrest
    have hcut : component name = c.text ∧ afterComponent name = Path.spell dirs rest := by
      rw [hname, Path.spell_cons]
      exact component_spell
    have hunder : s₀.tab.under d name = if c.text = DOTDOT ∧ d.nr = 1 then s₀.tab.covered d else d := by
      rw [under_component hzero, hcut.1]
    have htidy : s₀.Tidy (s₀.tab.under d name) := by
      rw [hunder]
      split
      · exact (hg.tidy R hR d hreach hdir).2
      · exact (hg.tidy R hR d hreach hdir).1
    rw [← hname]
    rw [← hx] at hdir htidy
    refine answers_bind (h.settles_findEntry hm hr hg hdir htidy) fun ⟨e, r⟩ s₁ h₁ => ?_
    obtain ⟨hs₁, hid, hans⟩ := h.findEntry hm hr htidy hzero h₁
    rw [hx] at hid
    rw [hcut.1, hcut.2, hid] at hans
    have hstep : s₀.tab.step s₀.view d c.text =
        (r.map fun r => fetch (s₁.view r.1) r.2.1 2).map fun nr => s₀.tab.top ⟨(s₁.tab.inodeTable e).dev, nr⟩ := by
      have hdev : (s₁.tab.inodeTable e).dev = (s₀.tab.under d name).dev := by
        rw [← hid]
        rfl
      have hnr : r.map (fun r => fetch (s₁.view r.1) r.2.1 2) =
          (s₀.tab.inodeOf (s₀.tab.under d name)).bind (·.child s₀.view c.text) := by
        have := congrArg (Option.map Prod.fst) hans
        simpa [Option.map_map, Function.comp_def] using this
      rw [hnr, hdev, hunder]
      rfl
    rw [List.map_cons, Kernel.stroll_cons, hstep]
    cases r with
    | none =>
      exact answers_bind (hs₁.settles_iput hg) fun _ s₂ _ => answers_pure rfl
    | some f =>
      obtain ⟨k, entry, next⟩ := f
      obtain ⟨nr, hchild, hnext⟩ := Option.map_eq_some_iff.mp hans.symm
      obtain ⟨hnr, rfl⟩ := Prod.mk.inj hnext
      obtain ⟨i, ino, hi, hino, -⟩ := hs₁.slot hm hr List.mem_cons_self
      have hle : nr ≤ (s₀.tab.superTable i).inodes := by
        have hi' : s₀.tab.getSuper (s₁.tab.inodeTable e).ident.dev = some i := hi
        rw [hx, ← hid] at htidy
        rw [hid] at hino htidy hi'
        rw [hino] at hchild
        exact (htidy i ino hi' hino).child_le hchild
      -- the directory goes back, and `iget` brings what the entry names
      refine answers_then ⟨rfl, rfl⟩ (answers_bind (hs₁.settles_iput hg) fun _ s₂ h₂ => ?_)
      obtain ⟨hs₂, -⟩ := hs₁.iput hr h₂
      have hview : fetch (s₂.view k) entry 2 = nr := by
        rw [hnr, hs₁.view, hs₂.view]
      refine answers_then (runs_dentryNr.mpr ⟨hview, rfl⟩) ?_
      refine answers_bind (hs₂.settles_iget hm hr hg hi hle) fun y s₃ h₃ => ?_
      obtain ⟨hs₃, hy⟩ := hs₂.iget hm hr (hs₁.owns.live List.mem_cons_self) h₃
      have hto : s₀.tab.step s₀.view d c.text = some (s₃.tab.inodeTable y).ident := by
        rw [hstep, hy, hnr]
        rfl
      rw [← hstep, hto]
      refine answers_bind settles_searchable fun ok s₄ h₄ => ?_
      obtain ⟨rfl, rfl⟩ := hs₃.enters hm hr List.mem_cons_self h₄
      cases hok : s₀.enterable (s₃.tab.inodeTable y).ident with
      | false =>
        have hnone : (some (s₃.tab.inodeTable y).ident).filter s₀.enterable = none := by
          rw [Option.filter_some, hok]
          rfl
        rw [if_neg Bool.false_ne_true, hnone]
        refine answers_bind (hs₃.settles_brelse hg) fun _ s₅ h₅ => ?_
        have hs₅ := hs₃.brelse h₅
        exact answers_bind (hs₅.settles_iput hg) fun _ s₆ _ => answers_pure rfl
      | true =>
        have hsome : (some (s₃.tab.inodeTable y).ident).filter s₀.enterable =
            some (s₃.tab.inodeTable y).ident := by
          rw [Option.filter_some, hok]
          rfl
        rw [if_pos rfl, hsome, Option.bind_some]
        by_cases hlast : dirs = []
        · subst hlast
          rw [if_pos (spell_eq_rest.mpr rfl).symm]
          refine answers_bind (hs₃.settles_brelse hg) fun _ s₅ h₅ => answers_pure ?_
          have hsame := brelse_same k _ _ _ h₅
          show some ((s₅.tab.inodeTable y).ident, _) = _
          rw [hsame.tab]
          rfl
        · rw [if_neg fun hr => hlast (spell_eq_rest.mp hr.symm)]
          refine ih hs₃ rfl (hreach.tail ?_) (Kernel.enterable_isDir hok) hlast (by simpa using hfuel)
          obtain ⟨-, hdir', hlook⟩ := h.toWalking.findEntry hm hr h₁
          rw [hx] at hdir' hlook
          refine ⟨hdir', name, Path.spell dirs rest, ?_⟩
          rw [hlook, hy, hnr]

end Walk

/-- **`named` goes from component to component**: it comes to its end, unless no slot for an inode is free; and it
    answers the directory that the walk comes to, through every component with a separator behind it, with the
    component that is left, or NULL where one of them has no live entry, is no directory or may not be searched. -/
theorem named_strolls {s : Kernel} {refs : List Nat} (hs : s.Ready refs) (hg : s.Passable refs) (p : Path) :
    Answers s.Full (named p.text) s
      (Leading p.rest (s.stroll (s.start p) (p.dirs.map fun c => c.1.text))) := by
  obtain ⟨c, cs, htext, hlead, hleft⟩ := p.text_cases
  obtain ⟨x, hx⟩ : ∃ x, x = if isSeparator c then (s.tab.task s.tab.running).iroot else
      (s.tab.task s.tab.running).ipwd := ⟨_, rfl⟩
  obtain ⟨hmem, hp⟩ := hs.starts x (by rw [hx]; split <;> simp)
  obtain ⟨R, hR, hstart, hdir⟩ : ∃ R, (R = s.rootIdent ∨ R = s.pwdIdent) ∧
      s.start p = R ∧ s.isDir R = true := by
    unfold Kernel.start
    split
    · exact ⟨s.rootIdent, .inl rfl, rfl, hg.root⟩
    · exact ⟨s.pwdIdent, .inr rfl, rfl, hg.pwd⟩
  have hid : (s.tab.inodeTable x).ident = s.start p := by
    rw [hx, hlead]
    unfold Kernel.start Kernel.rootIdent Kernel.pwdIdent
    split <;> rfl
  rw [htext]
  refine answers_then (runs_runningTask.mpr ⟨rfl, rfl⟩) ?_
  dsimp only
  rw [hleft, ← hx]
  refine answers_bind settles_modify fun _ s₁ h₁ => ?_
  obtain ⟨hs₁, hid₁⟩ := hs.underway.count hmem hp h₁
  rw [hid] at hid₁
  obtain ⟨b, bs, hbs⟩ := List.exists_cons_of_ne_nil p.spell_ne_nil
  by_cases hd : p.dirs = []
  · have hnone : afterLastSep (b :: bs) = none := by
      rw [← hbs, hd]
      exact afterLastSep_plain p.rest_plain
    rw [hbs]
    simp only [hnone]
    refine answers_pure ?_
    have hrest : p.rest = b :: bs := by rw [← hbs, hd]; rfl
    rw [hd, hrest]
    show some ((s₁.tab.inodeTable x).ident, _) = _
    rw [hid₁]
    rfl
  · have hsep : afterLastSep (b :: bs) = some p.rest := hbs ▸ afterLastSep_spell p.rest_plain hd
    rw [hbs]
    simp only [hsep]
    rw [← hbs]
    refine hs₁.namedLoop hs.mounted hs.rooted hg hR p.rest_plain hid₁ (hstart ▸ .refl) (hstart ▸ hdir) hd ?_
    have := @length_le_spell p.rest p.dirs
    omega

namespace Sample

/-- The two directories are in order. -/
theorem jail_tidy {d : Ident} (hd : d = jailRoot ∨ d = jailDir) : kernelJail.Tidy d := by
  intro i ino hi hino
  have h0 : kernelJail.tab.getSuper dev = some 0 := by decide
  have hinodes : (kernelJail.tab.superTable 0).inodes = 31 := by decide
  rcases hd with rfl | rfl
  · obtain rfl : 0 = i := Option.some.inj (h0.symm.trans hi)
    obtain rfl : (⟨dev, 1, ⟨dev, 4⟩, 0, 1, 0, false⟩ : Inode) = ino := Option.some.inj (Eq.trans (by rfl) hino)
    have hsize : Inode.field ⟨dev, 1, ⟨dev, 4⟩, 0, 1, 0, false⟩ kernelJail.view .size / 16 = 3 := by decide
    rw [hinodes]
    constructor <;> rw [hsize] <;> decide +kernel
  · obtain rfl : 0 = i := Option.some.inj (h0.symm.trans hi)
    obtain rfl : (⟨dev, 2, ⟨dev, 4⟩, 32, 1, 0, false⟩ : Inode) = ino := Option.some.inj (Eq.trans (by rfl) hino)
    have hsize : Inode.field ⟨dev, 2, ⟨dev, 4⟩, 32, 1, 0, false⟩ kernelJail.view .size / 16 = 2 := by decide
    rw [hinodes]
    constructor <;> rw [hsize] <;> decide +kernel

/-- The slots behind the first two are free. -/
theorem jail_spare {x : Nat} (hx : x ≠ 0 ∧ x ≠ 1) :
    (kernelJail.tab.inodeTable x).dev = devEOF ∧ (kernelJail.tab.inodeTable x).mount = 0 := by
  have hout : x ∉ [1, 1, 0, 0, 0, 0] := by simp [hx.1, hx.2]
  exact ⟨not_not.mp fun hl => hout ((jail_owned.live x).mp hl), (jail_owned.bare x hout).2⟩

theorem jail_passable : kernelJail.Passable [1, 1, 0, 0, 0, 0] where
  root := by decide
  pwd := by decide
  tidy R hR d hd _ := by
    obtain rfl : R = jailDir := hR.elim id id
    have hd := jail_reached hd
    have hcovered : kernelJail.tab.covered d = jailRoot := by
      rcases hd with rfl | rfl <;> decide
    exact ⟨jail_tidy hd, hcovered ▸ jail_tidy (.inl rfl)⟩
  mounts x hx := by
    by_cases h0 : x = 0
    · exact ⟨0, by rw [h0]; decide⟩
    · by_cases h1 : x = 1
      · rw [h1] at hx
        exact absurd (by decide) hx
      · exact absurd (jail_spare ⟨h0, h1⟩).2 hx
  backed k := by
    by_cases hk : k = ⟨dev, 4⟩
    · rw [hk]
      decide
    · have hnone : kernelJail.tab.owners k = 0 := by
        refine List.countP_eq_zero.mpr fun x _ ho => ?_
        have hbuf : ∀ y, y = 0 ∨ y = 1 → (kernelJail.tab.inodeTable y).buf = ⟨dev, 4⟩ := by
          rintro y (rfl | rfl) <;> decide
        unfold Inode.owns at ho
        simp only [Bool.and_eq_true, decide_eq_true_eq, bne_iff_ne] at ho
        by_cases hx : x = 0 ∨ x = 1
        · exact hk (ho.2.symm.trans (hbuf x hx))
        · exact ho.1.1 (jail_spare (not_or.mp hx)).1
      have hcount : (kernelJail.cache.buf k).count = 0 := if_neg hk
      rw [hnone, hcount]
      rfl
  first := by decide

/-- `/../d`, as components. -/
def backIn : Path where
  lead := some ⟨47, rfl⟩
  dirs := [(⟨DOTDOT, by decide, plain_of_all rfl⟩, ⟨47, rfl⟩)]
  last := some ⟨[100], by decide, plain_of_all rfl⟩
  some := .inl (List.cons_ne_nil _ _)

end Sample

/-- Up from the process's root: the name `d` is left, in the system's root. -/
theorem named_strolls_up : Sample.kernelJail.Ready [1, 1, 0, 0, 0, 0] ∧
    Sample.kernelJail.Passable [1, 1, 0, 0, 0, 0] ∧ Sample.backIn.text = Sample.upAndBack ∧
    Answers Sample.kernelJail.Full (named Sample.backIn.text) Sample.kernelJail
      (Leading [100] (some Sample.jailRoot)) := by
  have hwalk : Sample.kernelJail.stroll (Sample.kernelJail.start Sample.backIn)
      (Sample.backIn.dirs.map fun c => c.1.text) = some Sample.jailRoot := by decide
  have h := named_strolls Sample.jail_ready Sample.jail_passable Sample.backIn
  rw [hwalk] at h
  exact ⟨Sample.jail_ready, Sample.jail_passable, rfl, h⟩

end Yuios
