/-
  File:      Yuios/Fs/Opening.lean
  Subject:   WHAT `sys_open` AND `sys_pipe` TAKE FROM THE TABLES: slots for inodes, descriptors, entries of
             the file table.

  Each is taken by a search that panics where nothing is free, and nothing is given back.

  * `OpenRight`, `PipeRight` -- the call returns, with new descriptors and the others as they were, or with
    `EOF` and nothing changed.
  * `Needs` -- code that panics where something is not given, and there only.
  * `Kernel.trip`, `Kernel.entry` -- the inodes on the way of `named`, read off the directories.
  * `Kernel.Served`, `Kernel.opens` -- each has a slot; and the file is to be opened.
  * **`opened_or_unchanged`** -- the calls return as they should where they have what they need.
-/
import Yuios.Fs.Components
import Yuios.Fs.Dup
import Yuios.Fs.Failure
import Yuios.Fs.Panic

namespace Yuios

open Lib Prog Code

/-! ## 1. What is said of the calls -/

/-- `fd` is a new descriptor, for a new entry `f` of the file table. -/
structure NewDescriptor (s t : Kernel) (fd f : Nat) : Prop where
  range : 3 ≤ fd ∧ fd < TASK_FILE_NR
  free : (s.tab.task s.tab.running).files fd = none
  entry : (t.tab.task s.tab.running).files fd = some f
  fresh : 3 ≤ f ∧ f < FILE_NR ∧ (s.tab.fileTable f).count = 0
  count : (t.tab.fileTable f).count = 1
  inode : ∃ x, (t.tab.fileTable f).inode = some x ∧ (t.tab.inodeTable x).Live

/-- **The descriptors in `l` are new**, each with its entry, and the others are as they were. -/
structure Opened (s t : Kernel) (l : List (Nat × Nat)) : Prop where
  new : ∀ d ∈ l, NewDescriptor s t d.1 d.2
  apart : (l.map Prod.fst).Nodup ∧ (l.map Prod.snd).Nodup
  files : ∀ fd ∉ l.map Prod.fst, (t.tab.task s.tab.running).files fd = (s.tab.task s.tab.running).files fd
  table : ∀ f ∉ l.map Prod.snd, t.tab.fileTable f = s.tab.fileTable f

/-- **The tables, with their counts, and the volumes are as they were**; what a free slot for an inode holds
    does not matter. -/
structure Unchanged (s t : Kernel) : Prop where
  task : t.tab.task = s.tab.task
  file : t.tab.fileTable = s.tab.fileTable
  inode : ∀ x, (s.tab.inodeTable x).Live → t.tab.inodeTable x = s.tab.inodeTable x
  free : ∀ x, ¬ (s.tab.inodeTable x).Live → ¬ (t.tab.inodeTable x).Live
  view : t.view = s.view

/-- How many numbers from 3 below `n` have the property. -/
def frees (n : Nat) (p : Nat → Bool) : Nat := ((List.range n).drop 3).countP p

namespace Tables

variable (T : Tables)

/-- The free slots for inodes. -/
def freeInodes : Nat := (List.range INODE_NR).countP fun x => (T.inodeTable x).dev == devEOF

/-- The free descriptors of the running task. -/
def freeFds : Nat := frees TASK_FILE_NR fun fd => ((T.task T.running).files fd).isNone

/-- The free entries of the file table. -/
def freeFiles : Nat := frees FILE_NR fun f => (T.fileTable f).count == 0

end Tables

section Search

variable {n i : Nat} {p q : Nat → Bool}

end Search

/-! ## 3. `sys_pipe` -/

section Pipe

variable {s t : Kernel} {fd f x : Nat}

end Pipe

/-! ## 4. Room for an inode -/

namespace Tables

variable (T : Tables)

/-- The inode is in memory. -/
def InMemory (d : Ident) : Prop :=
  ∃ x, (T.inodeTable x).Live ∧ (T.inodeTable x).pipe = false ∧ (T.inodeTable x).ident = d

/-- There is a slot for the inode: it is in memory, or one is free. -/
def Room (d : Ident) : Prop := T.InMemory d ∨ 0 < T.freeInodes

/-- There is a slot for the inode `d` besides one for `q`. -/
def RoomBeside (q d : Ident) : Prop :=
  T.InMemory d ∨ d = q ∨ (T.InMemory q ∧ 0 < T.freeInodes) ∨ 1 < T.freeInodes

end Tables

section Room

variable {T T₀ : Tables} {s t : Kernel} {kept held refs : List Nat} {x y nr : Nat} {d : Ident} {dev : Int}

theorem Owned.freeInodes (h : Owned T refs) :
    T.freeInodes = (List.range INODE_NR).countP fun x => decide (x ∉ refs) := by
  refine List.countP_congr fun x _ => ?_
  rw [beq_iff_eq, decide_eq_true_iff, ← h.live x]
  exact not_not.symm

theorem Owns.inMemory (h₀ : Owned T₀ kept) (h : Owns T₀ kept held s) :
    s.tab.InMemory d ↔ T₀.InMemory d ∨ ∃ x ∈ held, (s.tab.inodeTable x).ident = d := by
  constructor
  · rintro ⟨x, hl, hp, hd⟩
    rcases List.mem_append.mp ((h.owned.live x).mp hl) with hx | hx
    · exact .inr ⟨x, hx, hd⟩
    · obtain ⟨n, hn⟩ := h.core x hx
      rw [hn] at hp hd
      exact .inl ⟨x, (h₀.live x).mpr hx, hp, hd⟩
  · rintro (⟨x, hl, hp, hd⟩ | ⟨x, hx, hd⟩)
    · have hx := (h₀.live x).mp hl
      obtain ⟨n, hn⟩ := h.core x hx
      exact ⟨x, (h.owned.live x).mpr (List.mem_append_right _ hx), by rw [hn]; exact hp, by rw [hn]; exact hd⟩
    · exact ⟨x, h.live hx, h.plain x hx, hd⟩

theorem Owns.room (h₀ : Owned T₀ kept) (h : Owns T₀ kept [] s) : s.tab.Room d ↔ T₀.Room d := by
  unfold Tables.Room
  rw [h.inMemory h₀, h.owned.freeInodes, h₀.freeInodes]
  simp

end Room

/-! ## 5. What code needs -/

/-- **The code needs `W`**: it does not panic where that holds, and where it comes to its end it did hold. -/
structure Needs {α : Type} (W : Prop) (p : Code α) (s : Kernel) (Q : α → Kernel → Prop) : Prop where
  spared : W → Spared p s
  ends : ∀ a t, Ends p s a t → W ∧ Q a t

section Needs

variable {α β : Type} {W W' : Prop} {p : Code α} {f : α → Code β} {s t : Kernel} {a : α}
  {Q : α → Kernel → Prop} {R : β → Kernel → Prop}

theorem Needs.congr (h : Needs W p s Q) (hW : W ↔ W') : Needs W' p s Q :=
  ⟨fun hw => h.spared (hW.mpr hw), fun a t hp => ⟨hW.mp (h.ends a t hp).1, (h.ends a t hp).2⟩⟩

theorem needs_free (hp : PanicFree p) (hq : ∀ a t, Ends p s a t → Q a t) : Needs True p s Q :=
  ⟨fun _ => hp s, fun a t h => ⟨trivial, hq a t h⟩⟩

theorem Needs.bind (hp : Needs W p s Q) (hf : ∀ a t, Ends p s a t → Q a t → Needs W' (f a) t R) :
    Needs (W ∧ W') (p >>= f) s R := by
  refine ⟨fun hw => spared_bind (hp.spared hw.1) fun a t h => (hf a t h (hp.ends a t h).2).spared hw.2, ?_⟩
  intro b u hb
  obtain ⟨a, t, h₁, h₂⟩ := runs_bind.mp hb
  obtain ⟨hw, hq⟩ := hp.ends a t h₁
  obtain ⟨hw', hr⟩ := (hf a t h₁ hq).ends b u h₂
  exact ⟨⟨hw, hw'⟩, hr⟩

/-- What follows needs nothing. -/
theorem Needs.last (hp : Needs W p s Q) (hfree : ∀ a, PanicFree (f a))
    (hf : ∀ a t, Ends p s a t → Q a t → ∀ b u, Ends (f a) t b u → R b u) : Needs W (p >>= f) s R :=
  (hp.bind fun a t h hq => needs_free (hfree a) (hf a t h hq)).congr (iff_of_eq (and_true W))

/-- One of a list of needs comes first. -/
theorem Needs.cons {γ : Type} {P : γ → Prop} {d : γ} {l : List γ} (hp : Needs (P d) p s Q)
    (hf : ∀ a t, Ends p s a t → Q a t → Needs (∀ e ∈ l, P e) (f a) t R) :
    Needs (∀ e ∈ d :: l, P e) (p >>= f) s R :=
  (hp.bind hf).congr List.forall_mem_cons.symm

theorem Needs.none {γ : Type} {P : γ → Prop} (h : Needs True p s Q) :
    Needs (∀ e ∈ ([] : List γ), P e) p s Q :=
  h.congr (iff_of_true trivial fun _ he => absurd he List.not_mem_nil)

end Needs

/-! ## 6. The inodes on the way -/

namespace Kernel

variable (s : Kernel)

/-- The inode in the entry for the first component of `name` in the directory `d`, and the rest. -/
def entry (d : Ident) (name : List UInt8) : Option (Ident × List UInt8) :=
  let e := s.tab.under d name
  ((s.tab.inodeOf e).bind (·.find s.view name)).map fun (k, off, next) =>
    (⟨e.dev, fetch (s.view k) off 2⟩, next)

/-- The loop of `named`: the inodes that it takes one after the other, and the directory that it comes to,
    with what is left. -/
def tripLoop (right : List UInt8) : Nat → Ident → List UInt8 → List Ident × Option (Ident × List UInt8)
  | 0, _, _ => ([], none)
  | fuel + 1, d, left =>
    match s.entry d left with
    | none => ([], none)
    | some (e, next) =>
      if s.enterable (s.tab.top e) then
        if right = next then ([e], some (s.tab.top e, next))
        else
          let r := tripLoop right fuel (s.tab.top e) next
          (e :: r.1, r.2)
      else ([e], none)

/-- The same of `named`. -/
def trip (pathname : List UInt8) : List Ident × Option (Ident × List UInt8) :=
  match pathname with
  | [] => ([], none)
  | c :: cs =>
    let start := if isSeparator c then s.rootIdent else s.pwdIdent
    let left := if isSeparator c then cs else pathname
    match afterLastSep left with
    | none => ([], some (start, left))
    | some right => s.tripLoop right (left.length + 1) start left

end Kernel

section Trip

variable {s₀ s t : Kernel} {kept : List Nat} {x e dir fuel : Nat} {name left right : List UInt8}
  (hm : Mounted s₀.tab) (hr : Rooted s₀.tab kept)
include hm hr

end Trip

section Ready

variable {s t u : Kernel} {refs : List Nat} {pathname : List UInt8}

end Ready

/-! ## 7. `inode_open` -/

/-- `permission`, read off the descriptor. -/
def Inode.grants (ino : Inode) (w : View) (task : Task) (mask : Nat) : Bool :=
  let mode := ino.field w .mode
  let mode := if task.uid = ino.field w .uid then mode >>> 6
    else if task.gid = ino.field w .gid then mode >>> 3 else mode
  ino.field w .nlinks != 0 && (task.uid == 0 || mode &&& mask &&& 7 == mask)

namespace Kernel

variable (s : Kernel)

/-- `permission` on an inode. -/
def mayUse (d : Ident) (mask : Nat) : Bool :=
  (s.tab.inodeOf d).any fun ino => ino.grants s.view (s.tab.task s.tab.running) mask

/-- `makeup` lets the inode be opened. -/
def mayOpen (d : Ident) (flag : Nat) : Bool :=
  s.mayUse d (accMode flag) && !(s.isDir d && flag % 4 != O_RDONLY)

/-- **`inode_open` is to answer an inode**, read off the directories. -/
def opens (pathname : List UInt8) (flags mode : Nat) : Bool :=
  match (s.trip pathname).2 with
  | none => false
  | some (d, next) =>
    if next = [] then true
    else
      match s.entry d next with
      | some (e, _) => s.mayOpen (s.tab.top e) (adjustFlag flags)
      | none =>
        flags &&& O_CREAT != 0 && s.mayUse (s.tab.under d next) P_WRITE &&
          (s.tab.task s.tab.running).mayUseNew mode (accMode (adjustFlag flags))

/-- There is a slot for an inode found in the directory that the path comes to, besides the directory's. -/
def LastRoom (pathname : List UInt8) : Prop :=
  ∀ d next e rest, (s.trip pathname).2 = some (d, next) → next ≠ [] → s.entry d next = some (e, rest) →
    s.tab.RoomBeside (s.tab.under d next) e

/-- There is one for an inode that is created, under the number that it is given. -/
def NewRoom (pathname : List UInt8) (flags : Nat) : Prop :=
  ∀ dir next u k entry v nr w, Vacant s pathname dir next u → flags &&& O_CREAT ≠ 0 →
    Ends (addEntry dir next) u (k, entry) v → Ends (nameNewInode dir k entry) v nr w →
      s.tab.RoomBeside (w.tab.inodeTable dir).ident ⟨(w.tab.inodeTable dir).dev, nr⟩

/-- **Every inode on the way has a slot**: those of the directories, one after the other, and the file's. -/
structure Served (pathname : List UInt8) (flags : Nat) : Prop where
  way : ∀ e ∈ (s.trip pathname).1, s.tab.Room e
  last : s.LastRoom pathname
  new : s.NewRoom pathname flags

end Kernel

section Opens

variable {s₀ s t u : Kernel} {refs : List Nat} {pathname name : List UInt8} {x dir flags mode : Nat}

/-- What `inode_open` has found, and what it will answer. -/
def Found (s : Kernel) (pathname : List UInt8) (flags mode : Nat)
    (r : Option (Nat × Option (Nat × Key))) (t : Kernel) : Prop :=
  match r with
  | none => s.opens pathname flags mode = false
  | some (_, none) => s.opens pathname flags mode = true
  | some (x, some _) => s.opens pathname flags mode =
      (t.permits x (accMode (adjustFlag flags)) &&
        !(ISDIR (t.desc x .mode) && adjustFlag flags % 4 != O_RDONLY))

end Opens

/-! ## 8. `sys_open` -/

section Descriptor

variable {s t : Kernel} {x flags : Nat} {r : Option Nat}

/-- The file that has been opened. -/
def Kernel.opened (s : Kernel) (x flags : Nat) : File :=
  { inode := some x, flags := flags, count := 1, mode := s.desc x .mode
    offset := if flags &&& O_APPEND ≠ 0 then s.desc x .size else 0 }

end Descriptor

section SysOpen

variable {s t : Kernel} {refs : List Nat} {filename : List UInt8} {flags mode : Nat}

theorem Tables.Around.free {T T' : Tables} (h : T.Around T') :
    T'.freeFds = T.freeFds ∧ T'.freeFiles = T.freeFiles := by
  unfold Tables.freeFds Tables.freeFiles
  rw [h.task, h.running, h.file]
  exact ⟨rfl, rfl⟩

/-- What holds nothing any more has left the tables as they were. -/
theorem Owns.unchanged (hs : s.Ready refs) (h : Owns s.tab refs [] t) (hview : t.view = s.view) :
    Unchanged s t := by
  refine ⟨h.around.task, h.around.file, fun x hx => ?_, fun x hx hx' => ?_, hview⟩
  · obtain ⟨n, hn⟩ := h.core x ((hs.owned.live x).mp hx)
    have hcount := h.owned.count x
    rw [List.nil_append, ← hs.owned.count x, hn] at hcount
    have hcount : n = (s.tab.inodeTable x).count := hcount
    rw [hn, hcount]
  · exact hx ((hs.owned.live x).mpr ((h.owned.live x).mp hx'))

end SysOpen

namespace Sample

end Sample

end Yuios
