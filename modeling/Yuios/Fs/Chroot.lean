/-
  File:      Yuios/Fs/Chroot.lean
  Subject:   WHAT A CHANGED ROOT KEEPS IN: the inodes a path leads to from a process whose root is a
             directory `R`.

  `find_entry` treats `..` apart only in an inode with number 1, where it moves to what the volume is
  mounted on. In any other directory `..` is an entry like the rest, in the process's root as well.

  * `Kernel.wayNamed`, `Kernel.wayNamei` -- the way of a path through the tree, and whether it is
    inside: it gets out by `..` in `R`, unless that is `R`, and back in by coming to `R`.
  * `Walking.named`, `Walking.namei` -- the code goes that way.
  * **`chroot_confines`** -- the answer is below `R` exactly when the way ends inside.
-/
import Yuios.Fs.Tree
import Yuios.Fs.HolderRun

namespace Yuios

open Lib Prog Code Relation

/-! ## 1. The way of a path -/

/-- Where a walk stands, and whether it is inside. -/
structure Spot where
  place : Ident
  within : Bool
  deriving DecidableEq

namespace Kernel

variable (s : Kernel) (R : Ident)

/-- One component. -/
def onward (p : Spot) (name : List UInt8) : Option (Spot × List UInt8) :=
  (s.look p.place name).map fun (e, next) =>
    (⟨e, inside R (isDotDot name) p.place e p.within⟩, next)

/-- The way of the loop of `named`. -/
def wayLoop (right : List UInt8) : (fuel : Nat) → Spot → (left : List UInt8) →
    Option (Spot × List UInt8)
  | 0, _, _ => none
  | fuel + 1, p, left =>
    match s.onward R p left with
    | none => none
    | some (q, next) => if right = next then some (q, next) else wayLoop right fuel q next

/-- The way of `named`: it starts inside, at the process's root or current directory. -/
def wayNamed (pathname : List UInt8) : Option (Spot × List UInt8) :=
  let task := s.tab.task s.tab.running
  match pathname with
  | [] => none
  | c :: cs =>
    let inode := if isSeparator c then task.iroot else task.ipwd
    let left := if isSeparator c then cs else pathname
    let start : Spot := ⟨(s.tab.inodeTable inode).ident, true⟩
    match left with
    | [] => some (start, left)
    | _ =>
      match afterLastSep left with
      | none => some (start, left)
      | some right => s.wayLoop R right (left.length + 1) start left

/-- The way of `namei`. -/
def wayNamei (pathname : List UInt8) : Option Spot :=
  match s.wayNamed R pathname with
  | none => none
  | some (p, next) => if next = [] then some p else (s.onward R p next).map (·.1)

/-- The running process's root. -/
def rootIdent : Ident := (s.tab.inodeTable (s.tab.task s.tab.running).iroot).ident

/-- The running process's current directory. -/
def pwdIdent : Ident := (s.tab.inodeTable (s.tab.task s.tab.running).ipwd).ident

/-- **The way to the directory of the last component ends inside**: after it has last gone up from
    the process's root by `..`, it has come back to that root. -/
def namedInside (pathname : List UInt8) : Bool :=
  (s.wayNamed s.rootIdent pathname).any (·.1.within)

/-- The same of the whole path. -/
def nameiInside (pathname : List UInt8) : Bool := (s.wayNamei s.rootIdent pathname).any (·.within)

/-- The inode has entries in one directory only, as far as a walk from `R` may come. -/
def Single (d : Ident) : Prop := ∀ {a b}, s.Reaches R a → s.Reaches R b → s.Child a d →
  s.Child b d → a = b

/-- The count of inside and outside is right. -/
structure Stands (p : Spot) : Prop where
  reached : s.Reaches R p.place
  right : p.within = true ↔ s.Below R p.place

end Kernel

section Way

variable {s : Kernel} {R : Ident} {p q : Spot} {name next : List UInt8}

theorem Kernel.Below.reaches {d : Ident} (h : s.Below R d) : s.Reaches R d :=
  ReflTransGen.mono (fun _ _ (hc : s.Child _ _) => hc.names) _ _ h

variable (ht : s.Treelike R) (hp : s.Stands R p) (hdir : s.isDir p.place = true)
  (h : s.onward R p name = some (q, next))
include ht hp hdir h

/-- A component, a move in the tree. -/
theorem onward_move : s.Reaches R q.place ∧ Move s.Child (isDotDot name) p.place q.place ∧
    q.within = inside R (isDotDot name) p.place q.place p.within := by
  obtain ⟨⟨e, n⟩, hl, he⟩ := Option.map_eq_some_iff.mp h
  obtain ⟨rfl, rfl⟩ := Prod.mk.inj he
  exact ⟨hp.reached.tail ⟨hdir, name, n, hl⟩, ht.move hp.reached hdir hl, rfl⟩

theorem onward_below (hin : q.within = true) : s.Below R q.place := by
  obtain ⟨hq, hm, hw⟩ := onward_move ht hp hdir h
  exact ht.branching.inside_below .refl hq hdir hm hp.right (hw ▸ hin)

theorem onward_stands (hone : s.Single R q.place) : s.Stands R q := by
  obtain ⟨hq, hm, hw⟩ := onward_move ht hp hdir h
  refine ⟨hq, ?_⟩
  rw [hw]
  exact ht.branching.inside_iff .refl hp.reached hq hdir (fun ha hb => hone ha hb) hm hp.right

end Way

/-! ## 2. The code goes that way -/

section Walking

variable {s₀ s t : Kernel} {R : Ident} {kept held : List Nat} {x y dir : Nat}
  {name next right left : List UInt8} (hm : Mounted s₀.tab) (hr : Rooted s₀.tab kept)
include hm hr

/-- A directory that may be searched is one. -/
theorem Walking.searchable {ok : Bool} (hs : Walking s₀ kept held s) (hx : x ∈ held)
    (h : Ends (searchable x) s ok t) (hok : ok = true) :
    s = t ∧ s₀.isDir (s.tab.inodeTable x).ident = true := by
  obtain ⟨rfl, he⟩ := searchable_enters h
  refine ⟨rfl, ?_⟩
  obtain ⟨ino, hino, -, hfield⟩ := hs.reads hm hr hx
  unfold Kernel.isDir
  rw [hino, Option.any_some, hfield]
  have hen : (s.tab.inodeTable x).enters s.view (s.tab.task s.tab.running) = true := by
    rw [← he, hok]
  unfold Inode.enters at hen
  simp only [Bool.and_eq_true] at hen
  exact hen.1.1

/-- The loop of `named`: each round is a component of the way. -/
theorem Walking.namedLoop (htree : s₀.Treelike R) {p : Spot} {fuel : Nat}
    (hs : Walking s₀ kept (x :: held) s) (hp : s₀.Stands R p)
    (hx : (s.tab.inodeTable x).ident = p.place)
    (h : Ends (namedLoop right fuel x left) s (some (dir, next)) t) :
    Walking s₀ kept (dir :: held) t ∧ ∃ q, s₀.wayLoop R right fuel p left = some (q, next) ∧
      s₀.Stands R q ∧ (t.tab.inodeTable dir).ident = q.place := by
  induction fuel generalizing x left s p with
  | zero => exact h.elim
  | succ fuel ih =>
    obtain ⟨⟨e, r⟩, s₁, h₁, h⟩ := runs_bind.mp h
    cases r with
    | none =>
      obtain ⟨_, s₂, -, h⟩ := runs_bind.mp h
      cases (runs_pure.mp h).1
    | some f =>
    obtain ⟨k, entry, rest⟩ := f
    obtain ⟨hs₁, hdir, hlook⟩ := hs.findEntry hm hr h₁
    obtain ⟨ino, s₂, ⟨rfl, rfl⟩, h⟩ := runs_bind.mp h
    have hdev : (s₁.tab.inodeTable e).dev ≠ devEOF := hs₁.owns.live List.mem_cons_self
    obtain ⟨_, s₂, h₂, h⟩ := runs_bind.mp h
    obtain ⟨hs₂, -⟩ := hs₁.iput hr h₂
    obtain ⟨nr, s₃, h₃, h⟩ := runs_bind.mp h
    obtain ⟨rfl, rfl⟩ := runs_dentryNr.mp h₃
    obtain ⟨y, s₃, h₃, h⟩ := runs_bind.mp h
    obtain ⟨hs₃, hy⟩ := hs₂.iget hm hr hdev h₃
    obtain ⟨ok, s₄, h₄, h⟩ := runs_bind.mp h
    obtain ⟨hok, h⟩ | ⟨hok, h⟩ := runs_ite.mp h
    · obtain ⟨rfl, hydir⟩ := hs₃.searchable hm hr List.mem_cons_self h₄ hok
      rw [hx] at hdir hlook
      obtain ⟨q, hq⟩ : ∃ q : Spot, q = ⟨(s₃.tab.inodeTable y).ident,
          inside R (isDotDot left) p.place (s₃.tab.inodeTable y).ident p.within⟩ := ⟨_, rfl⟩
      have honward : s₀.onward R p left = some (q, rest) := by
        rw [Kernel.onward, hlook, hq, hy, hs₁.view, hs₂.view]
        rfl
      have hplace : (s₃.tab.inodeTable y).ident = q.place := by rw [hq]
      have hstands : s₀.Stands R q := onward_stands htree hp hdir honward fun ha hb hca hcb =>
        htree.one ha hb (hplace ▸ hydir) hca hcb
      rw [Kernel.wayLoop, honward]
      dsimp only
      obtain ⟨hlast, h⟩ | ⟨hlast, h⟩ := runs_ite.mp h
      · obtain ⟨_, s₅, h₅, h⟩ := runs_bind.mp h
        obtain ⟨e', rfl⟩ := runs_pure.mp h
        obtain ⟨rfl, rfl⟩ := Prod.mk.inj (Option.some.inj e')
        have hsame := brelse_same k _ _ _ h₅
        rw [if_pos hlast, hsame.tab]
        exact ⟨hs₃.same hsame, q, rfl, hstands, hplace⟩
      · rw [if_neg hlast]
        exact ih hs₃ hstands hplace h
    · obtain ⟨_, s₅, -, h⟩ := runs_bind.mp h
      obtain ⟨_, s₆, -, h⟩ := runs_bind.mp h
      cases (runs_pure.mp h).1

variable (hstart : s₀.tab.Starts kept)
include hstart

/-- `named` ends where its way does. -/
theorem Walking.named (htree : s₀.Treelike s₀.rootIdent) (hpwd : s₀.Below s₀.rootIdent s₀.pwdIdent)
    {pathname : List UInt8} (hs : Walking s₀ kept held s)
    (h : Ends (named pathname) s (some (dir, next)) t) :
    Walking s₀ kept (dir :: held) t ∧ ∃ q, s₀.wayNamed s₀.rootIdent pathname = some (q, next) ∧
      s₀.Stands s₀.rootIdent q ∧ (t.tab.inodeTable dir).ident = q.place := by
  obtain ⟨task, s₁, h₁, h⟩ := runs_bind.mp h
  obtain ⟨rfl, rfl⟩ := runs_runningTask.mp h₁
  rw [hs.owns.around.task, hs.owns.around.running] at h
  cases pathname with
  | nil => cases (runs_pure.mp h).1
  | cons c cs =>
    obtain ⟨_, s₁, h₁, h⟩ := runs_bind.mp h
    unfold Kernel.wayNamed
    dsimp only at h ⊢
    have hx := hstart (if isSeparator c then (s₀.tab.task s₀.tab.running).iroot else
      (s₀.tab.task s₀.tab.running).ipwd) (by split <;> simp)
    have hstands : s₀.Stands s₀.rootIdent ⟨(s₀.tab.inodeTable (if isSeparator c then
        (s₀.tab.task s₀.tab.running).iroot else (s₀.tab.task s₀.tab.running).ipwd)).ident, true⟩ := by
      split
      · exact ⟨.refl, iff_of_true rfl .refl⟩
      · exact ⟨hpwd.reaches, iff_of_true rfl hpwd⟩
    generalize (if isSeparator c then (s₀.tab.task s₀.tab.running).iroot else
        (s₀.tab.task s₀.tab.running).ipwd) = start at *
    generalize (if isSeparator c then cs else c :: cs) = left at *
    obtain ⟨n, hn⟩ := hs.owns.core start hx.1
    have hs₁ : Walking s₀ kept (start :: held) s₁ :=
      ⟨owns_count start _ _ _ ⟨hs.owns, hx.1, by rw [hn]; exact hx.2⟩ h₁,
        (walks_sees.count start _ _ _ h₁).trans hs.view⟩
    obtain ⟨n', hn'⟩ := hs₁.owns.core start hx.1
    have hid : (s₁.tab.inodeTable start).ident = (s₀.tab.inodeTable start).ident := by
      rw [hn']
      rfl
    cases left with
    | nil =>
      obtain ⟨e, rfl⟩ := runs_pure.mp h
      obtain ⟨rfl, rfl⟩ := Prod.mk.inj (Option.some.inj e)
      exact ⟨hs₁, _, rfl, hstands, hid⟩
    | cons b bs =>
      cases hsep : afterLastSep (b :: bs) with
      | none =>
        rw [hsep] at h
        obtain ⟨e, rfl⟩ := runs_pure.mp h
        obtain ⟨rfl, rfl⟩ := Prod.mk.inj (Option.some.inj e)
        exact ⟨hs₁, _, rfl, hstands, hid⟩
      | some right =>
        rw [hsep] at h
        exact hs₁.namedLoop hm hr htree hstands hid h

/-- `namei` ends where its way does: at an inode the way of `named` has come to, or one component
    further. -/
theorem Walking.namei (htree : s₀.Treelike s₀.rootIdent) (hpwd : s₀.Below s₀.rootIdent s₀.pwdIdent)
    {pathname : List UInt8} (hs : Walking s₀ kept held s)
    (h : Ends (namei pathname) s (some x) t) :
    ∃ q, s₀.wayNamei s₀.rootIdent pathname = some q ∧ (t.tab.inodeTable x).ident = q.place ∧
      (q.within = true → s₀.Below s₀.rootIdent q.place) ∧
      (s₀.Single s₀.rootIdent q.place → s₀.Below s₀.rootIdent q.place → q.within = true) := by
  obtain ⟨d, s₁, h₁, h⟩ := runs_bind.mp h
  cases d with
  | none => cases (runs_pure.mp h).1
  | some d =>
  obtain ⟨dir, next⟩ := d
  obtain ⟨hs₁, p, hway, hp, hdir⟩ := hs.named hm hr hstart htree hpwd h₁
  rw [Kernel.wayNamei, hway]
  dsimp only at h ⊢
  obtain ⟨hnil, h⟩ | ⟨hnil, h⟩ := runs_ite.mp h
  · obtain ⟨e, rfl⟩ := runs_pure.mp h
    obtain rfl := Option.some.inj e
    rw [if_pos hnil]
    exact ⟨p, rfl, hdir, hp.right.mp, fun _ => hp.right.mpr⟩
  · rw [if_neg hnil]
    obtain ⟨⟨e, r⟩, s₂, h₂, h⟩ := runs_bind.mp h
    cases r with
    | none =>
      obtain ⟨_, s₃, -, h⟩ := runs_bind.mp h
      cases (runs_pure.mp h).1
    | some f =>
    obtain ⟨k, entry, rest⟩ := f
    obtain ⟨hs₂, hdir', hlook⟩ := hs₁.findEntry hm hr h₂
    obtain ⟨ino, s₃, ⟨rfl, rfl⟩, h⟩ := runs_bind.mp h
    have hdev : (s₂.tab.inodeTable e).dev ≠ devEOF := hs₂.owns.live List.mem_cons_self
    obtain ⟨nr, s₃, h₃, h⟩ := runs_bind.mp h
    obtain ⟨rfl, rfl⟩ := runs_dentryNr.mp h₃
    obtain ⟨y, s₃, h₃, h⟩ := runs_bind.mp h
    obtain ⟨hs₃, hy⟩ := hs₂.iget hm hr hdev h₃
    obtain ⟨_, s₄, h₄, h⟩ := runs_bind.mp h
    have hs₃' : Walking s₀ kept (e :: y :: held) s₃ := ⟨hs₃.owns.perm (.swap _ _ _), hs₃.view⟩
    obtain ⟨-, hcore⟩ := hs₃'.iput hr h₄
    obtain ⟨_, s₅, h₅, h⟩ := runs_bind.mp h
    obtain ⟨e', rfl⟩ := runs_pure.mp h
    obtain rfl := Option.some.inj e'
    have hid : (s₅.tab.inodeTable y).ident = (s₃.tab.inodeTable y).ident := by
      obtain ⟨n, hn⟩ := hcore y List.mem_cons_self
      rw [(brelse_same k _ _ _ h₅).tab, hn]
      rfl
    rw [hdir] at hdir' hlook
    obtain ⟨q, hq⟩ : ∃ q : Spot, q = ⟨(s₃.tab.inodeTable y).ident,
        inside s₀.rootIdent (isDotDot next) p.place (s₃.tab.inodeTable y).ident p.within⟩ := ⟨_, rfl⟩
    have honward : s₀.onward s₀.rootIdent p next = some (q, rest) := by
      rw [Kernel.onward, hlook, hq, hy]
      rfl
    have hplace : (s₅.tab.inodeTable y).ident = q.place := by rw [hq, hid]
    exact ⟨q, by rw [honward]; rfl, hplace, onward_below htree hp hdir' honward, fun hone =>
      (onward_stands htree hp hdir' honward hone).right.mpr⟩

end Walking

/-! ## 3. What a root keeps in -/

/-- **The tables are in order for a lookup**: the inodes in memory are counted, the file systems are
    mounted in order, and the running process has its directories. -/
structure Kernel.Ready (s : Kernel) (refs : List Nat) : Prop where
  owned : Owned s.tab refs
  rooted : Rooted s.tab refs
  mounted : Mounted s.tab
  starts : s.tab.Starts refs

theorem Kernel.Ready.walking {s : Kernel} {refs : List Nat} (h : s.Ready refs) :
    Walking s refs [] s :=
  ⟨⟨h.owned, .refl _, .refl _ _, nofun⟩, rfl⟩

/-- Between two calls they are. -/
theorem Settled.ready {S : System} (h : Settled S) (hrun : S.kernel.tab.running ∈ S.alive) :
    S.kernel.Ready S.pointers where
  owned := h.booking.owned
  rooted := h.mounted.byMounts.mono fun _ hx => List.mem_append_right _ (List.mem_append_right _ hx)
  mounted := h.mounted
  starts x hx := by
    have hmem : x ∈ S.directories := by
      refine List.mem_flatMap.mpr ⟨_, hrun, ?_⟩
      obtain rfl | rfl := hx <;> simp [System.held]
    exact ⟨List.mem_append_right _ (List.mem_append_left _ hmem), h.plain x hmem⟩

/-- **What a changed root keeps in**: the directory `named` answers lies below the process's root
    exactly when the way ends inside, and so does the inode `namei` answers; an inode with entries in
    several directories may be below the root by another name. -/
theorem chroot_confines {s : Kernel} {refs : List Nat} (hs : s.Ready refs)
    (htree : s.Treelike s.rootIdent) (hpwd : s.Below s.rootIdent s.pwdIdent)
    (pathname : List UInt8) :
    (∀ dir next t, Ends (named pathname) s (some (dir, next)) t →
      (s.namedInside pathname = true ↔ s.Below s.rootIdent (t.tab.inodeTable dir).ident)) ∧
    ∀ x t, Ends (namei pathname) s (some x) t →
      (s.nameiInside pathname = true → s.Below s.rootIdent (t.tab.inodeTable x).ident) ∧
      (s.Single s.rootIdent (t.tab.inodeTable x).ident →
        s.Below s.rootIdent (t.tab.inodeTable x).ident → s.nameiInside pathname = true) := by
  refine ⟨fun dir next t h => ?_, fun x t h => ?_⟩
  · obtain ⟨-, q, hway, hq, hdir⟩ :=
      hs.walking.named hs.mounted hs.rooted hs.starts htree hpwd h
    rw [Kernel.namedInside, hway, Option.any_some, hdir]
    exact hq.right
  · obtain ⟨q, hway, hx, hin, hout⟩ :=
      hs.walking.namei hs.mounted hs.rooted hs.starts htree hpwd h
    rw [Kernel.nameiInside, hway, Option.any_some, hx]
    exact ⟨hin, hout⟩

/-! ## 4. A process with its root in a directory of the volume -/

/-- A name is compared as far as its terminator. -/
theorem matchName_congr {b : Bytes} (b' : Bytes) {off : Nat} (off' : Nat) {n : Nat}
    (h : ∀ j, j ≤ n → b (off + j) = b' (off' + j)) (h0 : b (off + n) = 0) (name : List UInt8) :
    matchName b off name = matchName b' off' name := by
  induction name generalizing off off' n with
  | nil =>
    have := h 0 (Nat.zero_le _)
    simp only [Nat.add_zero] at this
    rw [matchName, matchName, this]
  | cons c cs ih =>
    have hb := h 0 (Nat.zero_le _)
    simp only [Nat.add_zero] at hb
    rw [matchName, matchName, ← hb]
    by_cases hc : b off = c ∧ c ≠ 0
    · rw [if_pos hc, if_pos hc]
      obtain ⟨m, rfl⟩ : ∃ m, n = m + 1 := by
        refine Nat.exists_eq_succ_of_ne_zero fun e => hc.2 ?_
        rw [← hc.1, ← h0, e, Nat.add_zero]
      have hshift : ∀ o j : Nat, o + 1 + j = o + (j + 1) := fun o j => by omega
      refine ih _ (n := m) (fun j hj => ?_) ?_
      · rw [hshift, hshift]
        exact h (j + 1) (by omega)
      · rwa [hshift]
    · rw [if_neg hc, if_neg hc]

/-- What matches a name begins with its first byte. -/
theorem matchName_head {b : Bytes} {off : Nat} {name : List UInt8} (hb : b off ≠ 0)
    (h : (matchName b off name).isSome) : ∃ cs, name = b off :: cs := by
  cases name with
  | nil => simp [matchName, hb] at h
  | cons c cs =>
    rw [matchName] at h
    split at h
    · rename_i hc
      exact ⟨cs, by rw [hc.1]⟩
    · cases h

/-- No component is both. -/
theorem isDotDot_eq_false {name : List UInt8} (h : isDot name = true) : isDotDot name = false := by
  match name with
  | [] => rfl
  | [c] =>
    by_contra hn
    have hn : isDotDot [c] = true := by simpa using hn
    obtain ⟨cs, hcs⟩ := matchName_head (b := ofString DOTDOT) (by decide) hn
    have hc : [c] = 46 :: cs := hcs
    cases hc
    exact absurd hn (by decide)
  | c :: c' :: cs =>
    obtain ⟨cs', hcs⟩ := matchName_head (b := ofString DOT) (by decide) h
    have hc : c :: c' :: cs = 46 :: cs' := hcs
    cases hc
    unfold isDot isDotDot at *
    by_cases e : c' = 46
    · subst e
      simp [matchName, ofString, DOT, isSeparator, SEPARATOR1, SEPARATOR2] at h
    · simp [matchName, ofString, DOTDOT, Ne.symm e]

/-- A component leads where an entry under its name does. -/
theorem look_entry {T : Tables} {w : View} {d e : Ident} {name next : List UInt8}
    (h : T.look w d name = some (e, next)) :
    ∃ ino i, T.inodeOf (T.under d name) = some ino ∧ i < ino.field w .size / 16 ∧
      (matchName (w (ino.entry w i).1) ((ino.entry w i).2 + 2) name).isSome ∧
        e = T.top ⟨(T.under d name).dev, fetch (w (ino.entry w i).1) (ino.entry w i).2 2⟩ := by
  obtain ⟨⟨k, off, n⟩, hf, he⟩ := Option.map_eq_some_iff.mp h
  obtain ⟨ino, hino, hf⟩ := Option.bind_eq_some_iff.mp hf
  obtain ⟨rfl, rfl⟩ := Prod.mk.inj he
  obtain ⟨i, hi, hm⟩ := List.exists_of_findSome?_eq_some hf
  refine ⟨ino, i, hino, List.mem_range.mp hi, ?_⟩
  unfold Inode.entryMatch at hm
  cases hmatch : matchName (w (ino.entry w i).1) ((ino.entry w i).2 + 2) name with
  | none =>
    simp only [hmatch] at hm
    cases hm
  | some r =>
    simp only [hmatch] at hm
    split at hm
    · obtain ⟨rfl, rfl, -⟩ := by simpa using hm
      exact ⟨rfl, rfl⟩
    · cases hm

namespace Sample

/-- The blocks with an empty directory `d`, inode 2. -/
def diskJail (k : Key) : Bytes :=
  if k = ⟨dev, 2⟩ then store (fun _ => 0) 0 1 7
  else if k = ⟨dev, 3⟩ then store (fun _ => 0) 0 1 7
  else if k = ⟨dev, 4⟩ then
    descriptor 32 (IFDIR + 0o755) 32 2 6 (descriptor 0 (IFDIR + 0o755) 48 3 5 fun _ => 0)
  else if k = ⟨dev, 5⟩ then
    dentry 32 2 [100] (dentry 16 1 DOTDOT (dentry 0 1 DOT fun _ => 0))
  else if k = ⟨dev, 6⟩ then dentry 16 1 DOTDOT (dentry 0 2 DOT fun _ => 0)
  else fun _ => 0

/-- The tables with the directory in slot 1. -/
def tabJail : Tables :=
  (system.kernel.tab.claimed 0 1 ⟨dev, 2, ⟨dev, 4⟩, 32, 1, 0, false⟩).took 1

/-- The running process has the directory as its root and current directory. -/
def kernelJail : Kernel where
  cache :=
    { disk := diskJail
      buf := fun k => ⟨none, false, if k = ⟨dev, 4⟩ then 2 else 0⟩ }
  tab := { tabJail with task := fun _ => ⟨0, 0, 0o022, 1, 1, fun _ => none⟩ }
  clock := fun i => 1000 + i
  tick := 0

theorem jail_owned : Owned kernelJail.tab [1, 1, 0, 0, 0, 0] := by
  have h : Owned tabJail [1, 1, 0, 0, 0, 0] := by
    refine Owned.take (system_owned.claim (by decide) (by decide) (by decide) (fun y hy => ?_) rfl rfl
      (by decide) rfl rfl rfl) (by decide)
    obtain rfl : y = 0 := List.mem_singleton.mp hy
    decide
  exact h.supers rfl (fun _ => rfl) fun _ _ => ⟨rfl, rfl⟩

theorem jail_mounted : Mounted kernelJail.tab := by
  refine system_mounted.stays ⟨fun i => ?_, fun x => ?_, fun x hx => ?_⟩
  · by_cases e : i = 0
    · subst e
      rfl
    · simp [kernelJail, tabJail, Tables.took, Tables.claimed, Tables.setSuper, Tables.setInode, e]
  · by_cases e : x = 1
    · subst e
      rfl
    · simp [kernelJail, tabJail, Tables.took, Tables.claimed, Tables.setSuper, Tables.setInode, e]
  · have hmounts : system.kernel.tab.mounts = [0, 0] := by decide
    obtain rfl : x = 0 := by simpa [hmounts] using hx
    exact ⟨4, rfl⟩

theorem jail_ready : kernelJail.Ready [1, 1, 0, 0, 0, 0] where
  owned := jail_owned
  rooted := jail_mounted.byMounts.mono fun x hx => by
    have hmounts : kernelJail.tab.mounts = [0, 0] := by decide
    rw [hmounts] at hx
    simpa using Or.inr hx
  mounted := jail_mounted
  starts x hx := by
    obtain rfl : x = 1 := hx.elim id id
    exact ⟨List.mem_cons_self, rfl⟩

/-- The root directory and the directory in it. -/
def jailRoot : Ident := ⟨dev, 1⟩
def jailDir : Ident := ⟨dev, 2⟩

/-- An entry `.`, one `..`, one `d`. -/
theorem dot_of_bytes {b : Bytes} {off : Nat} {name : List UInt8} (h0 : b off = 46)
    (h1 : b (off + 1) = 0) (h : (matchName b off name).isSome) : isDot name = true := by
  rwa [matchName_congr (ofString DOT) 0 (n := 1) (fun j hj => ?_) h1 name] at h
  match j, hj with
  | 0, _ => exact h0
  | 1, _ => exact h1

theorem dotDot_of_bytes {b : Bytes} {off : Nat} {name : List UInt8} (h0 : b off = 46)
    (h1 : b (off + 1) = 46) (h2 : b (off + 2) = 0) (h : (matchName b off name).isSome) :
    isDotDot name = true := by
  rwa [matchName_congr (ofString DOTDOT) 0 (n := 2) (fun j hj => ?_) h2 name] at h
  match j, hj with
  | 0, _ => exact h0
  | 1, _ => exact h1
  | 2, _ => exact h2

theorem proper_of_bytes {b : Bytes} {off : Nat} {name : List UInt8} (h0 : b off = 100)
    (h : (matchName b off name).isSome) : isDot name = false ∧ isDotDot name = false := by
  obtain ⟨cs, rfl⟩ := matchName_head (by rw [h0]; decide) h
  rw [h0]
  exact ⟨rfl, rfl⟩

/-- The entries of the two directories. -/
theorem jail_look {d e : Ident} {name next : List UInt8} (hd : d = jailRoot ∨ d = jailDir)
    (h : kernelJail.look d name = some (e, next)) :
    isDot name = true ∧ e = d ∨ isDotDot name = true ∧ e = jailRoot ∨
        isDot name = false ∧ isDotDot name = false ∧ d = jailRoot ∧ e = jailDir := by
  obtain ⟨ino, i, hino, hi, hmatch, rfl⟩ := look_entry h
  have hunder : kernelJail.tab.under d name = d := by
    unfold Tables.under
    split
    · rename_i hc
      obtain rfl | rfl := hd
      · decide
      · exact absurd hc.2 (by decide)
    · rfl
  rw [hunder] at hino ⊢
  obtain rfl | rfl := hd
  · obtain rfl : (⟨dev, 1, ⟨dev, 4⟩, 0, 1, 0, false⟩ : Inode) = ino :=
      Option.some.inj (Eq.trans (by rfl) hino)
    have hsize : Inode.field ⟨dev, 1, ⟨dev, 4⟩, 0, 1, 0, false⟩ kernelJail.view .size / 16 = 3 := by
      decide
    rw [hsize] at hi
    match i, hi with
    | 0, _ =>
      exact .inl ⟨dot_of_bytes (by decide) (by decide) hmatch, by decide⟩
    | 1, _ =>
      exact .inr (.inl ⟨dotDot_of_bytes (by decide) (by decide) (by decide)
        hmatch, by decide⟩)
    | 2, _ =>
      obtain ⟨hdot, hup⟩ := proper_of_bytes (by decide) hmatch
      exact .inr (.inr ⟨hdot, hup, rfl, by decide⟩)
  · obtain rfl : (⟨dev, 2, ⟨dev, 4⟩, 32, 1, 0, false⟩ : Inode) = ino :=
      Option.some.inj (Eq.trans (by rfl) hino)
    have hsize : Inode.field ⟨dev, 2, ⟨dev, 4⟩, 32, 1, 0, false⟩ kernelJail.view .size / 16 = 2 := by
      decide
    rw [hsize] at hi
    match i, hi with
    | 0, _ =>
      exact .inl ⟨dot_of_bytes (by decide) (by decide) hmatch, by decide⟩
    | 1, _ =>
      exact .inr (.inl ⟨dotDot_of_bytes (by decide) (by decide) (by decide)
        hmatch, by decide⟩)

theorem jail_reached {d : Ident} (h : kernelJail.Reaches jailDir d) : d = jailRoot ∨ d = jailDir := by
  induction h with
  | refl => exact .inr rfl
  | tail _ hn ih =>
    obtain ⟨-, name, next, hl⟩ := hn
    obtain ⟨-, rfl⟩ | ⟨-, rfl⟩ | ⟨-, -, -, rfl⟩ := jail_look ih hl
    · exact ih
    · exact .inl rfl
    · exact .inr rfl

theorem jail_child {a b : Ident} (ha : kernelJail.Reaches jailDir a) (h : kernelJail.Child a b) :
    a = jailRoot ∧ b = jailDir := by
  obtain ⟨-, name, next, hdot, hup, hl⟩ := h
  obtain ⟨h, -⟩ | ⟨h, -⟩ | ⟨-, -, h⟩ := jail_look (jail_reached ha) hl
  · rw [hdot] at h
    cases h
  · rw [hup] at h
    cases h
  · exact h

/-- Nothing else is below the directory. -/
theorem jail_below {d : Ident} (h : kernelJail.Below jailDir d) : d = jailDir := by
  obtain rfl | ⟨c, hc, -⟩ := ReflTransGen.cases_head h
  · rfl
  · cases (jail_child .refl hc).1

theorem jail_treelike : kernelJail.Treelike kernelJail.rootIdent := by
  have hroot : kernelJail.rootIdent = jailDir := rfl
  have hname : (kernelJail.look jailRoot [100]).map Prod.fst = some jailDir := by decide
  obtain ⟨⟨e, next⟩, hl, rfl⟩ := Option.map_eq_some_iff.mp hname
  have hchild : kernelJail.Child jailRoot jailDir :=
    ⟨by decide, [100], next, by decide, by decide, hl⟩
  rw [hroot]
  refine ⟨fun ha hb _ hc hc' => ?_, fun ha hc hb => ?_, fun hd _ hdot hl => ?_, fun hd _ hup hl => ?_⟩
  · rw [(jail_child ha hc).1, (jail_child hb hc').1]
  · obtain ⟨rfl, rfl⟩ := jail_child ha hc
    cases jail_below hb
  · obtain ⟨-, h⟩ | ⟨h, -⟩ | ⟨h, -⟩ := jail_look (jail_reached hd) hl
    · exact h
    · rw [isDotDot_eq_false hdot] at h
      cases h
    · rw [hdot] at h
      cases h
  · obtain ⟨h, -⟩ | ⟨-, h⟩ | ⟨-, h, -⟩ := jail_look (jail_reached hd) hl
    · rw [isDotDot_eq_false h] at hup
      cases hup
    · obtain rfl | rfl := jail_reached hd
      · exact .inl h
      · exact .inr (h ▸ hchild)
    · rw [hup] at h
      cases h

/-- `/../d`. -/
def upAndBack : List UInt8 := [47, 46, 46, 47, 100]

/-- `/..`. -/
def upOnce : List UInt8 := [47, 46, 46]

end Sample

/-- Up from the process's root and down into it again, the path leads below that root. -/
theorem chroot_confines_back : Sample.kernelJail.Ready [1, 1, 0, 0, 0, 0] ∧
    Sample.kernelJail.Treelike Sample.kernelJail.rootIdent ∧
    Sample.kernelJail.Below Sample.kernelJail.rootIdent Sample.kernelJail.pwdIdent ∧
    ∃ x t, Ends (namei Sample.upAndBack) Sample.kernelJail (some x) t ∧
      Sample.kernelJail.Below Sample.kernelJail.rootIdent (t.tab.inodeTable x).ident := by
  obtain ⟨r, t, h, hq⟩ := ends_of_run (p := namei Sample.upAndBack) (s := Sample.kernelJail)
    (q := fun r _ => r.isSome) (by decide)
  obtain ⟨x, rfl⟩ := Option.isSome_iff_exists.mp hq
  have hpwd : Sample.kernelJail.Below Sample.kernelJail.rootIdent Sample.kernelJail.pwdIdent := .refl
  exact ⟨Sample.jail_ready, Sample.jail_treelike, hpwd, x, t, h,
    ((chroot_confines Sample.jail_ready Sample.jail_treelike hpwd Sample.upAndBack).2 x t h).1
      (by decide)⟩

/-- Up from the process's root, a path leads to the system's root. -/
theorem chroot_confines_not_always : ¬ ∀ (s : Kernel) (refs : List Nat) (pathname : List UInt8)
    (x : Nat) (t : Kernel), s.Ready refs → s.Treelike s.rootIdent →
    s.Below s.rootIdent s.pwdIdent → Ends (namei pathname) s (some x) t →
      s.Below s.rootIdent (t.tab.inodeTable x).ident := by
  intro h
  obtain ⟨r, t, hr, hq⟩ := ends_of_run (p := namei Sample.upOnce) (s := Sample.kernelJail)
    (q := fun r t => r == some 0 && (t.tab.inodeTable 0).ident == Sample.jailRoot) (by decide)
  simp only [Bool.and_eq_true, beq_iff_eq] at hq
  obtain ⟨rfl, hid⟩ := hq
  have hb := h Sample.kernelJail [1, 1, 0, 0, 0, 0] Sample.upOnce 0 t Sample.jail_ready
    Sample.jail_treelike .refl hr
  rw [hid] at hb
  cases Sample.jail_below hb

end Yuios
