/-
  File:      Yuios/Fs/Umount.lean
  Subject:   A FILE SYSTEM IS UNMOUNTED, or the call fails: what `sys_umount` of `fs/super.c` leaves behind.

  * `Kernel.arrives` -- where `namei` leads, on what the tables and the blocks say before the call.
  * `System.verdict` -- what becomes of the call: its target is turned away, the device has no super block,
    the file system is in use, or it is unmounted.
  * **`sysUmount_effect`** -- the call answers and does what its verdict says: only a target that is turned
    away leaves the mounts as they were.
-/
import Mathlib.Data.Finset.Card
import Yuios.Fs.Components
import Yuios.Fs.NameiRefs

namespace Yuios

open Lib Prog Code

/-! ## 1. Where `namei` leads -/

namespace Kernel

variable (s : Kernel)

/-- The loop of `named`: a component leads on where the task may search what it names. -/
def arriveLoop (right : List UInt8) : (fuel : Nat) → Ident → (left : List UInt8) → Option (Ident × List UInt8)
  | 0, _, _ => none
  | fuel + 1, d, left =>
    match s.look d left with
    | none => none
    | some (e, next) =>
      if s.enterable e = true then
        if right = next then some (e, next) else arriveLoop right fuel e next
      else none

/-- The directory of the last component, and that component. -/
def arriveNamed (pathname : List UInt8) : Option (Ident × List UInt8) :=
  match pathname with
  | [] => none
  | c :: cs =>
    let start := if isSeparator c then s.rootIdent else s.pwdIdent
    let left := if isSeparator c then cs else pathname
    match left with
    | [] => some (start, left)
    | _ =>
      match afterLastSep left with
      | none => some (start, left)
      | some right => s.arriveLoop right (left.length + 1) start left

/-- **Where the path leads.** -/
def arrives (pathname : List UInt8) : Option Ident :=
  match s.arriveNamed pathname with
  | none => none
  | some (d, next) => if next = [] then some d else (s.look d next).map (·.1)

end Kernel

section Arrive

variable {s₀ s t : Kernel} {kept held : List Nat} {x fuel : Nat} {name next right left : List UInt8}
  (hm : Mounted s₀.tab) (hr : Rooted s₀.tab kept)
include hm hr

/-- The loop of `named` goes on where a component leads, and no further. -/
theorem Walking.arriveLoop {r : Option (Nat × List UInt8)} (hs : Walking s₀ kept (x :: held) s)
    (h : Ends (Yuios.namedLoop right fuel x left) s r t) :
    Walking s₀ kept ((r.map (·.1)).toList ++ held) t ∧
      r.map (fun r => ((t.tab.inodeTable r.1).ident, r.2)) =
        s₀.arriveLoop right fuel (s.tab.inodeTable x).ident left := by
  induction fuel generalizing x left s with
  | zero => exact h.elim
  | succ fuel ih =>
    obtain ⟨⟨e, f⟩, s₁, h₁, h⟩ := runs_bind.mp h
    obtain ⟨hs₁, -, hlook⟩ := hs.findEntry_look hm hr h₁
    rw [Kernel.arriveLoop, hlook]
    cases f with
    | none =>
      obtain ⟨_, s₂, h₂, h⟩ := runs_bind.mp h
      obtain ⟨rfl, rfl⟩ := runs_pure.mp h
      exact ⟨(hs₁.iput hr h₂).1, rfl⟩
    | some f =>
      obtain ⟨k, entry, rest⟩ := f
      obtain ⟨ino, s₂, ⟨rfl, rfl⟩, h⟩ := runs_bind.mp h
      have hdev : (s₁.tab.inodeTable e).dev ≠ devEOF := hs₁.owns.live List.mem_cons_self
      obtain ⟨_, s₂, h₂, h⟩ := runs_bind.mp h
      obtain ⟨hs₂, -⟩ := hs₁.iput hr h₂
      obtain ⟨nr, s₃, h₃, h⟩ := runs_bind.mp h
      obtain ⟨rfl, rfl⟩ := runs_dentryNr.mp h₃
      obtain ⟨y, s₃, h₃, h⟩ := runs_bind.mp h
      obtain ⟨hs₃, hy⟩ := hs₂.iget hm hr hdev h₃
      obtain ⟨ok, s₄, h₄, h⟩ := runs_bind.mp h
      obtain ⟨rfl, hok⟩ := hs₃.enters hm hr List.mem_cons_self h₄
      have hto : s₀.tab.top ⟨(s₁.tab.inodeTable e).dev, fetch (s₁.view k) entry 2⟩ =
          (s₃.tab.inodeTable y).ident := by
        rw [hy, hs₁.view, hs₂.view]
      simp only [Option.map_some, hto, ← hok]
      obtain ⟨hok, h⟩ | ⟨hok, h⟩ := runs_ite.mp h
      · rw [if_pos hok]
        obtain ⟨hlast, h⟩ | ⟨hlast, h⟩ := runs_ite.mp h
        · obtain ⟨_, s₅, h₅, h⟩ := runs_bind.mp h
          obtain ⟨rfl, rfl⟩ := runs_pure.mp h
          have hsame := brelse_same k _ _ _ h₅
          refine ⟨hs₃.same hsame, ?_⟩
          rw [if_pos hlast, Option.map_some, hsame.tab]
        · rw [if_neg hlast]
          exact ih hs₃ h
      · obtain ⟨_, s₅, h₅, h⟩ := runs_bind.mp h
        obtain ⟨_, s₆, h₆, h⟩ := runs_bind.mp h
        obtain ⟨rfl, rfl⟩ := runs_pure.mp h
        rw [if_neg hok]
        exact ⟨((hs₃.same (brelse_same k _ _ _ h₅)).iput hr h₆).1, rfl⟩

variable (hstart : s₀.tab.Starts kept)
include hstart

theorem Walking.arriveNamed {pathname : List UInt8} {r : Option (Nat × List UInt8)}
    (hs : Walking s₀ kept held s) (h : Ends (Yuios.named pathname) s r t) :
    Walking s₀ kept ((r.map (·.1)).toList ++ held) t ∧
      r.map (fun r => ((t.tab.inodeTable r.1).ident, r.2)) = s₀.arriveNamed pathname := by
  obtain ⟨task, s₁, h₁, h⟩ := runs_bind.mp h
  obtain ⟨rfl, rfl⟩ := runs_runningTask.mp h₁
  rw [hs.owns.around.task, hs.owns.around.running] at h
  cases pathname with
  | nil =>
    obtain ⟨rfl, rfl⟩ := runs_pure.mp h
    exact ⟨hs, rfl⟩
  | cons c cs =>
    obtain ⟨_, s₁, h₁, h⟩ := runs_bind.mp h
    obtain ⟨start, hx⟩ : ∃ start, start = if isSeparator c then (s₀.tab.task s₀.tab.running).iroot else
      (s₀.tab.task s₀.tab.running).ipwd := ⟨_, rfl⟩
    have hident : (if isSeparator c then s₀.rootIdent else s₀.pwdIdent) = (s₀.tab.inodeTable start).ident := by
      rw [hx]
      unfold Kernel.rootIdent Kernel.pwdIdent
      split <;> rfl
    unfold Kernel.arriveNamed
    dsimp only at h ⊢
    rw [hident]
    rw [← hx] at h₁ h
    obtain ⟨hmem, hp⟩ := hstart start (by rw [hx]; split <;> simp)
    generalize (if isSeparator c then cs else c :: cs) = left at *
    obtain ⟨n, hn⟩ := hs.owns.core start hmem
    have hs₁ : Walking s₀ kept (start :: held) s₁ :=
      ⟨owns_count start _ _ _ ⟨hs.owns, hmem, by rw [hn]; exact hp⟩ h₁,
        (walks_sees.count start _ _ _ h₁).trans hs.view⟩
    obtain ⟨n', hn'⟩ := hs₁.owns.core start hmem
    have hid : (s₁.tab.inodeTable start).ident = (s₀.tab.inodeTable start).ident := by
      rw [hn']
      rfl
    cases left with
    | nil =>
      obtain ⟨rfl, rfl⟩ := runs_pure.mp h
      exact ⟨hs₁, by rw [Option.map_some, hid]⟩
    | cons b bs =>
      cases hsep : afterLastSep (b :: bs) with
      | none =>
        rw [hsep] at h
        obtain ⟨rfl, rfl⟩ := runs_pure.mp h
        exact ⟨hs₁, by rw [Option.map_some, hid]⟩
      | some right =>
        rw [hsep] at h
        rw [← hid]
        exact hs₁.arriveLoop hm hr h

/-- **`namei` leads where the path does.** -/
theorem Walking.arrives {pathname : List UInt8} {r : Option Nat} (hs : Walking s₀ kept held s)
    (h : Ends (Yuios.namei pathname) s r t) :
    Walking s₀ kept (r.toList ++ held) t ∧
      r.map (fun x => (t.tab.inodeTable x).ident) = s₀.arrives pathname := by
  obtain ⟨d, s₁, h₁, h⟩ := runs_bind.mp h
  obtain ⟨hs₁, hd⟩ := hs.arriveNamed hm hr hstart h₁
  rw [Kernel.arrives, ← hd]
  cases d with
  | none =>
    obtain ⟨rfl, rfl⟩ := runs_pure.mp h
    exact ⟨hs₁, rfl⟩
  | some d =>
    obtain ⟨dir, next⟩ := d
    dsimp only [Option.map_some] at h ⊢
    obtain ⟨hnil, h⟩ | ⟨hnil, h⟩ := runs_ite.mp h
    · obtain ⟨rfl, rfl⟩ := runs_pure.mp h
      rw [if_pos hnil]
      exact ⟨hs₁, rfl⟩
    · rw [if_neg hnil]
      obtain ⟨⟨e, f⟩, s₂, h₂, h⟩ := runs_bind.mp h
      obtain ⟨hs₂, -, hlook⟩ := Walking.findEntry_look hm hr hs₁ h₂
      rw [hlook]
      cases f with
      | none =>
        obtain ⟨_, s₃, h₃, h⟩ := runs_bind.mp h
        obtain ⟨rfl, rfl⟩ := runs_pure.mp h
        exact ⟨(hs₂.iput hr h₃).1, rfl⟩
      | some f =>
        obtain ⟨k, entry, rest⟩ := f
        obtain ⟨ino, s₃, ⟨rfl, rfl⟩, h⟩ := runs_bind.mp h
        have hdev : (s₂.tab.inodeTable e).dev ≠ devEOF := hs₂.owns.live List.mem_cons_self
        obtain ⟨nr, s₃, h₃, h⟩ := runs_bind.mp h
        obtain ⟨rfl, rfl⟩ := runs_dentryNr.mp h₃
        obtain ⟨y, s₃, h₃, h⟩ := runs_bind.mp h
        obtain ⟨hs₃, hy⟩ := hs₂.iget hm hr hdev h₃
        obtain ⟨_, s₄, h₄, h⟩ := runs_bind.mp h
        have hs₃' : Walking s₀ kept (e :: y :: held) s₃ := ⟨hs₃.owns.perm (.swap _ _ _), hs₃.view⟩
        obtain ⟨hs₄, hcore⟩ := hs₃'.iput hr h₄
        obtain ⟨_, s₅, h₅, h⟩ := runs_bind.mp h
        obtain ⟨rfl, rfl⟩ := runs_pure.mp h
        have hsame := brelse_same k _ _ _ h₅
        obtain ⟨n, hn⟩ := hcore y List.mem_cons_self
        refine ⟨hs₄.same hsame, ?_⟩
        rw [Option.map_some, hsame.tab, hn]
        simp only [Option.map_some, ← hy]
        rfl

end Arrive

/-! ## 2. What becomes of the call -/

/-- What becomes of a call of `sys_umount`. -/
inductive Verdict where
  | away
  | missing
  | busy (i : Nat)
  | done (i : Nat)
  deriving DecidableEq

/-- A field of the descriptor of an inode. -/
def Kernel.fieldOf (s : Kernel) (d : Ident) (f : Field) : Nat :=
  (s.tab.inodeOf d).elim 0 fun ino => ino.field s.view f

/-- The device that is to be unmounted: what the target is the node of, or what it is the root of. -/
def Kernel.umountDev (s : Kernel) (d : Ident) : Int :=
  if ISBLK (s.fieldOf d .mode) then s.fieldOf d (.zone 0) else d.dev

/-- The target is neither a block device nor the root of a volume, or the system's root is mounted on it. -/
def System.turnsAway (S : System) (d : Ident) : Bool :=
  (!ISBLK (S.kernel.fieldOf d .mode) && d.nr != 1) ||
    (S.kernel.tab.superTable S.root).imount.any fun m => (S.kernel.tab.inodeTable m).ident == d

/-- Of the volume there is more in memory than its root, once the target is in memory. -/
def Tables.busy (T : Tables) (i : Nat) (d : Ident) : Bool :=
  decide (1 < (T.superTable i).inodeList.length) || (d.dev == (T.superTable i).dev && d.nr != 1)

/-- **What becomes of `sys_umount`**, on the state before the call. -/
def System.verdict (S : System) (target : List UInt8) : Verdict :=
  match S.kernel.arrives target with
  | none => .away
  | some d =>
    if S.turnsAway d = true then .away
    else
      match S.kernel.tab.getSuper (S.kernel.umountDev d) with
      | none => .missing
      | some i =>
        if (S.kernel.tab.superTable i).imount.isNone = true ∨ S.kernel.tab.busy i d = true then .busy i
        else .done i

section Verdict

variable {s₀ s : Kernel} {kept held : List Nat} {x i : Nat} {dev : Int}

/-- The list of a super block holds the inodes in memory of its device. -/
theorem Owned.mem_list {T : Tables} {refs : List Nat} (h : Owned T refs) (hi : T.getSuper dev = some i) :
    x ∈ (T.superTable i).inodeList ↔ x ∈ refs ∧ (T.inodeTable x).pipe = false ∧ (T.inodeTable x).dev = dev := by
  constructor
  · intro hx
    refine ⟨h.listed hx, (h.lists.listed i x hx).2, ?_⟩
    rw [← getSuper_dev hi, getSuper_dev (h.placed.home i x hx)]
  · rintro ⟨hx, hp, rfl⟩
    obtain ⟨j, hj⟩ := h.placed.onList x ((h.live x).mpr hx) hp
    obtain rfl := Option.some.inj (hi.symm.trans (h.placed.home j x hj))
    exact hj

theorem one_lt_length_iff {l : List Nat} (h : l.Nodup) : 1 < l.length ↔ ∃ a ∈ l, ∃ b ∈ l, a ≠ b := by
  rw [← List.toFinset_card_of_nodup h, Finset.one_lt_card]
  simp only [List.mem_toFinset]

variable (hm : Mounted s₀.tab) (hr : Rooted s₀.tab kept)
include hm hr

theorem Walking.fieldOf (hs : Walking s₀ kept held s) (hx : x ∈ held) (f : Field) :
    s.desc x f = s₀.fieldOf (s.tab.inodeTable x).ident f := by
  obtain ⟨ino, hino, -, hfield⟩ := hs.reads hm hr hx
  rw [Kernel.fieldOf, hino]
  exact (congrFun hfield f).symm

/-- What a super block is mounted on is what is held, where the two are the same inode. -/
theorem Walking.imount_iff (hs : Walking s₀ kept held s) (hx : x ∈ held) :
    (s.tab.superTable i).imount = some x ↔ ((s₀.tab.superTable i).imount.any fun m =>
      (s₀.tab.inodeTable m).ident == (s.tab.inodeTable x).ident) = true := by
  have hsame : (s.tab.superTable i).imount = (s₀.tab.superTable i).imount := by rw [hs.owns.around.super i]
  rw [hsame]
  cases hmnt : (s₀.tab.superTable i).imount with
  | none => simp
  | some m =>
    have hdev : (s₀.tab.superTable i).dev ≠ devEOF := fun e => by
      rw [(hm.spare i e).2] at hmnt
      cases hmnt
    obtain ⟨hmem, hp⟩ := hr.roots i hdev m (.inr hmnt)
    obtain ⟨n, hn⟩ := hs.owns.core m hmem
    have hident : (s.tab.inodeTable m).ident = (s₀.tab.inodeTable m).ident := by
      rw [hn]
      rfl
    have hp' : (s.tab.inodeTable m).pipe = false := by rw [hn]; exact hp
    simp only [Option.any_some, beq_iff_eq, ← hident, Option.some.injEq]
    refine ⟨fun e => by rw [e], fun e => ?_⟩
    exact hs.owns.owned.ident_inj (List.mem_append_right _ hmem) hp' (List.mem_append_left _ hx)
      (hs.owns.plain x hx) e

/-- Whether a file system is in use is seen before the call. -/
theorem Walking.busy_iff (hs : Walking s₀ kept [x] s) (ho : Owned s₀.tab kept)
    (hi : s₀.tab.getSuper dev = some i) (hne : dev ≠ devEOF) :
    1 < (s.tab.superTable i).inodeList.length ↔ s₀.tab.busy i (s.tab.inodeTable x).ident = true := by
  have hi' : s.tab.getSuper dev = some i := by rw [hs.owns.around.getSuper, hi]
  have hdev : (s₀.tab.superTable i).dev = dev := getSuper_dev hi
  have hkept : ∀ y ∈ kept, (s.tab.inodeTable y).ident = (s₀.tab.inodeTable y).ident ∧
      (s.tab.inodeTable y).pipe = (s₀.tab.inodeTable y).pipe := fun y hy => by
    obtain ⟨n, hn⟩ := hs.owns.core y hy
    rw [hn]
    exact ⟨rfl, rfl⟩
  have hmem : ∀ y, y ∈ (s.tab.superTable i).inodeList ↔
      y ∈ (s₀.tab.superTable i).inodeList ∨ y = x ∧ (s.tab.inodeTable x).dev = dev := fun y => by
    rw [hs.owns.owned.mem_list hi', ho.mem_list hi, List.mem_append, List.mem_singleton]
    constructor
    · rintro ⟨rfl | hy, hp, hd⟩
      · exact .inr ⟨rfl, hd⟩
      · obtain ⟨hid, hpipe⟩ := hkept y hy
        exact .inl ⟨hy, hpipe ▸ hp, (congrArg Ident.dev hid).symm.trans hd⟩
    · rintro (⟨hy, hp, hd⟩ | ⟨rfl, hd⟩)
      · obtain ⟨hid, hpipe⟩ := hkept y hy
        exact ⟨.inr hy, hpipe.trans hp, (congrArg Ident.dev hid).trans hd⟩
      · exact ⟨.inl rfl, hs.owns.plain y List.mem_cons_self, hd⟩
  have hused : (s₀.tab.superTable i).dev ≠ devEOF := hdev.symm ▸ hne
  obtain ⟨r, hroot, hrdev, hrnr, hrp⟩ := hm.roots i hused
  have hrk := (hr.roots i hused r (.inl hroot)).1
  have hr₀ : r ∈ (s₀.tab.superTable i).inodeList := (ho.mem_list hi).mpr ⟨hrk, hrp, hrdev.trans hdev⟩
  have hxr : (s.tab.inodeTable x).dev = dev → (x = r ↔ (s.tab.inodeTable x).nr = 1) := fun hd => by
    obtain ⟨hid, hpipe⟩ := hkept r hrk
    obtain ⟨hrd, hrn⟩ := Ident.mk.inj hid
    refine ⟨fun e => by rw [e, hrn, hrnr], fun e => ?_⟩
    refine hs.owns.owned.ident_inj List.mem_cons_self (hs.owns.plain x List.mem_cons_self)
      (List.mem_append_right _ hrk) (hpipe.trans hrp) ?_
    rw [hid, Inode.ident, Inode.ident, hd, e, hrdev, hdev, hrnr]
  rw [one_lt_length_iff (hs.owns.owned.lists.nodup i), Tables.busy, Bool.or_eq_true, decide_eq_true_eq,
    one_lt_length_iff (ho.lists.nodup i), Bool.and_eq_true, beq_iff_eq, bne_iff_ne]
  constructor
  · rintro ⟨a, ha, b, hb, hab⟩
    obtain ha | ⟨rfl, hd⟩ := (hmem a).mp ha
    · obtain hb | ⟨rfl, hd⟩ := (hmem b).mp hb
      · exact .inl ⟨a, ha, b, hb, hab⟩
      · by_cases e : (s.tab.inodeTable b).nr = 1
        · obtain rfl := (hxr hd).mpr e
          exact .inl ⟨a, ha, b, hr₀, hab⟩
        · exact .inr ⟨hd.trans hdev.symm, e⟩
    · by_cases e : (s.tab.inodeTable a).nr = 1
      · obtain rfl := (hxr hd).mpr e
        obtain hb | ⟨rfl, -⟩ := (hmem b).mp hb
        · exact .inl ⟨a, hr₀, b, hb, hab⟩
        · exact absurd rfl hab
      · exact .inr ⟨hd.trans hdev.symm, e⟩
  · rintro (⟨a, ha, b, hb, hab⟩ | ⟨hd, hn⟩)
    · exact ⟨a, (hmem a).mpr (.inl ha), b, (hmem b).mpr (.inl hb), hab⟩
    · have hd := hd.trans hdev
      exact ⟨x, (hmem x).mpr (.inr ⟨rfl, hd⟩), r, (hmem r).mpr (.inl hr₀), fun e => hn ((hxr hd).mp e)⟩

end Verdict

/-- What `sys_umount` has found out when it comes to `sb = get_super(dev)`, or turns away. -/
inductive System.Found (S : System) (target : List UInt8) : UmountStart → Option Nat → Prop where
  | nothing (h : S.kernel.arrives target = none) : S.Found target (.rollback none) none
  | away (x : Nat) (d : Ident) (h : S.kernel.arrives target = some d) (ht : S.turnsAway d = true) :
      S.Found target (.rollback (some x)) (some x)
  | super (x : Nat) (d : Ident) (h : S.kernel.arrives target = some d) (ht : S.turnsAway d = false) :
      S.Found target (.super x (S.kernel.tab.getSuper (S.kernel.umountDev d))) (some x)

section Start

variable {S S' : System} {refs : List Nat} {target : List UInt8} {start : UmountStart}

/-- **The first half of `sys_umount`** looks at the target, and holds its inode. -/
theorem ends_umountStart (hs : S.kernel.Ready refs) (h : Ends (umountStart target) S start S') :
    ∃ r k, S' = { S with kernel := k } ∧ Ends (namei target) S.kernel r k ∧ S.Found target start r := by
  obtain ⟨r, S₁, h₁, h⟩ := runs_bind.mp h
  obtain ⟨k, hk, rfl⟩ := ends_lift.mp h₁
  obtain ⟨hw, hr⟩ := hs.walking.arrives hs.mounted hs.rooted hs.starts hk
  rw [List.append_nil] at hw
  cases r with
  | none =>
    obtain ⟨rfl, rfl⟩ := runs_pure.mp h
    exact ⟨none, k, rfl, hk, .nothing hr.symm⟩
  | some x =>
    obtain ⟨mode, S₂, h₂, h⟩ := runs_bind.mp h
    obtain ⟨k₂, hk₂, rfl⟩ := ends_lift.mp h₂
    obtain ⟨rfl, rfl⟩ := runs_descGet.mp hk₂
    obtain ⟨ino, S₃, h₃, h⟩ := runs_bind.mp h
    obtain ⟨k₃, hk₃, rfl⟩ := ends_lift.mp h₃
    obtain ⟨rfl, rfl⟩ := runs_inodeAt.mp hk₃
    obtain ⟨S₄, S₅, h₄, h⟩ := runs_bind.mp h
    obtain ⟨rfl, rfl⟩ := runs_read.mp h₄
    have hx : x ∈ (some x).toList := List.mem_cons_self
    have hmode := hw.fieldOf hs.mounted hs.rooted hx .mode
    have hzone := hw.fieldOf hs.mounted hs.rooted hx (.zone 0)
    have hcover := hw.imount_iff hs.mounted hs.rooted hx (i := S.root)
    have hd : S.kernel.arrives target = some (k.tab.inodeTable x).ident := hr.symm
    generalize hid : (k.tab.inodeTable x).ident = d at *
    have hnr : (k.tab.inodeTable x).nr = d.nr := congrArg Ident.nr hid
    have hturn : S.turnsAway d = true ↔ (!ISBLK (k.desc x .mode) ∧ (k.tab.inodeTable x).nr ≠ 1) ∨
        (k.tab.superTable S.root).imount = some x := by
      rw [hcover, System.turnsAway, hmode, hnr]
      simp
    obtain ⟨hc, h⟩ | ⟨hc, h⟩ := runs_ite.mp h
    · obtain ⟨rfl, rfl⟩ := runs_pure.mp h
      exact ⟨some x, k, rfl, hk, .away x d hd (hturn.mpr hc)⟩
    · obtain ⟨zone, S₆, h₆, h⟩ := runs_bind.mp h
      obtain ⟨k₆, hk₆, rfl⟩ := ends_lift.mp h₆
      obtain ⟨rfl, rfl⟩ := runs_descGet.mp hk₆
      obtain ⟨rfl, rfl⟩ := runs_pure.mp h
      refine ⟨some x, k, rfl, hk, ?_⟩
      have hdev : (if ISBLK (k.desc x .mode) then (k.desc x (.zone 0) : Int) else (k.tab.inodeTable x).dev) =
          S.kernel.umountDev d := by
        rw [Kernel.umountDev, hmode, hzone, ← hid]
        rfl
      show S.Found target (.super x (k.tab.getSuper _)) _
      rw [hdev, hw.owns.around.getSuper]
      exact .super x d hd (Bool.eq_false_iff.mpr fun e => hc (hturn.mp e))

end Start

/-! ## 3. The second half -/

section Super

variable {S S' : System} {i x : Nat} {u : Unit}

theorem iput?_around {s t : Kernel} {o : Option Nat} (h : Ends (iput? o) s u t) : s.tab.Around t.tab := by
  cases o with
  | none =>
    obtain ⟨-, rfl⟩ := runs_pure.mp h
    exact .refl _
  | some x => exact (iput_putAway h).around

/-- The last reference to a super block goes: it is free before its inodes and its buffers are given back. -/
theorem ends_putSuper_last (h : Ends (putSuper (some i)) S u S') (hn : S.superCount i = 1) :
    ∃ k₁ k₂ k₃, Ends (iput? (S.kernel.tab.superTable i).imount)
        (S.kernel.setSuper i { S.kernel.tab.superTable i with dev := devEOF }) () k₁ ∧
      Ends (iput? (S.kernel.tab.superTable i).iroot) k₁ () k₂ ∧ k₃.tab = k₂.tab ∧
        S' = { S with kernel := k₃, superCount := Function.update S.superCount i 0 } := by
  obtain ⟨n, S₁, h₁, h⟩ := runs_bind.mp h
  obtain ⟨rfl, rfl⟩ := ends_superCount h₁
  obtain ⟨_, S₂, h₂, h⟩ := runs_bind.mp h
  obtain rfl := ends_lift_eq (obeys_check _ _) h₂
  obtain ⟨_, S₃, h₃, h⟩ := runs_bind.mp h
  have h₃ := ends_setSuperCount h₃
  obtain ⟨n, S₄, h₄, h⟩ := runs_bind.mp h
  obtain ⟨rfl, rfl⟩ := ends_superCount h₄
  obtain ⟨hz, -⟩ | ⟨-, h⟩ := runs_ite.mp h
  · exact absurd (by simp [h₃, hn]) hz
  rw [hn] at h₃
  obtain ⟨sb, S₅, h₅, h⟩ := runs_bind.mp h
  obtain ⟨_, ⟨rfl, rfl⟩, rfl⟩ := ends_lift.mp h₅
  obtain ⟨_, S₆, h₆, h⟩ := runs_bind.mp h
  obtain ⟨k₆, hk₆, rfl⟩ := ends_lift.mp h₆
  obtain ⟨_, S₇, h₇, h⟩ := runs_bind.mp h
  obtain ⟨k₇, hk₇, rfl⟩ := ends_lift.mp h₇
  obtain ⟨_, S₈, h₈, h⟩ := runs_bind.mp h
  obtain ⟨k₈, hk₈, rfl⟩ := ends_lift.mp h₈
  have hloop : ((S₃.kernel.tab.superTable i).bufs.forM fun k => onKernel (brelse k)) =
      onKernel ((S₃.kernel.tab.superTable i).bufs.forM brelse) := (zoom_forM _ _ _ _).symm
  have h : Ends ((S₃.kernel.tab.superTable i).bufs.forM fun k => onKernel (brelse k))
    { S₃ with kernel := k₈ } u S' := h
  rw [hloop] at h
  obtain ⟨k₉, hk₉, rfl⟩ := ends_onKernel.mp h
  have hstill : k₉.tab = k₈.tab := obeys_forM (R := Still) _ brelse_still _ _ _ hk₉
  have hk₆ := runs_onSuper hk₆
  subst hk₆ h₃
  exact ⟨k₇, k₈, k₉, hk₇, hk₈, hstill, rfl⟩

/-- A reference to a super block goes. -/
theorem ends_putSuper_count (h : Ends (putSuper (some i)) S u S') :
    S'.superCount i + 1 = S.superCount i ∧ S'.root = S.root ∧ ∀ j, S'.kernel.tab.superTable j =
      { S.kernel.tab.superTable j with
        dev := if j = i ∧ S.superCount i = 1 then devEOF else (S.kernel.tab.superTable j).dev
        inodeList := (S'.kernel.tab.superTable j).inodeList } := by
  have hpos : S.superCount i ≠ 0 := by
    obtain ⟨n, S₁, h₁, h⟩ := runs_bind.mp h
    obtain ⟨rfl, rfl⟩ := ends_superCount h₁
    obtain ⟨_, S₂, h₂, -⟩ := runs_bind.mp h
    obtain ⟨_, hk, -⟩ := ends_lift.mp h₂
    obtain ⟨hn, -⟩ := runs_assert.mp hk
    exact Nat.pos_iff_ne_zero.mp (of_decide_eq_true hn)
  by_cases hn : S.superCount i = 1
  · obtain ⟨k₁, k₂, k₃, h₁, h₂, h₃, rfl⟩ := ends_putSuper_last h hn
    refine ⟨by simp [hn], rfl, fun j => ?_⟩
    have ha := (iput?_around h₁).trans (iput?_around h₂)
    rw [← h₃] at ha
    rw [ha.super j]
    by_cases e : j = i
    · simp [Tables.setSuper, e, hn]
    · simp [Tables.setSuper, e]
  · have h := ends_putSuper (by omega) h
    subst h
    refine ⟨by simp; omega, rfl, fun j => ?_⟩
    simp [hn]

/-- **The second half of `sys_umount`**: the file system is in use, or it is taken down. -/
theorem ends_umountSuper {a : Bool} (h : Ends (umountSuper x i) S a S') :
    (a = false ∧ ((S.kernel.tab.superTable i).imount = none ∨ 1 < (S.kernel.tab.superTable i).inodeList.length) ∧
      Ends (superRollback (some i) (some x) false) S false S') ∨
    (a = true ∧ (S.kernel.tab.superTable i).inodeList.length ≤ 1 ∧ ∃ m k₁ k₂,
      (S.kernel.tab.superTable i).imount = some m ∧
      Ends (iput? (S.kernel.tab.superTable i).iroot) S.kernel () k₁ ∧
      Ends (iput m) ((k₁.setSuper i { k₁.tab.superTable i with iroot := none }).setInode m
        { k₁.tab.inodeTable m with mount := 0 }) () k₂ ∧
      Ends (superRollback (some i) (some x) true)
        { S with kernel := k₂.setSuper i { k₂.tab.superTable i with imount := none } } true S') := by
  obtain ⟨sb, S₁, h₁, h⟩ := runs_bind.mp h
  obtain ⟨_, ⟨rfl, rfl⟩, rfl⟩ := ends_lift.mp h₁
  cases hm : (S.kernel.tab.superTable i).imount with
  | none =>
    rw [hm] at h
    obtain ⟨-, -, -, -, ha, -⟩ := ends_superRollback h
    rw [← ha] at h ⊢
    exact .inl ⟨rfl, .inl rfl, h⟩
  | some m =>
    rw [hm] at h
    obtain ⟨hc, h⟩ | ⟨hc, h⟩ := runs_ite.mp h
    · obtain ⟨-, -, -, -, ha, -⟩ := ends_superRollback h
      rw [← ha] at h ⊢
      exact .inl ⟨rfl, .inr hc, h⟩
    · obtain ⟨_, S₂, h₂, h⟩ := runs_bind.mp h
      obtain ⟨k₁, hk₁, rfl⟩ := ends_lift.mp h₂
      obtain ⟨_, S₃, h₃, h⟩ := runs_bind.mp h
      obtain ⟨k₃, hk₃, rfl⟩ := ends_lift.mp h₃
      have hk₃ := runs_onSuper hk₃
      obtain ⟨_, S₄, h₄, h⟩ := runs_bind.mp h
      obtain ⟨k₄, hk₄, rfl⟩ := ends_lift.mp h₄
      have hk₄ := runs_onInode hk₄
      obtain ⟨_, S₅, h₅, h⟩ := runs_bind.mp h
      obtain ⟨k₂, hk₂, rfl⟩ := ends_lift.mp h₅
      obtain ⟨_, S₆, h₆, h⟩ := runs_bind.mp h
      obtain ⟨k₆, hk₆, rfl⟩ := ends_lift.mp h₆
      have hk₆ := runs_onSuper hk₆
      obtain ⟨-, -, -, -, ha, -⟩ := ends_superRollback h
      subst hk₃ hk₄ hk₆
      rw [← ha] at h ⊢
      exact .inr ⟨rfl, Nat.not_lt.mp hc, m, k₁, k₂, rfl, hk₁, hk₂, h⟩

end Super

/-! ## 4. What the call does -/

/-- **Nothing of the mounts has changed**: the super blocks but for the order of their lists, their counts,
    what is mounted where, the counts of the inodes; and no buffer is held less. -/
structure MountKept (S S' : System) : Prop where
  super : ∀ i, S'.kernel.tab.superTable i =
    { S.kernel.tab.superTable i with inodeList := (S'.kernel.tab.superTable i).inodeList }
  supers : S'.superCount = S.superCount
  mount : ∀ x, (S'.kernel.tab.inodeTable x).mount = (S.kernel.tab.inodeTable x).mount
  inode : ∀ x, (S'.kernel.tab.inodeTable x).count = (S.kernel.tab.inodeTable x).count
  buffer : ∀ k, (S.kernel.cache.buf k).count ≤ (S'.kernel.cache.buf k).count

/-- One reference to super block `i` has gone, and with the last one its device. -/
structure SuperPut (S S' : System) (i : Nat) : Prop where
  count : S'.superCount i + 1 = S.superCount i
  dev : ∀ j, (S'.kernel.tab.superTable j).dev =
    if j = i ∧ S.superCount i = 1 then devEOF else (S.kernel.tab.superTable j).dev

/-- The file system of super block `i` is mounted nowhere any more. -/
structure Unmounted (S S' : System) (i : Nat) : Prop where
  iroot : (S'.kernel.tab.superTable i).iroot = none
  imount : (S'.kernel.tab.superTable i).imount = none
  mount : ∀ x, (S'.kernel.tab.inodeTable x).mount =
    if (S.kernel.tab.superTable i).imount = some x then 0 else (S.kernel.tab.inodeTable x).mount

/-- **What a call with that verdict answers and does.** -/
def Verdict.Effect (S S' : System) : Verdict → Bool → Prop
  | .away, a => a = false ∧ MountKept S S'
  | .missing, _ => False
  | .busy i, a => a = false ∧ SuperPut S S' i
  | .done i, a => a = true ∧ SuperPut S S' i ∧ Unmounted S S' i

section Effect

variable {S S' : System} {refs : List Nat} {target : List UInt8} {k : Kernel} {leak : List Key} {i : Nat} {a : Bool}

/-- A lookup that holds nothing any more has changed nothing of the mounts. -/
theorem Holding.mountKept (h : Holding S.kernel [] leak k) (ha : S.kernel.tab.Around k.tab) :
    MountKept S { S with kernel := k } := by
  refine ⟨h.super, rfl, ha.mount, fun x => by simpa using h.count x, fun b => ?_⟩
  have howners : k.tab.owners b = S.kernel.tab.owners b := by
    have h : Holding S.kernel (none : Option Nat).toList leak k := h
    simpa [loadedRef] using h.owners b
  have hbal := h.balance b
  show (S.kernel.cache.buf b).count ≤ (k.cache.buf b).count
  omega

/-- The target is turned away. -/
theorem mountKept_away {r : Option Nat} (hs : S.kernel.Ready refs) (hk : Ends (namei target) S.kernel r k)
    (h : Ends (superRollback none r false) { S with kernel := k } a S') : a = false ∧ MountKept S S' := by
  obtain ⟨S₁, ⟨-, rfl⟩, k', hk', rfl, rfl⟩ := ends_superRollback h
  obtain ⟨leak, hhold, -⟩ := namei_holding hs.booked hk
  obtain ⟨hw, -⟩ := hs.walking.arrives hs.mounted hs.rooted hs.starts hk
  refine ⟨rfl, ?_⟩
  cases r with
  | none =>
    obtain ⟨-, rfl⟩ := runs_pure.mp hk'
    exact Holding.mountKept (S := S) hhold hw.owns.around
  | some x => exact Holding.mountKept (S := S) (holding_iput x _ _ _ hhold hk') (hw.owns.around.trans (iput_putAway hk').around)

/-- The reference to the super block that the call gives back, from tables in which only the lists have changed. -/
theorem superPut_rollback {x : Nat} {ret : Bool} (h : Ends (superRollback (some i) (some x) ret) S a S') :
    ret = a ∧ SuperPut S S' i ∧ (∀ j, (S'.kernel.tab.superTable j).iroot = (S.kernel.tab.superTable j).iroot ∧
      (S'.kernel.tab.superTable j).imount = (S.kernel.tab.superTable j).imount) := by
  obtain ⟨S₁, h₁, k', hk', rfl, rfl⟩ := ends_superRollback h
  obtain ⟨hcount, -, hsuper⟩ := ends_putSuper_count h₁
  have ha := (iput_putAway hk').around
  refine ⟨rfl, ⟨hcount, fun j => ?_⟩, fun j => ?_⟩
  · rw [ha.super j, hsuper j]
  · rw [ha.super j, hsuper j]
    exact ⟨rfl, rfl⟩

theorem superPut_mount {x : Nat} {ret : Bool} (h : Ends (superRollback (some i) (some x) ret) S a S') (y : Nat) :
    (S'.kernel.tab.inodeTable y).mount = (S.kernel.tab.inodeTable y).mount := by
  obtain ⟨S₁, h₁, k', hk', rfl, rfl⟩ := ends_superRollback h
  have ha := (iput_putAway hk').around
  have hput : (S₁.kernel.tab.inodeTable y).mount = (S.kernel.tab.inodeTable y).mount := by
    by_cases hn : S.superCount i = 1
    · obtain ⟨k₁, k₂, k₃, hk₁, hk₂, hk₃, rfl⟩ := ends_putSuper_last h₁ hn
      show (k₃.tab.inodeTable y).mount = _
      rw [hk₃, (iput?_around hk₂).mount, (iput?_around hk₁).mount]
      rfl
    · obtain ⟨hc, -⟩ := ends_putSuper_count h₁
      rw [ends_putSuper (by omega) h₁]
  rw [ha.mount, hput]

/-- A file system taken down: its root is put back, and what it was mounted on is free to be mounted on. -/
theorem unmounted_tables {k₁ k₂ : Kernel} {m : Nat} {u v : Unit} (h₁ : Ends (iput? (k.tab.superTable i).iroot) k u k₁)
    (h₂ : Ends (iput m) ((k₁.setSuper i { k₁.tab.superTable i with iroot := none }).setInode m
      { k₁.tab.inodeTable m with mount := 0 }) v k₂) :
    (∀ j, (k₂.tab.superTable j).dev = (k.tab.superTable j).dev) ∧ (k₂.tab.superTable i).iroot = none ∧
      ∀ y, (k₂.tab.inodeTable y).mount = if y = m then 0 else (k.tab.inodeTable y).mount := by
  have ha₁ := iput?_around h₁
  have ha₂ := (iput_putAway h₂).around
  refine ⟨fun j => ?_, ?_, fun y => ?_⟩
  · rw [ha₂.super j]
    by_cases e : j = i
    · simp only [Tables.setSuper, Tables.setInode, e, Function.update_self]
      rw [ha₁.super i]
    · simp only [Tables.setSuper, Tables.setInode, Function.update_of_ne e]
      rw [ha₁.super j]
  · rw [ha₂.super i]
    simp [Tables.setSuper, Tables.setInode]
  · rw [ha₂.mount y]
    by_cases e : y = m
    · simp [Tables.setSuper, Tables.setInode, e]
    · simp [Tables.setSuper, Tables.setInode, e, ha₁.mount y]

/-- Super block `i` is in use, and the one that is found for its device. -/
def System.Mounts (S : System) (i : Nat) : Prop :=
  (S.kernel.tab.superTable i).dev ≠ devEOF ∧ S.kernel.tab.getSuper (S.kernel.tab.superTable i).dev = some i

/-- **The ways through `sys_umount`**: the target is turned away, the file system is in use, or it is taken down. -/
inductive System.Goes (S : System) (target : List UInt8) (k : Kernel) (S' : System) : Option Nat → Bool → Prop where
  | away (r : Option Nat) (hv : S.verdict target = .away)
      (h : Ends (superRollback none r false) { S with kernel := k } false S') : S.Goes target k S' r false
  | busy (x i : Nat) (hv : S.verdict target = .busy i) (hi : S.Mounts i)
      (h : Ends (superRollback (some i) (some x) false) { S with kernel := k } false S') :
      S.Goes target k S' (some x) false
  | done (x i m : Nat) (k₁ k₂ : Kernel) (hv : S.verdict target = .done i)
      (hi : S.Mounts i) (hm : (k.tab.superTable i).imount = some m)
      (hlen : (k.tab.superTable i).inodeList.length ≤ 1)
      (h₁ : Ends (iput? (k.tab.superTable i).iroot) k () k₁)
      (h₂ : Ends (iput m) ((k₁.setSuper i { k₁.tab.superTable i with iroot := none }).setInode m
        { k₁.tab.inodeTable m with mount := 0 }) () k₂)
      (h : Ends (superRollback (some i) (some x) true)
        { S with kernel := k₂.setSuper i { k₂.tab.superTable i with imount := none } } true S') :
      S.Goes target k S' (some x) true

theorem ends_sysUmount (hs : S.kernel.Ready refs) (h : Ends (sysUmount target) S a S') :
    ∃ r k, Ends (namei target) S.kernel r k ∧ S.Goes target k S' r a := by
  obtain ⟨start, S₁, h₁, h⟩ := runs_bind.mp h
  obtain ⟨r, k, rfl, hk, hfound⟩ := ends_umountStart hs h₁
  refine ⟨r, k, hk, ?_⟩
  cases hfound with
  | nothing harr =>
    obtain ⟨-, -, -, -, rfl, -⟩ := ends_superRollback h
    exact .away none (by rw [System.verdict, harr]) h
  | away x d harr hturn =>
    obtain ⟨-, -, -, -, rfl, -⟩ := ends_superRollback h
    refine .away (some x) ?_ h
    rw [System.verdict, harr]
    exact if_pos hturn
  | super x d harr hturn =>
    obtain ⟨i, S₂, h₂, h⟩ := runs_bind.mp h
    obtain ⟨hi, rfl⟩ := runs_need.mp h₂
    obtain ⟨hw, hd⟩ := hs.walking.arrives hs.mounted hs.rooted hs.starts hk
    rw [List.append_nil] at hw
    have hd : (k.tab.inodeTable x).ident = d := Option.some.inj (hd.trans harr)
    have hne : S.kernel.umountDev d ≠ devEOF := by
      unfold Kernel.umountDev
      split
      · exact fun e => absurd (e ▸ Int.natCast_nonneg _) (by decide)
      · rw [← hd]
        exact hw.owns.live List.mem_cons_self
    have hused : S.Mounts i := by
      rw [System.Mounts, getSuper_dev hi]
      exact ⟨hne, hi⟩
    have hbusy := hw.busy_iff hs.mounted hs.rooted hs.owned hi hne
    have himount : (k.tab.superTable i).imount = (S.kernel.tab.superTable i).imount := by
      rw [hw.owns.around.super i]
    rw [hd] at hbusy
    have hverdict : S.verdict target =
        if (S.kernel.tab.superTable i).imount.isNone = true ∨ S.kernel.tab.busy i d = true then .busy i
        else .done i := by
      rw [System.verdict, harr]
      dsimp only
      rw [if_neg (by rw [hturn]; exact Bool.false_ne_true), hi]
    obtain ⟨rfl, hcase, h⟩ | ⟨rfl, hcase, m, k₁, k₂, hm, h₁, h₂, h⟩ := ends_umountSuper h
    · refine .busy x i ?_ hused h
      rw [hverdict, if_pos]
      obtain hnone | hlong := hcase
      · exact .inl (by rw [← himount, hnone]; rfl)
      · exact .inr (hbusy.mp hlong)
    · refine .done x i m k₁ k₂ ?_ hused hm hcase h₁ h₂ h
      rw [hverdict, if_neg]
      rintro (hnone | hlong)
      · rw [← himount, hm] at hnone
        cases hnone
      · exact absurd (hbusy.mpr hlong) (Nat.not_lt.mpr hcase)

/-- What the call does on each of the ways. -/
theorem System.Goes.effect {r : Option Nat} (hs : S.kernel.Ready refs) (hk : Ends (namei target) S.kernel r k)
    (hgoes : S.Goes target k S' r a) : (S.verdict target).Effect S S' a := by
  obtain ⟨hw, -⟩ := hs.walking.arrives hs.mounted hs.rooted hs.starts hk
  cases hgoes with
  | away _ hv h =>
    rw [hv]
    exact mountKept_away hs hk h
  | busy x i hv _ h =>
    rw [hv]
    obtain ⟨-, hput, -⟩ := superPut_rollback h
    refine ⟨rfl, hput.count, fun j => ?_⟩
    rw [hput.dev j, hw.owns.around.super j]
  | done x i m k₁ k₂ hv _ hm _ h₁ h₂ h =>
    rw [hv]
    have hm' : (S.kernel.tab.superTable i).imount = some m := by
      rw [hw.owns.around.super i] at hm
      exact hm
    obtain ⟨-, hput, hroots⟩ := superPut_rollback h
    obtain ⟨hdev, hiroot, hmount⟩ := unmounted_tables h₁ h₂
    have hself : ∀ j, (k₂.tab.setSuper i { k₂.tab.superTable i with imount := none }).superTable j =
        if j = i then { k₂.tab.superTable i with imount := none } else k₂.tab.superTable j := fun j => by
      by_cases e : j = i
      · simp [Tables.setSuper, e]
      · simp [Tables.setSuper, e]
    refine ⟨rfl, ⟨hput.count, fun j => ?_⟩, ?_, ?_, fun y => ?_⟩
    · have hold : (k₂.tab.superTable j).dev = (S.kernel.tab.superTable j).dev := by
        rw [hdev j, hw.owns.around.super j]
      rw [hput.dev j, hself j, ← hold]
      by_cases e : j = i
      · rw [if_pos e, e]
      · rw [if_neg e]
    · rw [(hroots i).1, hself i, if_pos rfl]
      exact hiroot
    · rw [(hroots i).2, hself i, if_pos rfl]
    · rw [superPut_mount h y, hm']
      show (k₂.tab.inodeTable y).mount = _
      rw [hmount y, hw.owns.around.mount y]
      simp only [Option.some.injEq, eq_comm]

end Effect

/-- **`sys_umount` does what the state before it says**: a target that is turned away leaves the mounts as they
    were; of a file system in use the super block loses a reference that the call never took; one that is not in
    use is taken down; and where the device has no super block, the call reads through NULL. -/
theorem sysUmount_effect {S : System} {refs : List Nat} (hs : S.kernel.Ready refs) (target : List UInt8) :
    (∀ a S', Ends (sysUmount target) S a S' → (S.verdict target).Effect S S' a) ∧
      ∀ start S', Ends (umountStart target) S start S' →
        ((∃ x, start = .super x none) ↔ S.verdict target = .missing) := by
  refine ⟨fun a S' h => ?_, fun start S' h => ?_⟩
  · obtain ⟨r, k, hk, hgoes⟩ := ends_sysUmount hs h
    exact hgoes.effect hs hk
  · obtain ⟨r, k, rfl, hk, hfound⟩ := ends_umountStart hs h
    cases hfound with
    | nothing harr =>
      rw [System.verdict, harr]
      exact iff_of_false (fun ⟨_, e⟩ => by cases e) (fun e => by cases e)
    | away x d harr hturn =>
      rw [System.verdict, harr]
      dsimp only
      rw [if_pos hturn]
      exact iff_of_false (fun ⟨_, e⟩ => by cases e) (fun e => by cases e)
    | super x d harr hturn =>
      rw [System.verdict, harr]
      dsimp only
      rw [if_neg (by rw [hturn]; exact Bool.false_ne_true)]
      cases S.kernel.tab.getSuper (S.kernel.umountDev d) with
      | none => exact iff_of_true ⟨x, rfl⟩ rfl
      | some i =>
        refine iff_of_false (fun ⟨_, e⟩ => by cases e) ?_
        dsimp only
        split <;> exact fun e => by cases e

namespace Sample

/-- The blocks with the node of the volume's own device, `b`, inode 2. -/
def diskNode (k : Key) : Bytes :=
  if k = ⟨dev, 2⟩ then store (fun _ => 0) 0 1 7
  else if k = ⟨dev, 4⟩ then
    descriptor 32 (IFBLK + 0o644) 0 1 1 (descriptor 0 (IFDIR + 0o755) 48 2 5 fun _ => 0)
  else if k = ⟨dev, 5⟩ then dentry 32 2 [98] (dentry 16 1 DOTDOT (dentry 0 1 DOT fun _ => 0))
  else fun _ => 0

/-- One process on that volume, its super block with its buffers. -/
def nodeSystem : System :=
  { system with
    kernel := { tidyKernel with
      cache := { disk := diskNode, buf := fun k => ⟨none, false, if k.dev = dev ∧ k.block ∈ [1, 2, 3, 4] then 1 else 0⟩ } } }

theorem node_settled : Settled nodeSystem :=
  ⟨system_settled.booking, system_settled.plain, system_settled.mounted, system_settled.supers⟩

theorem node_ready : nodeSystem.kernel.Ready nodeSystem.pointers := node_settled.ready (by decide)

/-- `/b`. -/
def nodePath : List UInt8 := [47, 98]

end Sample

/-- The call fails on the system's own device, and takes the super block of the root away. -/
theorem sysUmount_effect_node : Sample.nodeSystem.kernel.Ready Sample.nodeSystem.pointers ∧
    ∃ S', Ends (sysUmount Sample.nodePath) Sample.nodeSystem false S' ∧ SuperPut Sample.nodeSystem S' 0 := by
  have hv : Sample.nodeSystem.verdict Sample.nodePath = .busy 0 := by decide
  obtain ⟨a, S', h, hq⟩ := ends_of_run (p := sysUmount Sample.nodePath) (s := Sample.nodeSystem)
    (q := fun a _ => a == false) (by decide)
  obtain rfl : a = false := by simpa using hq
  have heffect := (sysUmount_effect Sample.node_ready Sample.nodePath).1 false S' h
  rw [hv] at heffect
  exact ⟨Sample.node_ready, S', h, heffect.2⟩

end Yuios
