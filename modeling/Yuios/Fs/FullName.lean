/-
  File:      Yuios/Fs/FullName.lean
  Subject:   ENTRIES WITH NAMES OF 14 BYTES: what `find_entry` finds, and what `match_name` reads.

  * `fieldName`, `component`, `afterComponent` -- the name of an entry, at most 14 bytes of it; the
    first component of a path, and the rest after one separator.
  * `matchName_short`, `matchName_other`, `matchName_full` -- `match_name` against the name in the entry's
    field: `matchReach` is how many bytes of the entry it looks at.
  * `Regular` -- the entry does not use all 14 bytes to begin the path, and does not have a separator
    in its name where the path goes on with it.
  * **`findEntry_named`** -- the first live entry of that name is found, and no byte past a name is
    looked at, if and only if the entries up to it are regular.
  * `fullName_missed` -- a file with a name of 14 bytes, and another entry behind it.
-/
import Mathlib.Data.List.TakeWhile
import Yuios.Lib.Returns
import Yuios.Fs.Creation

namespace Yuios

open Lib Prog Code

/-! ## 1. Names -/

/-- The bytes up to a NUL, `n` at most. -/
def nameBytes (b : Bytes) : (n off : Nat) → List UInt8
  | 0, _ => []
  | n + 1, off => if b off = 0 then [] else b off :: nameBytes b n (off + 1)

/-- The name in an entry's field. -/
def fieldName (b : Bytes) (off : Nat) : List UInt8 := nameBytes b NAME_LEN off

/-- The text up to a separator or the end. -/
def component (name : List UInt8) : List UInt8 := name.takeWhile fun c => !isSeparator c

/-- What follows the component and one separator. -/
def afterComponent (name : List UInt8) : List UInt8 := (name.dropWhile fun c => !isSeparator c).drop 1

/-- How many bytes of the entry's name `match_name` looks at. -/
def matchReach (b : Bytes) : (off : Nat) → (name : List UInt8) → Nat
  | _, [] => 1
  | off, c :: cs => if b off = c ∧ c ≠ 0 then matchReach b (off + 1) cs + 1 else 1

/-- The path goes on with a separator, or ends. -/
def atEnd : List UInt8 → Bool
  | [] => true
  | c :: _ => isSeparator c

section Names

variable {b : Bytes} {off : Nat} {name pre rest : List UInt8}

theorem matchReach_cons {c : UInt8} : matchReach b off (c :: name) =
    if b off = c ∧ c ≠ 0 then matchReach b (off + 1) name + 1 else 1 := rfl

/-- The bytes from `off` on are these, and none is NUL. -/
def HoldsName (b : Bytes) (off : Nat) (pre : List UInt8) : Prop :=
  ∀ j (h : j < pre.length), b (off + j) = pre[j] ∧ pre[j] ≠ 0

theorem HoldsName.tail {c : UInt8} (h : HoldsName b off (c :: pre)) : HoldsName b (off + 1) pre := by
  intro j hj
  have := h (j + 1) (Nat.succ_lt_succ hj)
  rwa [show off + (j + 1) = off + 1 + j by omega] at this

theorem HoldsName.head {c : UInt8} (h : HoldsName b off (c :: pre)) : b off = c ∧ c ≠ 0 := h 0 (Nat.succ_pos _)

/-- Bytes that are equal are passed. -/
theorem matchName_append (rest : List UInt8) (h : HoldsName b off pre) :
    matchName b off (pre ++ rest) = matchName b (off + pre.length) rest ∧
      matchReach b off (pre ++ rest) = pre.length + matchReach b (off + pre.length) rest := by
  induction pre generalizing off with
  | nil => exact ⟨rfl, (Nat.zero_add _).symm⟩
  | cons c pre ih =>
    obtain ⟨h1, h2⟩ := ih h.tail
    rw [List.cons_append, matchName, matchReach_cons, if_pos h.head, if_pos h.head, h1, h2, List.length_cons,
      show off + 1 + pre.length = off + (pre.length + 1) by omega]
    exact ⟨rfl, by omega⟩

/-- At the end of the entry's name. -/
theorem matchName_end (h0 : b off = 0) (hname : (0 : UInt8) ∉ name) :
    matchName b off name = (if atEnd name then some (name.drop 1) else none) ∧ matchReach b off name = 1 := by
  cases name with
  | nil => exact ⟨if_pos h0, rfl⟩
  | cons c cs =>
    have hne : ¬(b off = c ∧ c ≠ 0) := by
      rintro ⟨rfl, h⟩
      exact h h0
    rw [matchName, matchReach_cons, if_neg hne, if_neg hne, if_neg (by simpa using h0)]
    exact ⟨rfl, rfl⟩

/-- A path that does not begin with the bytes. -/
theorem matchName_differs (h : HoldsName b off pre) (hn : ¬pre <+: name) :
    matchName b off name = none ∧ matchReach b off name ≤ pre.length := by
  induction pre generalizing off name with
  | nil => exact absurd List.nil_prefix hn
  | cons c pre ih =>
    obtain ⟨hc, hc0⟩ := h.head
    cases name with
    | nil =>
      rw [matchName, if_neg (by rw [hc]; exact hc0)]
      exact ⟨rfl, Nat.succ_pos _⟩
    | cons c' cs =>
      rw [matchName, matchReach_cons]
      by_cases e : b off = c' ∧ c' ≠ 0
      · rw [if_pos e, if_pos e]
        have hcc : c = c' := hc.symm.trans e.1
        have := ih h.tail fun hp => hn (by rw [hcc]; exact List.cons_prefix_cons.mpr ⟨rfl, hp⟩)
        exact ⟨this.1, Nat.succ_le_succ this.2⟩
      · rw [if_neg e, if_neg e, if_pos (by rw [hc]; exact hc0)]
        exact ⟨rfl, Nat.succ_pos _⟩

theorem nameBytes_holds {n : Nat} : HoldsName b off (nameBytes b n off) ∧ (nameBytes b n off).length ≤ n ∧
    ((nameBytes b n off).length < n → b (off + (nameBytes b n off).length) = 0) := by
  induction n generalizing off with
  | zero => exact ⟨fun j h => absurd h (Nat.not_lt_zero j), Nat.le_refl 0, fun h => absurd h (Nat.lt_irrefl 0)⟩
  | succ n ih =>
    rw [nameBytes]
    by_cases h0 : b off = 0
    · rw [if_pos h0]
      exact ⟨fun j h => absurd h (Nat.not_lt_zero j), Nat.zero_le _, fun _ => h0⟩
    · rw [if_neg h0]
      obtain ⟨h1, h2, h3⟩ := @ih (off + 1)
      have hshift : ∀ j, off + (j + 1) = off + 1 + j := fun j => by omega
      refine ⟨fun j hj => ?_, Nat.succ_le_succ h2, fun h => ?_⟩
      · cases j with
        | zero => exact ⟨rfl, h0⟩
        | succ j =>
          rw [hshift]
          exact h1 j (Nat.lt_of_succ_lt_succ hj)
      · rw [List.length_cons, hshift]
        exact h3 (Nat.lt_of_succ_lt_succ h)

/-- The component of a path. -/
theorem component_append (hpre : ∀ c ∈ pre, isSeparator c = false) (hrest : atEnd rest = true) :
    component (pre ++ rest) = pre ∧ afterComponent (pre ++ rest) = rest.drop 1 := by
  have hdrop : rest.dropWhile (fun c => !isSeparator c) = rest ∧ rest.takeWhile (fun c => !isSeparator c) = [] := by
    cases rest with
    | nil => exact ⟨rfl, rfl⟩
    | cons c cs =>
      have hc : isSeparator c = true := hrest
      simp [hc]
  have hall : ∀ c ∈ pre, (!isSeparator c) = true := fun c hc => by rw [hpre c hc]; rfl
  unfold component afterComponent
  rw [List.takeWhile_append_of_pos hall, List.dropWhile_append_of_pos hall, hdrop.1, hdrop.2, List.append_nil]
  exact ⟨rfl, rfl⟩

/-- What a component is. -/
theorem component_iff : component name = pre ↔
    ∃ rest, name = pre ++ rest ∧ (∀ c ∈ pre, isSeparator c = false) ∧ atEnd rest = true := by
  constructor
  · rintro rfl
    refine ⟨name.dropWhile fun c => !isSeparator c, (List.takeWhile_append_dropWhile ..).symm, ?_, ?_⟩
    · intro c hc
      simpa using List.mem_takeWhile_imp hc
    · cases h : name.dropWhile fun c => !isSeparator c with
      | nil => rfl
      | cons c cs =>
        have := List.head_dropWhile_not (fun c => !isSeparator c) (by rw [h]; exact List.cons_ne_nil c cs)
        simpa [h, atEnd] using this
  · rintro ⟨rest, rfl, hpre, hrest⟩
    exact (component_append hpre hrest).1

end Names

/-! ## 2. Entries -/

namespace Inode

variable (ino : Inode) (w : View) (name : List UInt8)

/-- The name of entry `i`. -/
def entryName (i : Nat) : List UInt8 := fieldName (w (ino.entry w i).1) ((ino.entry w i).2 + 2)

/-- Entry `i` is not deleted. -/
def entryLive (i : Nat) : Prop := fetch (w (ino.entry w i).1) (ino.entry w i).2 2 ≠ 0

instance (i : Nat) : Decidable (ino.entryLive w i) := instDecidableNot

/-- Entry `i`, if it is live and its name is the component. -/
def nameMatch (i : Nat) : Option (Key × Nat × List UInt8) :=
  if ino.entryName w i = component name ∧ ino.entryLive w i then
    some ((ino.entry w i).1, (ino.entry w i).2, afterComponent name)
  else none

/-- The first live entry whose name is the component. -/
def findNamed : Option (Key × Nat × List UInt8) :=
  (List.range (ino.field w .size / 16)).findSome? (ino.nameMatch w name)

/-- How many bytes of entry `i`'s name are looked at. -/
def entryReach (i : Nat) : Nat := matchReach (w (ino.entry w i).1) ((ino.entry w i).2 + 2) name

/-- **Entry `i` is regular** for the path: it does not use all 14 bytes to begin it; and if it is live
    and has a separator in its name, then the path does not go on with it as a component. -/
structure Regular (i : Nat) : Prop where
  short : ino.entryName w i <+: name → (ino.entryName w i).length < NAME_LEN
  whole : ino.entryLive w i → (∃ c ∈ ino.entryName w i, isSeparator c = true) →
    ino.entryName w i <+: name → atEnd (name.drop (ino.entryName w i).length) = false

variable {ino w name} {i j : Nat}

theorem entryName_length (ino : Inode) (w : View) (i : Nat) : (ino.entryName w i).length ≤ NAME_LEN :=
  nameBytes_holds.2.1

theorem entryName_holds (ino : Inode) (w : View) (i : Nat) :
    HoldsName (w (ino.entry w i).1) ((ino.entry w i).2 + 2) (ino.entryName w i) := nameBytes_holds.1

theorem entryName_end (h : (ino.entryName w i).length < NAME_LEN) :
    w (ino.entry w i).1 ((ino.entry w i).2 + 2 + (ino.entryName w i).length) = 0 := nameBytes_holds.2.2 h

theorem entryMatch_eq : ino.entryMatch w name i =
    if ino.entryLive w i then
      (matchName (w (ino.entry w i).1) ((ino.entry w i).2 + 2) name).map fun next =>
        ((ino.entry w i).1, (ino.entry w i).2, next)
    else none := by
  unfold entryMatch
  dsimp only
  cases matchName (w (ino.entry w i).1) ((ino.entry w i).2 + 2) name with
  | none => exact (ite_self none).symm
  | some next => rfl

/-- Where the path begins with a name of less than 14 bytes. -/
theorem matchName_entry (hname : (0 : UInt8) ∉ name) {rest : List UInt8}
    (hrest : name = ino.entryName w i ++ rest) (hlen : (ino.entryName w i).length < NAME_LEN) :
    matchName (w (ino.entry w i).1) ((ino.entry w i).2 + 2) name =
        (if atEnd rest then some (rest.drop 1) else none) ∧
      ino.entryReach w name i = (ino.entryName w i).length + 1 := by
  have hzero : (0 : UInt8) ∉ rest := fun h => hname (by rw [hrest]; exact List.mem_append_right _ h)
  obtain ⟨h3, h4⟩ := matchName_end (entryName_end hlen) hzero
  obtain ⟨h1, h2⟩ := matchName_append rest (entryName_holds ino w i)
  unfold entryReach
  rw [← hrest] at h1 h2
  exact ⟨h1.trans h3, h2.trans (by rw [h4])⟩

/-- Where the path begins with the name: when the name is the component. -/
theorem entryName_iff {rest : List UInt8} (hrest : name = ino.entryName w i ++ rest) :
    ino.entryName w i = component name ↔
      (∀ c ∈ ino.entryName w i, isSeparator c = false) ∧ atEnd rest = true := by
  rw [eq_comm, component_iff]
  constructor
  · rintro ⟨rest', he, hsep, hend⟩
    have hrr : rest' = rest := (List.append_cancel_left (hrest.symm.trans he)).symm
    exact ⟨hsep, hrr ▸ hend⟩
  · rintro ⟨hsep, hend⟩
    exact ⟨rest, hrest, hsep, hend⟩

/-- **A regular entry** is compared as a whole, and no further. -/
theorem Regular.entry (h : ino.Regular w name i) (hname : (0 : UInt8) ∉ name) :
    ino.entryMatch w name i = ino.nameMatch w name i ∧ ino.entryReach w name i ≤ NAME_LEN := by
  have hlen := entryName_length ino w i
  rw [entryMatch_eq]
  unfold nameMatch
  by_cases hp : ino.entryName w i <+: name
  · obtain ⟨rest, hrest⟩ := id hp
    obtain ⟨hm, hreach⟩ := matchName_entry hname hrest.symm (h.short hp)
    refine ⟨?_, by rw [hreach]; exact h.short hp⟩
    have hiff := entryName_iff hrest.symm
    rw [hm]
    by_cases hl : ino.entryLive w i
    · rw [if_pos hl]
      cases hend : atEnd rest with
      | false =>
        rw [if_neg fun h => Bool.false_ne_true (hend.symm.trans (hiff.mp (And.left h)).2)]
        rfl
      | true =>
        have hsep : ∀ c ∈ ino.entryName w i, isSeparator c = false := by
          intro c hc
          by_contra hn
          have := h.whole hl ⟨c, hc, by simpa using hn⟩ hp
          rw [← hrest, List.drop_left, hend] at this
          cases this
        have hafter : afterComponent name = rest.drop 1 := by
          rw [← hrest]
          exact (component_append hsep hend).2
        rw [if_pos rfl, if_pos (And.intro (hiff.mpr ⟨hsep, hend⟩) hl), hafter]
        rfl
    · rw [if_neg hl, if_neg fun h => hl h.2]
  · obtain ⟨hm, hreach⟩ := matchName_differs (entryName_holds ino w i) hp
    have hne : ino.entryName w i ≠ component name := by
      intro he
      obtain ⟨rest, hrest, -⟩ := component_iff.mp he.symm
      exact hp ⟨rest, hrest.symm⟩
    rw [hm, if_neg fun h => hne (And.left h)]
    exact ⟨ite_self none, hreach.trans hlen⟩

/-- One that is not is looked at past its field, or is taken for another. -/
theorem not_regular (h : ¬ino.Regular w name i) (hname : (0 : UInt8) ∉ name) :
    NAME_LEN < ino.entryReach w name i ∨
      (ino.entryMatch w name i ≠ none ∧ ino.nameMatch w name i = none) := by
  by_cases hp : ino.entryName w i <+: name
  · obtain ⟨rest, hrest⟩ := id hp
    by_cases hlen : (ino.entryName w i).length < NAME_LEN
    · obtain ⟨hm, -⟩ := matchName_entry hname hrest.symm hlen
      -- it is the separator in the name
      have hw : ino.entryLive w i ∧ (∃ c ∈ ino.entryName w i, isSeparator c = true) ∧ atEnd rest = true := by
        by_contra hn
        refine h ⟨fun _ => hlen, fun hl hs _ => ?_⟩
        rw [← hrest, List.drop_left]
        simpa using fun he => hn ⟨hl, hs, he⟩
      obtain ⟨hl, ⟨c, hc, hsep⟩, hend⟩ := hw
      refine .inr ⟨?_, if_neg fun h => ?_⟩
      · rw [entryMatch_eq, if_pos hl, hm, if_pos hend]
        exact Option.some_ne_none _
      · have := ((entryName_iff hrest.symm).mp h.1).1 c hc
        rw [hsep] at this
        cases this
    · have hreach := (matchName_append rest (entryName_holds ino w i)).2
      have hpos : ∀ (b : Bytes) (off : Nat) (name : List UInt8), 1 ≤ matchReach b off name := by
        intro b off name
        cases name with
        | nil => exact Nat.le_refl 1
        | cons c cs =>
          rw [matchReach_cons]
          split <;> omega
      have hfull : (ino.entryName w i).length = NAME_LEN :=
        Nat.le_antisymm (entryName_length ino w i) (not_lt.mp hlen)
      have := hpos (w (ino.entry w i).1) ((ino.entry w i).2 + 2 + (ino.entryName w i).length) rest
      rw [hrest] at hreach
      refine .inl ?_
      unfold entryReach
      omega
  · exact absurd ⟨fun h => absurd h hp, fun _ _ h => absurd h hp⟩ h

/-- What an entry answers depends on its place alone. -/
theorem nameMatch_place (h : ino.entry w i = ino.entry w j) :
    ino.nameMatch w name i = ino.nameMatch w name j := by
  have hn : ino.entryName w i = ino.entryName w j := by rw [entryName, entryName, h]
  have hl : ino.entryLive w i ↔ ino.entryLive w j := by rw [entryLive, entryLive, h]
  exact if_congr (and_congr (by rw [hn]) hl) (by rw [h]) rfl

theorem nameMatch_some {r : Key × Nat × List UInt8} (h : ino.nameMatch w name i = some r) :
    ino.entry w i = (r.1, r.2.1) := by
  unfold nameMatch at h
  split at h
  · cases h
    rfl
  · cases h

theorem entryMatch_some {r : Key × Nat × List UInt8} (h : ino.entryMatch w name i = some r) :
    ino.entry w i = (r.1, r.2.1) := by
  rw [entryMatch_eq] at h
  split at h
  · obtain ⟨next, -, rfl⟩ := Option.map_eq_some_iff.mp h
    rfl
  · cases h

/-! ## 3. The search -/

/-- **The entries up to the first live one of that name are regular.** -/
def AllRegular (ino : Inode) (w : View) (name : List UInt8) : Prop :=
  ∀ i < ino.field w .size / 16, (∀ j < i, ino.nameMatch w name j = none) → ino.Regular w name i

/-- No byte past the name of an entry is looked at, of all those that `find_entry` comes to. -/
def StaysInside (ino : Inode) (w : View) (name : List UInt8) : Prop :=
  ∀ i < ino.field w .size / 16, (∀ j < i, ino.entryMatch w name j = none) →
    ino.entryReach w name i ≤ NAME_LEN

/-- Two searches that agree as long as one finds nothing. -/
theorem findSome_congr {α : Type} {f g : Nat → Option α} {n i : Nat}
    (h : ∀ k, i ≤ k → k < i + n → (∀ j, i ≤ j → j < k → g j = none) → f k = g k) :
    (List.range' i n).findSome? f = (List.range' i n).findSome? g := by
  induction n generalizing i with
  | zero => rfl
  | succ n ih =>
    rw [List.range'_succ, List.findSome?_cons, List.findSome?_cons]
    have hi : f i = g i := h i (Nat.le_refl i) (by omega) (fun j h1 h2 => by omega)
    rw [hi]
    cases hg : g i with
    | some r => rfl
    | none =>
      refine ih fun k h1 h2 hk => h k (by omega) (by omega) fun j h3 h4 => ?_
      by_cases e : j = i
      · rw [e, hg]
      · exact hk j (by omega) h4

/-- A search stops where something is found for the first time. -/
theorem findSome_first {α : Type} {f : Nat → Option α} {n i k : Nat} {r : α} (h1 : i ≤ k) (h2 : k < i + n)
    (hnone : ∀ j, i ≤ j → j < k → f j = none) (hr : f k = some r) :
    (List.range' i n).findSome? f = some r := by
  induction n generalizing i with
  | zero => omega
  | succ n ih =>
    rw [List.range'_succ, List.findSome?_cons]
    by_cases e : i = k
    · rw [e, hr]
    · rw [hnone i (Nat.le_refl i) (by omega)]
      exact ih (by omega) (by omega) fun j h3 h4 => hnone j (by omega) h4

theorem AllRegular.agree (h : ino.AllRegular w name) (hname : (0 : UInt8) ∉ name)
    (hi : i < ino.field w .size / 16) (hnone : ∀ j < i, ino.nameMatch w name j = none) :
    ino.entryMatch w name i = ino.nameMatch w name i := ((h i hi hnone).entry hname).1

/-- **The search is right and stays inside the names if and only if** the entries are regular. -/
theorem find_named (hname : (0 : UInt8) ∉ name) :
    (ino.find w name = ino.findNamed w name ∧ ino.StaysInside w name) ↔ ino.AllRegular w name := by
  constructor
  · rintro ⟨hfind, hin⟩
    by_contra hn
    -- the first entry that is not regular is the first one that is found
    obtain ⟨i, ⟨hi, hnone, hreg⟩, hleast⟩ : ∃ i, (i < ino.field w .size / 16 ∧
        (∀ j < i, ino.nameMatch w name j = none) ∧ ¬ino.Regular w name i) ∧
        ∀ j < i, ¬(j < ino.field w .size / 16 ∧ (∀ k < j, ino.nameMatch w name k = none) ∧
          ¬ino.Regular w name j) := by
      unfold AllRegular at hn
      push Not at hn
      classical exact ⟨Nat.find hn, Nat.find_spec hn, fun j hj => Nat.find_min hn hj⟩
    have hnone' : ∀ j < i, ino.entryMatch w name j = none := by
      intro j hj
      have hreg' : ino.Regular w name j := by
        by_contra hr
        exact hleast j hj ⟨by omega, fun k hk => hnone k (by omega), hr⟩
      rw [(hreg'.entry hname).1]
      exact hnone j hj
    obtain hlong | ⟨hsome, hmiss⟩ := not_regular hreg hname
    · have := hin i hi hnone'
      omega
    · obtain ⟨r, hr⟩ := Option.ne_none_iff_exists'.mp hsome
      have hfound : ino.find w name = some r := by
        unfold find
        rw [List.range_eq_range']
        exact findSome_first (Nat.zero_le i) (by omega) (fun j _ hj => hnone' j hj) hr
      rw [hfind] at hfound
      obtain ⟨i', -, hi'⟩ := List.exists_of_findSome?_eq_some hfound
      have hplace : ino.entry w i = ino.entry w i' := (entryMatch_some hr).trans (nameMatch_some hi').symm
      rw [nameMatch_place hplace, hi'] at hmiss
      cases hmiss
  · intro h
    refine ⟨?_, fun i hi hnone => ?_⟩
    · unfold find findNamed
      rw [List.range_eq_range']
      exact findSome_congr fun k _ hk hnone =>
        h.agree hname (by omega) fun j hj => hnone j (Nat.zero_le j) hj
    · have hnone' : ∀ k, k ≤ i → ∀ j < k, ino.nameMatch w name j = none := by
        intro k hk
        induction k with
        | zero => exact fun j hj => absurd hj (Nat.not_lt_zero j)
        | succ k ih =>
          intro j hj
          have hprev := ih (by omega)
          by_cases e : j = k
          · subst e
            rw [← h.agree hname (by omega) hprev]
            exact hnone j (by omega)
          · exact hprev j (by omega)
      exact ((h i hi (hnone' i (Nat.le_refl i))).entry hname).2

end Inode

/-! ## 4. The run -/

/-- The same is shown, and the code holds these buffers more. -/
structure Borrowed (ks : List Key) (s t : Kernel) : Prop where
  same : Same s t
  count : ∀ k, (t.cache.buf k).count = (s.cache.buf k).count + ks.count k

/-- No buffer has a negative count. -/
def CountsKept (s : Kernel) : Prop := ∀ k, 0 ≤ (s.cache.buf k).count

section Borrowed

variable {α β : Type} {s t u : Kernel} {ks : List Key} {k : Key} {dir : Nat}

theorem Borrowed.refl (s : Kernel) : Borrowed [] s s := ⟨Same.refl s, fun _ => (Int.add_zero _).symm⟩

/-- A sequence runs to its end. -/
theorem returns_then {p : Code α} {f : α → Code β} {Q : β × Kernel → Prop} :
    Returns (run (p >>= f) s) Q ↔ Returns (run p s) fun r => Returns (run (f r.1) r.2) Q := by
  rw [run_bind]
  exact returns_bind

theorem returns_onCache {f : Cache → Cache} {Q : Unit × Kernel → Prop} :
    Returns (run (onCache f) s) Q ↔ Q ((), { s with cache := f s.cache }) := returns_ok

theorem returns_reads {f : Kernel → α} {Q : α × Kernel → Prop} :
    Returns (run (Prog.reads f : Code α) s) Q ↔ Q (f s, s) := returns_ok

theorem returns_sleep {l : List Frame} {Q : Unit × Kernel → Prop} :
    Returns (run (Prog.sleep l : Code Unit) s) Q ↔ Q ((), s) := returns_ok

theorem returns_result {a : α} {Q : α × Kernel → Prop} :
    Returns (run (pure a : Code α) s) Q ↔ Q (a, s) := returns_ok

theorem returns_assertion {c : Bool} {Q : Unit × Kernel → Prop} :
    Returns (run (Code.assert c) s) Q ↔ c = true ∧ Q ((), s) := by
  cases c with
  | true => exact returns_ok.trans (and_iff_right rfl).symm
  | false => exact returns_error.trans (iff_of_false not_false fun h => Bool.false_ne_true h.1)

theorem returns_descGet {x : Nat} {f : Field} {Q : Nat × Kernel → Prop} :
    Returns (run (descGet x f) s) Q ↔ Q (s.desc x f, s) := returns_ok

/-- `bread` always returns. -/
theorem bread_returns (dev : Int) (block : Nat) (s : Kernel) :
    Returns (run (bread dev block) s) fun _ => True := by
  unfold bread
  rw [returns_then, returns_onCache, returns_then, returns_reads]
  split
  · exact returns_ok.mpr trivial
  · rw [returns_then, returns_sleep, returns_then, returns_onCache]
    exact returns_ok.mpr trivial

theorem bread_borrowed (h : Borrowed ks s t) (dev : Int) (block : Nat) :
    Returns (run (bread dev block) t) fun r => r.1 = ⟨dev, block⟩ ∧ Borrowed (⟨dev, block⟩ :: ks) s r.2 := by
  refine (bread_returns dev block t).mono fun r hr _ => ?_
  have hends := ends_iff.mpr hr
  refine ⟨bread_key hends, h.same.trans (bread_same _ _ _ _ _ hends), fun k => ?_⟩
  rw [bread_counts hends, h.count k, List.count_cons]
  by_cases e : k = ⟨dev, block⟩
  · simp [e]
    omega
  · simp [e, Ne.symm e]

theorem bwrite_returns (k : Key) (s : Kernel) : Returns (run (bwrite k) s) fun _ => True := by
  unfold bwrite
  rw [returns_then, returns_reads]
  split
  · rw [returns_then, returns_onCache, returns_then, returns_sleep, returns_onCache]
    trivial
  · exact returns_ok.mpr trivial

/-- `brelse` returns where the code holds the buffer. -/
theorem brelse_borrowed (hs : CountsKept s) (h : Borrowed (k :: ks) s t) :
    Returns (run (brelse k) t) fun r => Borrowed ks s r.2 := by
  have hret : Returns (run (brelse k) t) fun _ => True := by
    unfold brelse
    rw [returns_then]
    refine (bwrite_returns k t).mono fun r hr _ => ?_
    have hcount := bwrite_counts k _ _ _ (ends_iff.mpr hr) k
    rw [returns_then, returns_onCache, returns_then, returns_reads, returns_assertion]
    have hk : 0 ≤ ((r.2.cache.addCount k (-1)).buf k).count := by
      rw [count_addCount, if_pos rfl, hcount, h.count k, List.count_cons_self]
      have := hs k
      omega
    exact ⟨by simpa using hk, trivial⟩
  refine hret.mono fun r hr _ => ?_
  have hends := ends_iff.mpr hr
  refine ⟨h.same.trans (brelse_same _ _ _ _ hends), fun k' => ?_⟩
  rw [brelse_counts hends, h.count k', List.count_cons]
  by_cases e : k' = k
  · simp [e]
    omega
  · simp [e, Ne.symm e]

theorem brelse?_borrowed {buf : Option Key} (hs : CountsKept s) (h : Borrowed (buf.toList ++ ks) s t) :
    Returns (run (brelse? buf) t) fun r => Borrowed ks s r.2 := by
  cases buf with
  | none => exact returns_ok.mpr h
  | some k => exact brelse_borrowed hs h

/-- Without `create` the slot is left as it is, and the buffer given back. -/
theorem bmapSlot_borrowed (hs : CountsKept s) (x level slot : Nat) (h : Borrowed (k :: ks) s t) :
    Returns (run (bmapSlot x false level k slot) t) fun r => Borrowed ks s r.2 := by
  unfold bmapSlot within
  rw [run_mapLabel, returns_then]
  unfold bmapFill bytesOf
  rw [returns_then, returns_reads, if_neg (by simp), returns_result]
  exact brelse_borrowed hs h

/-- `bmap` without `create` returns. -/
theorem bmapReckon_borrowed (hs : CountsKept s) (x level : Nat) {buf : Key} {array index block divider : Nat}
    (h : Borrowed (buf :: ks) s t) :
    Returns (run (bmapReckon x false level buf array index block divider) t) fun r => Borrowed ks s r.2 := by
  induction level generalizing buf array index block divider t with
  | zero =>
    unfold bmapReckon bytesOf
    rw [returns_then]
    refine (bmapSlot_borrowed hs x 0 _ h).mono fun r _ h' => ?_
    rw [returns_then, returns_reads, returns_result]
    exact h'
  | succ level ih =>
    unfold bmapReckon bytesOf inodeAt
    rw [returns_then]
    refine (bmapSlot_borrowed hs x _ _ h).mono fun r _ h' => ?_
    rw [returns_then, returns_reads]
    show Returns (run (if fetch (r.2.view buf) (array + 2 * index) 2 = 0 then _ else _) r.2) _
    by_cases hz : fetch (r.2.view buf) (array + 2 * index) 2 = 0
    · rw [if_pos hz]
      exact returns_ok.mpr h'
    · rw [if_neg hz, returns_then, returns_reads, returns_then]
      refine (bread_borrowed h' _ _).mono fun r' _ hb => ?_
      rw [hb.1]
      exact ih hb.2

theorem bmap_borrowed (hs : CountsKept s) (x : Nat) {block : Nat} (hblock : block < TOTAL_BLOCK)
    (h : Borrowed ks s t) : Returns (run (bmap x block false) t) fun r =>
      r.1 = (t.tab.inodeTable x).zone t.view block ∧ Borrowed ks s r.2 := by
  have hret : Returns (run (bmap x block false) t) fun r => Borrowed ks s r.2 := by
    unfold bmap inodeAt
    rw [returns_then, returns_assertion]
    refine ⟨by simpa using hblock, ?_⟩
    rw [returns_then, returns_reads, returns_then, returns_onCache]
    have hhold : Borrowed ((t.tab.inodeTable x).buf :: ks) s
        { t with cache := t.cache.addCount (t.tab.inodeTable x).buf 1 } := by
      refine ⟨h.same.trans (hold_same _ 1 _ _ _ (ends_iff.mpr rfl)), fun k => ?_⟩
      show ((t.cache.addCount _ 1).buf k).count = _
      rw [count_addCount, h.count k, List.count_cons]
      by_cases e : k = (t.tab.inodeTable x).buf
      · simp [e]
        omega
      · simp [e, Ne.symm e]
    split
    · exact bmapReckon_borrowed hs x 0 hhold
    · split
      · exact bmapReckon_borrowed hs x 1 hhold
      · rw [returns_then, returns_assertion]
        refine ⟨?_, bmapReckon_borrowed hs x 2 hhold⟩
        unfold TOTAL_BLOCK at hblock
        simp only [decide_eq_true_eq]
        omega
  exact hret.mono fun r hr hb => ⟨(bmap_zone (ends_iff.mpr hr)).2, hb⟩

/-- Every block of the directory has a zone. -/
def Mapped (s : Kernel) (dir : Nat) : Prop :=
  ∀ i < s.desc dir .size / 16, i / BLOCK_DENTRIES < TOTAL_BLOCK ∧
    (s.tab.inodeTable dir).zone s.view (i / BLOCK_DENTRIES) ≠ 0

theorem dentryAt_borrowed {i entry : Nat} {buf : Option Key} (hs : CountsKept s) (hm : Mapped s dir)
    (hi : i < s.desc dir .size / 16) (h : Borrowed (buf.toList ++ ks) s t)
    (hc : Cursor (s.tab.inodeTable dir) s.view i buf entry) :
    Returns (run (dentryAt dir false i buf entry) t) fun r =>
      r = ((s.tab.inodeTable dir).entry s.view i, r.2) ∧
        Borrowed (((s.tab.inodeTable dir).entry s.view i).1 :: ks) s r.2 := by
  have hret : Returns (run (dentryAt dir false i buf entry) t) fun r => Borrowed (r.1.1 :: ks) s r.2 := by
    unfold dentryAt inodeAt
    split
    · next k hk =>
        split at hk
        · subst hk
          exact returns_ok.mpr h
        · cases hk
    · rw [returns_then]
      refine (brelse?_borrowed hs h).mono fun r _ h₁ => ?_
      rw [returns_then]
      refine (bmap_borrowed hs dir (hm i hi).1 h₁).mono fun r₂ _ h₂ => ?_
      rw [returns_then, returns_assertion]
      refine ⟨?_, ?_⟩
      · rw [h₂.1, h₁.same.tab, h₁.same.views]
        simpa using (hm i hi).2
      · rw [returns_then, returns_reads, returns_then]
        refine (bread_borrowed h₂.2 _ _).mono fun r₃ _ h₃ => returns_ok.mpr ?_
        rw [h₃.1]
        exact h₃.2
  refine hret.mono fun r hr hb => ?_
  have hentry := (dentryAt_entry (by rw [h.same.tab, h.same.views]; exact hc) (ends_iff.mpr hr)).2
  rw [h.same.tab, h.same.views] at hentry
  rw [← hentry]
  exact ⟨rfl, hb⟩

/-- The loop returns, and holds the buffer of what it has found. -/
theorem findEntryLoop_borrowed {name : List UInt8} {n i entry : Nat} {buf : Option Key} (hs : CountsKept s)
    (hm : Mapped s dir) (hn : i + n = s.desc dir .size / 16) (h : Borrowed buf.toList s t)
    (hc : Cursor (s.tab.inodeTable dir) s.view i buf entry) :
    Returns (run (findEntryLoop dir name n i buf entry) t) fun r =>
      Borrowed (r.1.map (·.1)).toList s r.2 := by
  induction n generalizing i buf entry t with
  | zero =>
    unfold findEntryLoop
    rw [returns_then]
    exact (brelse?_borrowed hs (by simpa using h)).mono fun r _ h₁ => returns_ok.mpr h₁
  | succ n ih =>
    unfold findEntryLoop bytesOf
    rw [returns_then]
    have h' : Borrowed (buf.toList ++ []) s t := by rwa [List.append_nil]
    refine (dentryAt_borrowed hs hm (by omega) h' hc).mono fun r _ h₁ => ?_
    obtain ⟨⟨k, off⟩, u⟩ := r
    obtain ⟨he, hb⟩ := h₁
    obtain ⟨hk, -⟩ := Prod.mk.inj he
    rw [returns_then, returns_reads]
    have hnext : Cursor (s.tab.inodeTable dir) s.view (i + 1) (some k) (off + 16) :=
      ⟨i, rfl, by rw [← hk], by rw [← hk]⟩
    have hrest := ih (i := i + 1) (by omega) (by rw [← hk] at hb; exact hb) hnext
    split
    · split
      · exact returns_ok.mpr (by rw [← hk] at hb; exact hb)
      · exact hrest
    · exact hrest

/-- **`find_entry` returns**, with what it finds and its buffer. -/
theorem findEntry_borrowed {name : List UInt8} (hs : CountsKept s) (hm : Mapped s dir)
    (hdir : ISDIR (s.desc dir .mode) = true)
    (hno : ¬ ((matchName (ofString DOTDOT) 0 name).isSome ∧ (s.tab.inodeTable dir).nr = 1)) :
    Returns (run (findEntry dir name) s) fun r =>
      r.1 = (dir, (s.tab.inodeTable dir).find s.view name) ∧ Borrowed (r.1.2.map (·.1)).toList s r.2 := by
  have hret : Returns (run (findEntry dir name) s) fun r => Borrowed (r.1.2.map (·.1)).toList s r.2 := by
    unfold findEntry crossMount inodeAt
    rw [returns_then, returns_descGet, returns_then, returns_assertion]
    refine ⟨hdir, ?_⟩
    rw [returns_then, returns_then, returns_reads, if_neg hno, returns_result, returns_then, returns_descGet,
      returns_then]
    have hstart : Cursor (s.tab.inodeTable dir) s.view 0 none 0 := rfl
    have hnone : Borrowed (none : Option Key).toList s s := Borrowed.refl s
    exact (findEntryLoop_borrowed hs hm (Nat.zero_add _) hnone hstart).mono fun r _ h => returns_ok.mpr h
  refine hret.mono fun r hr hb => ?_
  have hends : Ends (findEntry dir name) s (r.1.1, r.1.2) r.2 := ends_iff.mpr hr
  obtain ⟨hd, hsame⟩ := findEntry_stays hno hends
  have hfind := findEntry_answer hends
  rw [hd, hsame.tab, hsame.views] at hfind
  exact ⟨Prod.ext hd hfind, hb⟩

end Borrowed

/-! ## 5. The claim of `find_entry` -/

/-- What `find_entry` is for: it answers the first live entry whose name is the component, inside a
    buffer that it holds, and the path after the component and one separator, or nothing if there is
    none; and it looks at no byte past a name. -/
structure Finds (s : Kernel) (dir : Nat) (name : List UInt8) (r : (Nat × Option (Key × Nat × List UInt8)) × Kernel) :
    Prop where
  answer : r.1 = (dir, (s.tab.inodeTable dir).findNamed s.view name)
  held : ∀ k off next, r.1.2 = some (k, off, next) → off + 16 ≤ BLOCK_SIZE ∧
    (r.2.cache.buf k).count = (s.cache.buf k).count + 1
  rest : ∀ k, (∀ off next, r.1.2 ≠ some (k, off, next)) → (r.2.cache.buf k).count = (s.cache.buf k).count
  inside : (s.tab.inodeTable dir).StaysInside s.view name

/-- **`find_entry` does what it is for if and only if the entries are regular** up to the first live
    one of that name. -/
theorem findEntry_named {s : Kernel} {dir : Nat} {name : List UInt8} (hs : CountsKept s) (hm : Mapped s dir)
    (hdir : ISDIR (s.desc dir .mode) = true) (hname : (0 : UInt8) ∉ name)
    (hno : ¬ ((matchName (ofString DOTDOT) 0 name).isSome ∧ (s.tab.inodeTable dir).nr = 1)) :
    Returns (run (findEntry dir name) s) (Finds s dir name) ↔
      (s.tab.inodeTable dir).AllRegular s.view name := by
  obtain ⟨r, hr, hans, hb⟩ := findEntry_borrowed hs hm hdir hno
  have hiff : Finds s dir name r ↔ (s.tab.inodeTable dir).find s.view name =
      (s.tab.inodeTable dir).findNamed s.view name ∧ (s.tab.inodeTable dir).StaysInside s.view name := by
    rw [hans] at hb
    constructor
    · intro h
      exact ⟨(Prod.mk.inj (hans.symm.trans h.answer)).2, h.inside⟩
    · rintro ⟨hfind, hin⟩
      refine ⟨by rw [hans, hfind], fun k off next he => ?_, fun k hk => ?_, hin⟩
      · rw [hans] at he
        have he : (s.tab.inodeTable dir).find s.view name = some (k, off, next) := he
        rw [he] at hb
        refine ⟨?_, by simpa using hb.count k⟩
        obtain ⟨i, -, hi⟩ := List.exists_of_findSome?_eq_some he
        have hplace : 16 * (i % BLOCK_DENTRIES) = off := (Prod.mk.inj (Inode.entryMatch_some hi)).2
        rw [← hplace]
        unfold BLOCK_DENTRIES BLOCK_SIZE
        omega
      · have hnone : ((s.tab.inodeTable dir).find s.view name).map (·.1) ≠ some k := by
          intro he
          obtain ⟨⟨k', off, next⟩, hf, hk'⟩ := Option.map_eq_some_iff.mp he
          have hk' : k' = k := hk'
          refine hk off next ?_
          rw [hans, ← hk']
          exact hf
        rw [hb.count k, List.count_eq_zero.mpr (by simpa using hnone)]
        exact Int.add_zero _
  rw [← Inode.find_named hname, ← hiff]
  constructor
  · rintro ⟨r', hr', h⟩
    cases hr.symm.trans hr'
    exact h
  · exact fun h => ⟨r, hr, h⟩

namespace Sample

/-- The name of a file: 14 times `n`. -/
def fullName : List UInt8 := List.replicate 14 110

/-- The volume with a file of that name, inode 258, and another one, `a`, behind it. -/
def kernelFull : Kernel :=
  { fresh with
    cache := { fresh.cache with
      disk := fun k =>
        if k = ⟨dev, 4⟩ then descriptor 0 (IFDIR + 0o755) 64 2 5 fun _ => 0
        else if k = ⟨dev, 5⟩ then
          dentry 48 257 [97] (copyIn (store (disk (fun _ _ => 0) k) 32 2 258) 34
            (fun j => fullName.getD j 0) 14)
        else disk (fun _ _ => 0) k } }

theorem kernelFull_counted : CountsKept kernelFull := by
  intro k
  show (0 : Int) ≤ if k = _ then 1 else 0
  split <;> decide

theorem kernelFull_mapped : Mapped kernelFull 0 := by
  have hsize : kernelFull.desc 0 .size / 16 = 4 := by decide
  have hzone : (kernelFull.tab.inodeTable 0).zone kernelFull.view 0 ≠ 0 := by decide
  intro i hi
  rw [hsize] at hi
  have h0 : i / BLOCK_DENTRIES = 0 := Nat.div_eq_of_lt (by unfold BLOCK_DENTRIES; omega)
  rw [h0]
  exact ⟨by decide, hzone⟩

/-- The other file is found. -/
theorem findEntry_named_full : Returns (run (findEntry 0 [97]) kernelFull) (Finds kernelFull 0 [97]) ↔
    (kernelFull.tab.inodeTable 0).AllRegular kernelFull.view [97] :=
  findEntry_named kernelFull_counted kernelFull_mapped (by decide) (by decide) (by decide)

/-- **The file with the full name is not found**: `match_name` goes on with the number of the entry
    behind it. -/
theorem fullName_missed : (∃ t, Ends (findEntry 0 fullName) kernelFull (0, none) t) ∧
    (kernelFull.tab.inodeTable 0).findNamed kernelFull.view fullName = some (⟨dev, 5⟩, 32, []) ∧
    ¬(kernelFull.tab.inodeTable 0).StaysInside kernelFull.view fullName := by
  refine ⟨?_, by decide, fun h => ?_⟩
  · have hrun : (run (findEntry 0 fullName) kernelFull).toOption.map (·.1) = some (0, none) := by
      decide
    cases hr : run (findEntry 0 fullName) kernelFull with
    | error e =>
      rw [hr] at hrun
      cases hrun
    | ok r =>
      rw [hr] at hrun
      refine ⟨r.2, ends_iff.mpr ?_⟩
      rw [hr, ← Option.some.inj hrun]
  · have hreach : NAME_LEN < (kernelFull.tab.inodeTable 0).entryReach kernelFull.view fullName 2 := by
      decide
    have hfirst : ∀ j < 2, (kernelFull.tab.inodeTable 0).entryMatch kernelFull.view fullName j = none := by
      decide
    have hle := h 2 (by decide) hfirst
    omega

end Sample

end Yuios
