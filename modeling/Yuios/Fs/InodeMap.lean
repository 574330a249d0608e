/-
  File:      Yuios/Fs/InodeMap.lean
  Subject:   `ialloc` AND `ifree` ON ANY VOLUME: which numbers they hand out and take back.

  Both give a block of the inode bitmap the length `BLOCK_BITS`, in bytes, where `balloc` and
  `bfree` give `BLOCK_SIZE`. A search therefore never leaves the first block: past its last byte it
  reads the memory behind the buffer.

  * `ialloc_cases` -- the three ways a call of `ialloc` goes;
  * `ifree_cases` -- the three ways a call of `ifree` goes;
  * **`ialloc_ifree`** -- the states and the numbers for which they do their work.
-/
import Yuios.Fs.ZoneMap

namespace Yuios

open Lib Prog Code

namespace SuperBlock

variable (sb : SuperBlock)

/-- Inode `nr`'s bit. -/
def inodeSet (w : View) (nr : Nat) : Bool := bitOf w sb.dev 2 nr

/-- Inode `nr`'s bit written. -/
def setInode (w : View) (nr : Nat) (b : Bool) : View := withBit w sb.dev 2 nr b

/-- `nr` is an inode of the volume, and its bit is in a block that is loaded. -/
structure Number (nr : Nat) : Prop where
  pos : 1 ≤ nr
  le : nr ≤ sb.inodes
  loaded : nr / BLOCK_BITS < sb.imapBlocks

/-- `nr` is the lowest inode number that is not allocated. -/
structure LowestInode (w : View) (nr : Nat) : Prop extends Number sb nr where
  clear : sb.inodeSet w nr = false
  below : ∀ m, sb.Number m → m < nr → sb.inodeSet w m = true

/-- Number 0, which no inode has, is marked, and some inode below the last has a clear bit in the
    first block. -/
structure FirstBlock (w : View) : Prop where
  zero : sb.inodeSet w 0 = true
  free : ∃ nr, sb.Number nr ∧ nr < sb.inodes ∧ nr < BLOCK_BITS ∧ sb.inodeSet w nr = false

variable {sb}

theorem imap_eq {j : Nat} (h : j < sb.imapBlocks) : sb.imap j = some ⟨sb.dev, 2 + j⟩ := if_pos h

theorem inodeSet_first {w : View} {nr : Nat} (h : nr < BLOCK_BITS) :
    sb.inodeSet w nr = getBit (w ⟨sb.dev, 2⟩) nr := by
  have := bitOf_block w sb.dev 2 0 h
  rwa [Nat.zero_mul, Nat.zero_add] at this

theorem Number.first {nr : Nat} (h : sb.Number nr) : 0 < sb.imapBlocks :=
  Nat.lt_of_le_of_lt (Nat.zero_le _) h.loaded

end SuperBlock

section Inodes

variable {s : Kernel} {dev : Int} {nr : Nat} {i : Nat}

/-- **The ways a call of `ialloc` goes**, by the first block of the inode bitmap. -/
theorem ialloc_cases (hi : s.tab.getSuper dev = some i)
    (hm : 0 < (s.tab.superTable i).imapBlocks) :
    (Full (s.view ⟨(s.tab.superTable i).dev, 2⟩) ∧ (ialloc dev).run s = .error .outOfBuffer) ∨
    ∃ p < BLOCK_BITS, Lowest (s.view ⟨(s.tab.superTable i).dev, 2⟩) p ∧
      if p < (s.tab.superTable i).inodes then
        ∃ t, (ialloc dev).run s = .ok (p, t) ∧ t.view = (s.tab.superTable i).setInode s.view p true
      else (ialloc dev).run s = .error .assertion := by
  set sb := s.tab.superTable i
  have hk : sb.imap 0 = some ⟨sb.dev, 2⟩ := SuperBlock.imap_eq hm
  rw [ialloc, run_then (run_superOf hi)]
  rcases full_or_lowest (s.view ⟨sb.dev, 2⟩) with hfull | ⟨p, hp, hlow⟩
  · exact .inl ⟨hfull, run_stopped (allocLoop_out hk hfull (by decide))⟩
  · refine .inr ⟨p, hp, hlow, ?_⟩
    have hloop : (allocLoop sb.imap BLOCK_BITS (· * BLOCK_BITS) sb.inodes IMAP_NR 0 none).run s = _ :=
      allocLoop_found hk hlow hp (by decide)
    rw [Nat.zero_mul, Nat.add_zero] at hloop
    by_cases h : p < sb.inodes
    · rw [if_pos h]
      rw [if_pos h] at hloop
      obtain ⟨t, ht, hs⟩ := bwrite_run (s.putBit ⟨sb.dev, 2⟩ p true) ⟨sb.dev, 2⟩
      refine ⟨t, ?_, hs.view.trans (view_putBit.trans ?_)⟩
      · rw [run_then hloop, run_then rfl, run_then (by rw [within, run_mapLabel]; exact ht), run_pure]
      · rw [SuperBlock.setInode, withBit, Nat.div_eq_of_lt hp, Nat.mod_eq_of_lt hp]
    · rw [if_neg h]
      rw [if_neg h] at hloop
      exact run_stopped hloop

/-- **The ways a call of `ifree` goes** for an inode that is allocated. -/
theorem ifree_cases (hi : s.tab.getSuper dev = some i)
    (hb : (s.tab.superTable i).imapBlocks ≤ IMAP_NR) (hn : (s.tab.superTable i).Number nr)
    (hset : (s.tab.superTable i).inodeSet s.view nr = true) :
    if nr = (s.tab.superTable i).inodes then (ifree dev nr).run s = .error .assertion
    else if nr % BLOCK_BITS = 0 then (ifree dev nr).run s = .error .outOfBuffer
    else ∃ t, (ifree dev nr).run s = .ok ((), t) ∧
      t.view = (s.tab.superTable i).setInode s.view nr false := by
  set sb := s.tab.superTable i
  have hpos := hn.pos
  have hload := hn.loaded
  have hdiv := Nat.div_add_mod' nr BLOCK_BITS
  have hmod := Nat.mod_lt nr (show BLOCK_BITS > 0 by decide)
  rw [ifree, run_then (run_superOf hi)]
  by_cases hlast : nr = sb.inodes
  · rw [if_pos hlast]
    exact run_stopped (by rw [run_assert, if_neg (by simp [hlast, sb])])
  · have hle := hn.le
    rw [if_neg hlast, run_then (by rw [run_assert, if_pos (decide_eq_true (show nr < sb.inodes by
      omega))])]
    obtain ⟨m, hm⟩ : ∃ m, IMAP_NR - (nr - 1) / BLOCK_BITS = m + 1 := by
      refine Nat.exists_eq_succ_of_ne_zero ?_
      unfold BLOCK_BITS BLOCK_SIZE at *
      omega
    have hpick : (freeLoop sb.imap BLOCK_BITS (· * BLOCK_BITS) nr IMAP_NR 0).run s =
        (freeLoop sb.imap BLOCK_BITS (· * BLOCK_BITS) nr (m + 1) ((nr - 1) / BLOCK_BITS)).run s := by
      rw [freeLoop_pick rfl (by omega), hm]
    have hpre : nr ≤ BLOCK_BITS * ((nr - 1) / BLOCK_BITS + 1) := by
      unfold BLOCK_BITS BLOCK_SIZE
      omega
    have hmap : sb.imap ((nr - 1) / BLOCK_BITS) = some ⟨sb.dev, 2 + (nr - 1) / BLOCK_BITS⟩ :=
      SuperBlock.imap_eq (Nat.lt_of_le_of_lt (Nat.div_le_div_right (Nat.sub_le nr 1)) hload)
    by_cases hz : nr % BLOCK_BITS = 0
    · -- the block before the one with the bit is picked
      rw [if_pos hz]
      refine run_stopped (hpick.trans (freeLoop_out hpre hmap ?_ ?_))
      · unfold BLOCK_BITS BLOCK_SIZE at *
        omega
      · unfold BLOCK_BITS BLOCK_SIZE at *
        omega
    · rw [if_neg hz]
      have hsame : (nr - 1) / BLOCK_BITS = nr / BLOCK_BITS := by
        unfold BLOCK_BITS BLOCK_SIZE at *
        omega
      rw [hsame] at hmap
      have hloop := hpick.trans (freeLoop_clears (p := nr % BLOCK_BITS) hpre (hsame ▸ hmap)
        (by rw [hsame]; omega) hmod (by decide) hset)
      obtain ⟨t, ht, hs⟩ := bwrite_run
        (s.putBit ⟨sb.dev, 2 + nr / BLOCK_BITS⟩ (nr % BLOCK_BITS) false) ⟨sb.dev, 2 + nr / BLOCK_BITS⟩
      refine ⟨t, ?_, hs.view.trans view_putBit⟩
      rw [run_then hloop, within, run_mapLabel]
      exact ht

/-- What `ialloc` is for: the lowest number that is not allocated, marked, or `EOF` when all are. -/
structure Hands (sb : SuperBlock) (dev : Int) (s : Kernel) : Prop where
  lowest : ∀ nr, sb.LowestInode s.view nr →
    ∃ t, (ialloc dev).run s = .ok (nr, t) ∧ t.view = sb.setInode s.view nr true
  none : (∀ nr, sb.Number nr → sb.inodeSet s.view nr = true) →
    ∃ t, (ialloc dev).run s = .ok (EOF, t) ∧ t.view = s.view

/-- What `ifree` is for. -/
def TakesBack (sb : SuperBlock) (dev : Int) (s : Kernel) (nr : Nat) : Prop :=
  ∃ t, (ifree dev nr).run s = .ok ((), t) ∧ t.view = sb.setInode s.view nr false

theorem hands_of_first (hi : s.tab.getSuper dev = some i)
    (h : (s.tab.superTable i).FirstBlock s.view) : Hands (s.tab.superTable i) dev s := by
  obtain ⟨nr, hn, hlt, hblock, hclear⟩ := h.free
  rw [SuperBlock.inodeSet_first hblock] at hclear
  have hzero := h.zero
  rw [SuperBlock.inodeSet_first (by decide)] at hzero
  rcases ialloc_cases hi hn.first with ⟨hfull, -⟩ | ⟨p, hp, hlow, hrun⟩
  · rw [hfull nr hblock] at hclear
    cases hclear
  · have hle : p ≤ nr := by
      by_contra hgt
      rw [hlow.below nr (Nat.lt_of_not_le hgt)] at hclear
      cases hclear
    have hpos : 1 ≤ p := by
      by_contra h0
      have h0 : p = 0 := by omega
      rw [← h0, hlow.clear] at hzero
      cases hzero
    rw [if_pos (by omega)] at hrun
    have hnum : (s.tab.superTable i).Number p := by
      refine ⟨hpos, by omega, ?_⟩
      rw [Nat.div_eq_of_lt hp]
      exact hn.first
    have hpclear : (s.tab.superTable i).inodeSet s.view p = false := by
      rw [SuperBlock.inodeSet_first hp]
      exact hlow.clear
    refine ⟨fun m hm => ?_, fun hall => ?_⟩
    · have hmp : m = p := by
        rcases Nat.lt_trichotomy m p with hlt' | e | hgt
        · have := hm.clear
          rw [SuperBlock.inodeSet_first (by omega), hlow.below m hlt'] at this
          cases this
        · exact e
        · rw [hm.below p hnum hgt] at hpclear
          cases hpclear
      rw [hmp]
      exact hrun
    · rw [hall p hnum] at hpclear
      cases hpclear

theorem first_of_hands (hi : s.tab.getSuper dev = some i) (h : Hands (s.tab.superTable i) dev s) :
    (s.tab.superTable i).FirstBlock s.view := by
  -- whatever the call should answer, it answers a bit of the first block
  have hans : ∃ r t, (ialloc dev).run s = .ok (r, t) ∧
      (r = EOF ∨ (s.tab.superTable i).LowestInode s.view r) := by
    by_cases hfree : ∃ nr, (s.tab.superTable i).Number nr ∧
        (s.tab.superTable i).inodeSet s.view nr = false
    · classical
      obtain ⟨hn, hc⟩ := Nat.find_spec hfree
      have hlow : (s.tab.superTable i).LowestInode s.view (Nat.find hfree) :=
        ⟨hn, hc, fun m hm' hlt => by simpa [hm'] using Nat.find_min hfree hlt⟩
      obtain ⟨t, ht, -⟩ := h.lowest _ hlow
      exact ⟨_, t, ht, .inr hlow⟩
    · obtain ⟨t, ht, -⟩ := h.none fun nr hn => by
        by_contra hc
        exact hfree ⟨nr, hn, by simpa using hc⟩
      exact ⟨_, t, ht, .inl rfl⟩
  obtain ⟨r, t, hr, hcase⟩ := hans
  have hm : 0 < (s.tab.superTable i).imapBlocks := by
    by_contra hn
    have hnull : (s.tab.superTable i).imap 0 = Option.none := if_neg hn
    have hstop : (ialloc dev).run s = .error .assertion := by
      rw [ialloc, run_then (run_superOf hi)]
      exact run_stopped (allocLoop_null hnull)
    rw [hstop] at hr
    cases hr
  rcases ialloc_cases hi hm with ⟨-, hstop⟩ | ⟨p, hp, hlow, hrun⟩
  · rw [hstop] at hr
    cases hr
  · by_cases hlt : p < (s.tab.superTable i).inodes
    · rw [if_pos hlt] at hrun
      obtain ⟨t', ht', -⟩ := hrun
      cases hr.symm.trans ht'
      rcases hcase with e | hlowest
      · rw [e] at hp
        exact absurd hp (by decide)
      · refine ⟨?_, r, hlowest.toNumber, hlt, hp, hlowest.clear⟩
        rw [SuperBlock.inodeSet_first (by decide)]
        exact hlow.below 0 hlowest.pos
    · rw [if_neg hlt, hr] at hrun
      cases hrun

end Inodes

/-- **`ialloc` and `ifree` do their work** exactly in these states and for these numbers. -/
theorem ialloc_ifree {s : Kernel} {dev : Int} {i : Nat} (hi : s.tab.getSuper dev = some i)
    (hb : (s.tab.superTable i).imapBlocks ≤ IMAP_NR) :
    (Hands (s.tab.superTable i) dev s ↔ (s.tab.superTable i).FirstBlock s.view) ∧
    ∀ nr, (s.tab.superTable i).Number nr → (s.tab.superTable i).inodeSet s.view nr = true →
      (TakesBack (s.tab.superTable i) dev s nr ↔
        nr < (s.tab.superTable i).inodes ∧ nr % BLOCK_BITS ≠ 0) := by
  refine ⟨⟨first_of_hands hi, hands_of_first hi⟩, fun nr hn hset => ?_⟩
  have hcases := ifree_cases hi hb hn hset
  have hle := hn.le
  by_cases hlast : nr = (s.tab.superTable i).inodes
  · rw [if_pos hlast] at hcases
    refine ⟨fun ⟨t, ht, _⟩ => ?_, fun h => absurd h.1 (by omega)⟩
    rw [hcases] at ht
    cases ht
  · rw [if_neg hlast] at hcases
    by_cases hz : nr % BLOCK_BITS = 0
    · rw [if_pos hz] at hcases
      refine ⟨fun ⟨t, ht, _⟩ => ?_, fun h => absurd hz h.2⟩
      rw [hcases] at ht
      cases ht
    · rw [if_neg hz] at hcases
      exact ⟨fun _ => ⟨by omega, hz⟩, fun _ => hcases⟩

theorem ialloc_ifree_fresh :
    (Hands Sample.superBlock Sample.dev Sample.fresh ↔
      Sample.superBlock.FirstBlock Sample.fresh.view) ∧
    ∀ nr, Sample.superBlock.Number nr → Sample.superBlock.inodeSet Sample.fresh.view nr = true →
      (TakesBack Sample.superBlock Sample.dev Sample.fresh nr ↔
        nr < Sample.superBlock.inodes ∧ nr % BLOCK_BITS ≠ 0) :=
  ialloc_ifree (s := Sample.fresh) (i := 0) rfl (by decide)

/-! ### The last inode -/

namespace Sample

/-- Only inode 31 of 31 is free. -/
def lastFree : Kernel :=
  { fresh with
    cache := { fresh.cache with
      disk := fun k => if k = ⟨dev, 2⟩ then store (fun _ => 255) 0 4 0x7fffffff else fun _ => 0 } }

theorem lastFree_lowest : superBlock.LowestInode lastFree.view 31 := by
  refine ⟨⟨by decide, by decide, by decide⟩, by decide, fun m _ hm => ?_⟩
  have hall : ∀ k < 31, superBlock.inodeSet lastFree.view k = true := by decide
  exact hall m hm

end Sample

/-- The last inode is never handed out: the call fails its assertion. -/
theorem ialloc_ifree_not_always : ¬ ∀ (s : Kernel) (dev : Int) (i : Nat),
    s.tab.getSuper dev = some i →
    (s.tab.superTable i).imapBlocks ≤ IMAP_NR →
    Hands (s.tab.superTable i) dev s ∧
    ∀ nr, (s.tab.superTable i).Number nr → (s.tab.superTable i).inodeSet s.view nr = true →
      TakesBack (s.tab.superTable i) dev s nr := by
  intro h
  have hdev : Sample.lastFree.tab.getSuper Sample.dev = some 0 := rfl
  obtain ⟨hh, -⟩ := h Sample.lastFree Sample.dev 0 hdev (by decide)
  obtain ⟨nr, hn, hlt, -, hclear⟩ := (first_of_hands hdev hh).free
  have hset : Sample.superBlock.inodeSet Sample.lastFree.view nr = true :=
    Sample.lastFree_lowest.below nr hn hlt
  exact absurd (hclear.symm.trans hset) (by decide)

end Yuios
