/-
  File:      Yuios/Fs/NameiRefs.lean
  Subject:   THE REFERENCES A LOOKUP LEAVES BEHIND: `named` and `namei` of `fs/namei.c`.

  * `Neutral s t r` -- between `s` and `t` no count has changed, but for the reference to the
    returned inode `r` and, when `r` was read from the device, the one to the buffer it lies in.
  * `named_holding`, `namei_holding` -- what a lookup holds at its end. Each round of `named` but
    the last one leaves the buffer of its entry behind.
  * **`lookup_neutral`** -- so a lookup is neutral exactly when `named` comes to no second round.
-/
import Yuios.Fs.Lookup
import Yuios.Fs.Sample

namespace Yuios

open Lib Prog Code

/-! ## 1. Neutral lookups -/

/-- The reference to a buffer that comes with the returned inode: it was not in memory before. -/
def loadedRef (s t : Kernel) (r : Option Nat) (k : Key) : Nat :=
  match r with
  | some x => if (s.tab.inodeTable x).dev = devEOF ∧ (t.tab.inodeTable x).buf = k then 1 else 0
  | none => 0

/-- **The counts are as before**, but for the references of the returned inode. -/
structure Neutral (s t : Kernel) (r : Option Nat) : Prop where
  inode : ∀ x, (t.tab.inodeTable x).count =
    (s.tab.inodeTable x).count + if r = some x then 1 else 0
  buffer : ∀ k, (t.cache.buf k).count = (s.cache.buf k).count + loadedRef s t r k

section Neutral

variable {s t : Kernel} {r : Option Nat} {leak : List Key}

theorem Holding.owns_same (h : Holding s r.toList leak t) {x : Nat} (hx : r ≠ some x ∨
    (s.tab.inodeTable x).Live) (k : Key) :
    (t.tab.inodeTable x).owns k = (s.tab.inodeTable x).owns k := by
  by_cases hl : (s.tab.inodeTable x).Live
  · rw [h.keep x hl]
    rfl
  · have hr : r ≠ some x := hx.resolve_right hl
    have hc : (t.tab.inodeTable x).count = 0 := by
      rw [h.count x, (h.start.free x hl).1]
      cases r <;> simp_all
    have ht : (t.tab.inodeTable x).dev = devEOF := by
      by_contra hn
      exact (h.booked.live x hn).1 hc
    have hs : (s.tab.inodeTable x).dev = devEOF := not_not.mp hl
    simp [Inode.owns, ht, hs]

/-- Between the two states only the returned inode has come to hold a buffer. -/
theorem Holding.owners (h : Holding s r.toList leak t) (k : Key) :
    t.tab.owners k = s.tab.owners k + loadedRef s t r k := by
  cases r with
  | none =>
    simp only [loadedRef, Nat.add_zero, Tables.owners]
    exact List.countP_congr fun y _ => by rw [h.owns_same (.inl (by simp)) k]
  | some x =>
    by_cases hl : (s.tab.inodeTable x).Live
    · have h0 : loadedRef s t (some x) k = 0 := by
        have hl : (s.tab.inodeTable x).dev ≠ devEOF := hl
        simp [loadedRef, hl]
      rw [h0, Nat.add_zero]
      refine List.countP_congr fun y _ => ?_
      by_cases e : y = x
      · rw [e, h.owns_same (.inr hl) k]
      · rw [h.owns_same (.inl (by simpa using Ne.symm e)) k]
    · have ht : (t.tab.inodeTable x).Live := h.live_of_mem (by simp)
      have hs : (s.tab.inodeTable x).dev = devEOF := not_not.mp hl
      have := countP_update (l := List.range INODE_NR) List.nodup_range
        (List.mem_range.mpr (h.booked.live x ht).2)
        (p := fun y => (s.tab.inodeTable y).owns k) (q := fun y => (t.tab.inodeTable y).owns k)
        fun y hy => h.owns_same (.inl (by simpa using Ne.symm hy)) k
      have ht : (t.tab.inodeTable x).dev ≠ devEOF := ht
      simpa [Tables.owners, loadedRef, Inode.owns, hs, ht, h.fresh x hl] using this

/-- A lookup is neutral when it has left no buffer behind. -/
theorem Holding.neutral_iff (h : Holding s r.toList leak t) : Neutral s t r ↔ leak = [] := by
  have hbal : ∀ k, (t.cache.buf k).count =
      (s.cache.buf k).count + loadedRef s t r k + leak.count k := by
    intro k
    have := h.balance k
    have := h.owners k
    omega
  constructor
  · intro hn
    refine List.eq_nil_iff_forall_not_mem.mpr fun k hk => ?_
    have := List.count_pos_iff.mpr hk
    have := hn.buffer k
    have := hbal k
    omega
  · intro hl
    refine ⟨fun x => ?_, fun k => ?_⟩
    · rw [h.count x]
      cases r <;> simp [List.count_cons]
    · rw [hbal k, hl]
      simp

end Neutral

/-! ## 2. What a lookup holds -/

section Walk

variable {s₀ s t : Kernel} {held : List Nat} {kept : List Key}

/-- A round of `named` gives the directory back and keeps the entry's buffer; the rounds after it
    may leave more buffers behind. -/
theorem holding_namedLoop (right : List UInt8) (fuel inode : Nat) (left : List UInt8) :
    Leads (Holding s₀ (inode :: held) kept) (namedLoop right fuel inode left) fun r s =>
      ∃ leak, Holding s₀ ((r.map (·.1)).toList ++ held) (leak ++ kept) s := by
  induction fuel generalizing inode left kept with
  | zero => exact triple_stop _
  | succ fuel ih =>
    refine triple_bind (holding_findEntry inode left) fun ⟨inode, r⟩ => ?_
    cases r with
    | none =>
      exact triple_bind (holding_iput inode) fun _ => triple_pure fun _ h => ⟨[], h⟩
    | some e =>
      obtain ⟨k, entry, next⟩ := e
      refine triple_bind (triple_reads _) fun ino => ?_
      by_cases hdev : ino.dev = devEOF
      · intro s r t ⟨hs, hino⟩
        exact absurd (hino ▸ hdev) (hs.live_of_mem List.mem_cons_self)
      refine triple_bind (triple_pre (holding_iput inode) fun _ h => h.1) fun _ =>
        triple_bind (keeps_of_eq (dentryNr_obeys k entry)) fun nr =>
          triple_bind (holding_iget hdev nr) fun inode =>
            triple_bind (keeps_of_eq (searchable_obeys inode)) fun ok => ?_
      refine triple_ite (fun _ => triple_ite (fun _ => ?_) fun _ => ?_) fun _ => ?_
      · exact triple_bind (holding_brelse k) fun _ => triple_pure fun _ h => ⟨[], h⟩
      · refine triple_post (ih inode next) fun r s ⟨leak, h⟩ => ⟨leak ++ [k], ?_⟩
        simpa using h
      · exact triple_bind (holding_brelse k) fun _ => triple_bind (holding_iput inode) fun _ =>
          triple_pure fun _ h => ⟨[], h⟩

/-- The first round of `named`: the loop goes on exactly when the first component is found, may be
    searched and is not the last one. -/
theorem firstRound_holding (hb : Booked s₀.tab) {right left : List UInt8} {fuel start : Nat}
    {r : Option (Nat × List UInt8)} (hT : s.tab = s₀.tab.took start) (hv : s.view = s₀.view)
    (hstart : (s₀.tab.inodeTable start).Live) (hs : Holding s₀ [start] [] s)
    (h : Ends (namedLoop right (fuel + 1) start left) s r t) :
    ∃ leak, Holding s₀ (r.map (·.1)).toList leak t ∧
      (leak = [] ↔ s₀.goesOn start left right = false) := by
  obtain ⟨⟨dir, e⟩, s₁, h₁, h⟩ := runs_bind.mp h
  have hs₁ := holding_findEntry start left _ _ _ hs h₁
  obtain ⟨hd, hf, hT₁, hv₁, hl⟩ := findEntry_find hb hT hstart h₁
  dsimp only at hd hf hT₁ hv₁ hl hs₁ h
  rw [Kernel.goesOn, ← hd, ← hv, ← hf]
  cases e with
  | none =>
    obtain ⟨_, s₂, h₂, rfl, rfl⟩ := runs_bind.mp h
    exact ⟨[], holding_iput dir _ _ _ hs₁ h₂, by simp⟩
  | some e =>
    obtain ⟨k, entry, next⟩ := e
    dsimp only at h ⊢
    obtain ⟨n, -, hn⟩ := Tables.took_inodeTable (T := s₀.tab) dir dir
    obtain ⟨ino, s₂, ⟨rfl, rfl⟩, h⟩ := runs_bind.mp h
    obtain ⟨_, s₂, h₂, h⟩ := runs_bind.mp h
    have hs₂ := holding_iput dir _ _ _ hs₁ h₂
    obtain ⟨hT₂, hv₂⟩ := iput_took hT₁ (hb.live dir hl).1 h₂
    obtain ⟨nr, s₃, h₃, h⟩ := runs_bind.mp h
    rw [runs_dentryNr] at h₃
    obtain ⟨rfl, rfl⟩ := h₃
    obtain ⟨inode, s₃, h₃, h⟩ := runs_bind.mp h
    dsimp only at h₃
    rw [hT₁, hn] at h₃
    have hs₃ := holding_iget hl _ _ _ _ hs₂ h₃
    obtain ⟨hv₃, htask, hrun, a, ha, hbuf, hdesc⟩ := iget_answer (hT₂ ▸ hb) h₃
    rw [hT₂, hv₂, hv₁] at ha
    obtain ⟨ok, s₄, h₄, h⟩ := runs_bind.mp h
    obtain ⟨rfl, hok⟩ := searchable_enters h₄
    have hok : ok = a.enters s.view (s₀.tab.task s₀.tab.running) := by
      rw [hok, hv₃, hv₂, hv₁, htask, hrun, hT₂, Inode.enters_congr hbuf hdesc]
    rw [ha]
    dsimp only
    rw [← hok]
    obtain ⟨hok', h⟩ | ⟨hok', h⟩ := runs_ite.mp h
    · obtain ⟨he, h⟩ | ⟨he, h⟩ := runs_ite.mp h
      · obtain ⟨_, s₅, h₅, rfl, rfl⟩ := runs_bind.mp h
        exact ⟨[], holding_brelse k _ _ _ hs₃ h₅, by simp [he]⟩
      · obtain ⟨leak, hs₅⟩ := holding_namedLoop right fuel inode next _ _ _ hs₃ h
        exact ⟨leak ++ [k], by simpa using hs₅, by simp [hok', he]⟩
    · obtain ⟨_, s₅, h₅, h⟩ := runs_bind.mp h
      obtain ⟨_, s₆, h₆, rfl, rfl⟩ := runs_bind.mp h
      have hs₅ := holding_brelse k _ _ _ hs₃ h₅
      exact ⟨[], holding_iput inode _ _ _ hs₅ h₆, by simp [hok']⟩

/-- A lookup of `named` leaves a buffer behind exactly when it passes. -/
theorem named_holding (hb : Booked s.tab) {pathname : List UInt8} {r : Option (Nat × List UInt8)}
    (h : Ends (named pathname) s r t) :
    ∃ leak, Holding s (r.map (·.1)).toList leak t ∧ (leak = [] ↔ s.passes pathname = false) := by
  obtain ⟨task, s₁, h₁, h⟩ := runs_bind.mp h
  rw [runs_runningTask] at h₁
  obtain ⟨rfl, rfl⟩ := h₁
  cases pathname with
  | nil =>
    obtain ⟨rfl, rfl⟩ := h
    exact ⟨[], holding_refl hb, by simp [Kernel.passes]⟩
  | cons c cs =>
    obtain ⟨_, s₁, h₁, h⟩ := runs_bind.mp h
    unfold Kernel.passes
    dsimp only
    have hstart : (s.tab.inodeTable (if isSeparator c then (s.tab.task s.tab.running).iroot else
        (s.tab.task s.tab.running).ipwd)).Live := by
      split
      · exact hb.task.2
      · exact hb.task.1
    generalize (if isSeparator c then (s.tab.task s.tab.running).iroot else
        (s.tab.task s.tab.running).ipwd) = start at *
    generalize (if isSeparator c then cs else c :: cs) = left at *
    have hs₁ := holding_count start _ _ _ ⟨holding_refl hb, hstart⟩ h₁
    have hT₁ : s₁.tab = s.tab.took start := by rw [runs_onInode h₁]; rfl
    have hv₁ : s₁.view = s.view := by rw [runs_onInode h₁]
    split at h
    · obtain ⟨rfl, rfl⟩ := h
      exact ⟨[], hs₁, by simp [afterLastSep]⟩
    · cases hsep : afterLastSep left with
      | none =>
        rw [hsep] at h
        obtain ⟨rfl, rfl⟩ := h
        exact ⟨[], hs₁, by simp⟩
      | some right =>
        rw [hsep] at h
        exact firstRound_holding hb hT₁ hv₁ hstart hs₁ h

/-- `namei` leaves behind what `named` does. -/
theorem namei_holding (hb : Booked s.tab) {pathname : List UInt8} {r : Option Nat}
    (h : Ends (namei pathname) s r t) :
    ∃ leak, Holding s r.toList leak t ∧ (leak = [] ↔ s.passes pathname = false) := by
  obtain ⟨d, s₁, h₁, h⟩ := runs_bind.mp h
  obtain ⟨leak, hs₁, hleak⟩ := named_holding hb h₁
  cases d with
  | none =>
    obtain ⟨rfl, rfl⟩ := h
    exact ⟨leak, hs₁, hleak⟩
  | some d =>
    obtain ⟨dir, next⟩ := d
    obtain ⟨-, rfl, rfl⟩ | ⟨-, h⟩ := runs_ite.mp h
    · exact ⟨leak, hs₁, hleak⟩
    · refine ⟨leak, ?_, hleak⟩
      obtain ⟨⟨dir, e⟩, s₂, h₂, h⟩ := runs_bind.mp h
      have hs₂ := holding_findEntry _ next _ _ _ hs₁ h₂
      cases e with
      | none =>
        obtain ⟨_, s₃, h₃, rfl, rfl⟩ := runs_bind.mp h
        exact holding_iput dir _ _ _ hs₂ h₃
      | some e =>
        obtain ⟨k, entry, next⟩ := e
        obtain ⟨ino, s₃, ⟨rfl, rfl⟩, h⟩ := runs_bind.mp h
        obtain ⟨nr, s₃, h₃, h⟩ := runs_bind.mp h
        rw [runs_dentryNr] at h₃
        obtain ⟨rfl, rfl⟩ := h₃
        obtain ⟨inode, s₃, h₃, h⟩ := runs_bind.mp h
        obtain ⟨_, s₄, h₄, h⟩ := runs_bind.mp h
        obtain ⟨_, s₅, h₅, rfl, rfl⟩ := runs_bind.mp h
        have hs₃ := holding_iget (hs₂.live_of_mem List.mem_cons_self) _ _ _ _ hs₂ h₃
        have hs₄ := holding_iput dir _ _ _ (hs₃.perm (.swap dir inode [])) h₄
        exact holding_brelse k _ _ _ hs₄ h₅

end Walk

/-! ## 3. When a lookup is neutral -/

/-- **A lookup is neutral exactly when it does not pass** through a first directory to a second
    one; in any case the tables stay in order. -/
theorem lookup_neutral {s : Kernel} (hb : Booked s.tab) (pathname : List UInt8) :
    (∀ r t, Ends (named pathname) s r t →
      Booked t.tab ∧ (Neutral s t (r.map (·.1)) ↔ s.passes pathname = false)) ∧
    ∀ r t, Ends (namei pathname) s r t →
      Booked t.tab ∧ (Neutral s t r ↔ s.passes pathname = false) := by
  refine ⟨fun r t h => ?_, fun r t h => ?_⟩
  · obtain ⟨leak, hs, hleak⟩ := named_holding hb h
    exact ⟨hs.booked, hs.neutral_iff.trans hleak⟩
  · obtain ⟨leak, hs, hleak⟩ := namei_holding hb h
    exact ⟨hs.booked, hs.neutral_iff.trans hleak⟩

namespace Sample

theorem booked : Booked fresh.tab := by
  have hdev : ∀ x, (inodeTable x).dev = if x = 0 then dev else devEOF := by
    intro x
    unfold inodeTable
    split <;> rfl
  have hlive : ∀ x, (inodeTable x).Live ↔ x = 0 := by
    intro x
    simp only [Inode.Live, hdev]
    split <;> simp [*, dev, devEOF]
  have hlist : ∀ i, (superTable i).inodeList = if i = 0 then [0] else [] := by
    intro i
    unfold superTable
    split <;> rfl
  have hroot : ∀ i, (superTable i).iroot = some 0 ∧ (superTable i).imount = some 0 := by
    intro i
    unfold superTable
    split <;> exact ⟨rfl, rfl⟩
  refine ⟨fun x hx => ?_, fun x hx => ?_, fun x => ?_, fun i x hx => ?_, fun i => ?_,
    fun i j x hi hj => ?_, fun i _ y hy => ?_, ?_⟩
  · have hx : x ≠ 0 := fun e => hx ((hlive x).mpr e)
    simp [fresh, kernel, inodeTable, hx]
  · obtain rfl := (hlive x).mp hx
    decide
  · show (inodeTable x).mount ≠ devEOF
    unfold inodeTable
    split <;> decide
  · have hx : x ∈ (superTable i).inodeList := hx
    obtain rfl : x = 0 := by
      rw [hlist] at hx
      split at hx
      · simpa using hx
      · cases hx
    exact ⟨(hlive 0).mpr rfl, rfl⟩
  · show (superTable i).inodeList.Nodup
    rw [hlist]
    split <;> simp
  · have hi : x ∈ (superTable i).inodeList := hi
    have hj : x ∈ (superTable j).inodeList := hj
    rw [hlist] at hi hj
    by_cases ei : i = 0
    · by_cases ej : j = 0
      · rw [ei, ej]
      · simp [ej] at hj
    · simp [ei] at hi
  · have hy : (superTable i).iroot = some y ∨ (superTable i).imount = some y := hy
    rw [(hroot i).1, (hroot i).2, or_self] at hy
    exact (hlive y).mpr (Option.some.inj hy).symm
  · exact ⟨(hlive 0).mpr rfl, (hlive 0).mpr rfl⟩

/-- `/../..`. -/
def upTwice : List UInt8 := [47, 46, 46, 47, 46, 46]

/-- `/../../..`. -/
def upThrice : List UInt8 := [47, 46, 46, 47, 46, 46, 47, 46, 46]

end Sample

/-- Up from the root twice, the lookup searches one directory on its way and is neutral. -/
theorem lookup_neutral_upTwice : Booked Sample.fresh.tab ∧ Sample.fresh.passes Sample.upTwice = false ∧
    ∃ r t, Ends (namei Sample.upTwice) Sample.fresh r t ∧ Neutral Sample.fresh t r := by
  have hp : Sample.fresh.passes Sample.upTwice = false := by decide
  obtain ⟨r, t, h, -⟩ := ends_of_run (p := namei Sample.upTwice) (s := Sample.fresh)
    (q := fun _ _ => true) (by decide +kernel)
  exact ⟨Sample.booked, hp, r, t, h, ((lookup_neutral Sample.booked _).2 r t h).2.mpr hp⟩

/-- Up from the root three times, the root directory's block stays in use. -/
theorem lookup_neutral_not_always : ¬ ∀ (s : Kernel) (pathname : List UInt8) (r : Option Nat)
    (t : Kernel), Booked s.tab → Ends (namei pathname) s r t → Neutral s t r := by
  intro h
  obtain ⟨r, t, hr, hq⟩ := ends_of_run (p := namei Sample.upThrice) (s := Sample.fresh)
    (q := fun r t => r == some 0 && (t.cache.buf ⟨Sample.dev, 5⟩).count == 1) (by decide +kernel)
  simp only [Bool.and_eq_true, beq_iff_eq] at hq
  obtain ⟨rfl, hc⟩ := hq
  have hk := (h Sample.fresh Sample.upThrice (some 0) t Sample.booked hr).buffer ⟨Sample.dev, 5⟩
  have hused : ¬ (Sample.fresh.tab.inodeTable 0).dev = devEOF := by decide
  have h0 : loadedRef Sample.fresh t (some 0) ⟨Sample.dev, 5⟩ = 0 := by simp [loadedRef, hused]
  rw [hc, h0] at hk
  exact absurd hk (by decide)

end Yuios
