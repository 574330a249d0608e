/-
  File:      Yuios/Kernel/Sleep.lean
  Subject:   SLEEPING: the `sleep_list` over long uptimes.

  `ticks` of a sleeper is its due time modulo 2^32. `list_insert_sort` compares it as an `int`,
  `task_wakeup` as a `u32`.

  * `now` and `due` are the history: the clock interrupts and the due times, counted exactly.
  * `Asleep` -- the invariant. All that sleep are due in the same 2^31 ticks.
  * `Meets` -- a `task_sleep` keeps to them, and to the 2^32 ticks of the time now.
  * **`sleep_punctual`** -- in every run of such steps.
  * `sleep_late` -- init and test sleep across 2^31 ticks.
-/
import Mathlib.Algebra.Group.Int.Defs
import Mathlib.Algebra.Group.Nat.Defs
import Yuios.Kernel.Sched

namespace Yuios.Sleep

open Kernel Sched

/-! ## 1. Runs -/

/-- The scheduler with the exact time and due times. -/
structure Timed where
  sched : State
  now : Nat
  due : Nat → Nat

/-- Nobody sleeps, after `j` clock interrupts. -/
def start (j : Nat) : Timed := ⟨{ taskInit with jiffies := BitVec.ofNat 32 j }, j, fun _ => 0⟩

/-- The due time of a `task_sleep(ms)` that is called now. -/
def Timed.dueTime (S : Timed) (ms : U32) : Nat := S.now + max 1 (ms.toNat / 10)

/-- A step, with the history. -/
def next (S : Timed) (a : Action) (s' : State) : Timed where
  sched := s'
  now := match a with
    | .tick => S.now + 1
    | _ => S.now
  due := match a with
    | .sleep ms => Function.update S.due S.sched.current (S.dueTime ms)
    | _ => S.due

/-- The states reached from any time on. -/
inductive Reached : Timed → Prop where
  | start (j : Nat) : Reached (start j)
  | step {S : Timed} (h : Reached S) (a : Action) {s' : State} (ha : Enabled S.sched a)
      (hs : act S.sched a = .ok s') : Reached (next S a s')

/-- **The list is ordered by due times, and `task_wakeup` makes ready those that are due**, and
    changes no other task. -/
def Punctual (S : Timed) : Prop :=
  (S.sched.lists .sleep).Pairwise (fun p q => S.due p ≤ S.due q) ∧
    ∃ s', taskWakeup S.sched = .ok s' ∧ ∀ p t, S.sched.table p = some t →
      s'.table p = some (if t.state = .sleeping ∧ S.due p ≤ S.now then t.wake else t)

/-- **A due time in the 2^32 ticks of the time now, and in the 2^31 ticks of the others'.** -/
def Meets (S : Timed) : Action → Prop
  | .sleep ms => S.dueTime ms / 2 ^ 32 = S.now / 2 ^ 32 ∧
      ∀ p ∈ S.sched.lists .sleep, S.due p / 2 ^ 31 = S.dueTime ms / 2 ^ 31
  | _ => True

/-- The states reached by steps that meet the condition. -/
inductive Kept : Timed → Prop where
  | start (j : Nat) : Kept (start j)
  | step {S : Timed} (h : Kept S) (a : Action) {s' : State} (ha : Enabled S.sched a)
      (hm : Meets S a) (hs : act S.sched a = .ok s') : Kept (next S a s')

/-! ## 2. The invariant -/

/-- What the list `ps` of sleepers is like. -/
structure Asleep (s : State) (now : Nat) (due : Nat → Nat) : Prop where
  jiffies : s.jiffies = BitVec.ofNat 32 now
  ticks : ∀ p ∈ s.lists .sleep, ∀ t, s.table p = some t → t.ticks = BitVec.ofNat 32 (due p)
  ahead : ∀ p ∈ s.lists .sleep, now ≤ due p ∧ due p / 2 ^ 32 = now / 2 ^ 32
  half : ∀ p ∈ s.lists .sleep, ∀ q ∈ s.lists .sleep, due p / 2 ^ 31 = due q / 2 ^ 31
  sorted : (s.lists .sleep).Pairwise (fun p q => due p ≤ due q)

structure Sound (S : Timed) : Prop where
  linked : Linked S.sched
  asleep : Asleep S.sched S.now S.due
  runs : ∃ t, S.sched.table S.sched.current = some t ∧ t.state = .running ∧ t.node = none

section Keys

variable {m n : Nat}

/-- In the same 2^31 ticks, the `int`s are ordered as the times. -/
theorem toInt_lt (h : m / 2 ^ 31 = n / 2 ^ 31) :
    (BitVec.ofNat 32 m).toInt < (BitVec.ofNat 32 n).toInt ↔ m < n := by
  rw [BitVec.toInt_eq_toNat_cond, BitVec.toInt_eq_toNat_cond]
  simp only [BitVec.toNat_ofNat]
  split <;> split <;> omega

/-- In the same 2^32 ticks, the `u32`s are. -/
theorem ofNat_lt (h : m / 2 ^ 32 = n / 2 ^ 32) : BitVec.ofNat 32 m < BitVec.ofNat 32 n ↔ m < n := by
  rw [BitVec.lt_def]
  simp only [BitVec.toNat_ofNat]
  omega

/-- **`list_insert_sort`** keeps an order that its keys have. -/
theorem pairwise_listInsertSort {key : Nat → Int} {due : Nat → Nat} {p : Nat} {ps : List Nat}
    (h : ps.Pairwise (fun p q => due p ≤ due q))
    (hkey : ∀ q ∈ ps, key p < key q ↔ due p < due q) :
    (listInsertSort key p ps).Pairwise (fun p q => due p ≤ due q) := by
  induction ps with
  | nil => exact List.pairwise_singleton _ _
  | cons q ps ih =>
    obtain ⟨hq, hps⟩ := List.pairwise_cons.mp h
    have hpq := hkey q List.mem_cons_self
    unfold listInsertSort
    split
    · next hlt =>
        have hle := Nat.le_of_lt (hpq.mp hlt)
        refine List.pairwise_cons.mpr ⟨fun x hx => ?_, h⟩
        rcases List.mem_cons.mp hx with rfl | hx
        · exact hle
        · exact Nat.le_trans hle (hq x hx)
    · next hge =>
        have hle := Nat.le_of_not_lt (mt hpq.mpr hge)
        refine List.pairwise_cons.mpr ⟨fun x hx => ?_, ih hps fun x hx =>
          hkey x (List.mem_cons_of_mem _ hx)⟩
        rcases (mem_listInsertSort ps).mp hx with rfl | hx
        · exact hle
        · exact hq x hx

end Keys

section Asleep

variable {s s' : State} {now : Nat} {due : Nat → Nat} {t : Task} {w rest : List Nat}

theorem Asleep.congr (h : Asleep s now due) (hl : s'.lists .sleep = s.lists .sleep)
    (hj : s'.jiffies = s.jiffies) (ht : ∀ p ∈ s.lists .sleep, ∀ t', s'.table p = some t' →
      ∃ t, s.table p = some t ∧ t'.ticks = t.ticks) : Asleep s' now due := by
  refine ⟨hj.trans h.jiffies, fun p hp t' ht' => ?_, fun p hp => h.ahead p (hl ▸ hp),
    fun p hp q hq => h.half p (hl ▸ hp) q (hl ▸ hq), hl ▸ h.sorted⟩
  obtain ⟨t, hpt, heq⟩ := ht p (hl ▸ hp) t' ht'
  exact heq.trans (h.ticks p (hl ▸ hp) t hpt)

/-- `schedule` gives a sleeper ticks only where it had none. -/
theorem Asleep.passes (h : Asleep s now due) (hsw : Switched s s')
    (hne : s.current ∈ s.lists .sleep → ∀ t, s.table s.current = some t → t.ticks ≠ 0) :
    Asleep s' now due := by
  refine h.congr (congrFun hsw.lists .sleep) hsw.jiffies fun p hp t' ht' => ?_
  obtain ⟨v, hv, rfl⟩ := hsw.slot ht'
  refine ⟨v, hv, ?_⟩
  by_cases e : p = s.current
  · rw [e] at hp hv
    unfold switched Task.leave
    simp only [if_pos e, if_neg (hne hp v hv)]
    split <;> rfl
  · unfold switched
    simp only [if_neg e]
    split <;> rfl

/-- **The loop of `task_wakeup` stops at the right place.** -/
theorem Asleep.wakes (h : Asleep s now due) (hw : Woken s s' w rest) :
    (∀ p ∈ w, due p ≤ now) ∧ ∀ p ∈ rest, now < due p := by
  have hcmp : ∀ p ∈ s.lists .sleep, ∀ t, s.table p = some t →
      (s.jiffies < t.ticks ↔ now < due p) := fun p hp t ht => by
    rw [h.jiffies, h.ticks p hp t ht]
    exact ofNat_lt (h.ahead p hp).2.symm
  refine ⟨fun p hp => ?_, ?_⟩
  · obtain ⟨t, ht, hover⟩ := hw.expired p hp
    exact Nat.le_of_not_lt (mt (hcmp p (hw.split ▸ List.mem_append_left _ hp) t ht).mpr hover)
  · have hsorted := h.sorted
    rw [hw.split] at hsorted
    cases rest with
    | nil => nofun
    | cons q qs =>
      obtain ⟨t, ht, hlt⟩ := hw.next q rfl
      have hq := (hcmp q (hw.split ▸ List.mem_append_right _ List.mem_cons_self) t ht).mp hlt
      intro p hp
      rcases List.mem_cons.mp hp with rfl | hp
      · exact hq
      · exact Nat.lt_of_lt_of_le hq
          ((List.pairwise_cons.mp (List.pairwise_append.mp hsorted).2.1).1 p hp)

/-- The clock goes on. -/
theorem Asleep.tick {s₁ : State} {t' : Task} (h : Asleep s now due) (hs : Linked s)
    (hw : Woken s s₁ w rest) (hch : Changed s₁ s' s.current t t') (hn : t.node = none)
    (hc : s.table s.current = some t) (hl : s'.lists = s₁.lists)
    (hj : s'.jiffies = s.jiffies + 1) : Asleep s' (now + 1) due := by
  obtain ⟨-, hlate⟩ := h.wakes hw
  have hlist : s'.lists .sleep = rest := (congrFun hl .sleep).trans hw.sleep
  have hmem : ∀ p ∈ rest, p ∈ s.lists .sleep := fun p hp => hw.split ▸ List.mem_append_right _ hp
  have hnodup := hs.nodup .sleep
  have hsorted := h.sorted
  rw [hw.split] at hnodup hsorted
  refine ⟨?_, fun p hp u hu => ?_, fun p hp => ?_, fun p hp q hq => ?_, ?_⟩
  · rw [hj, h.jiffies, BitVec.ofNat_add]
    rfl
  · rw [hlist] at hp
    have hne : p ≠ s.current := fun e => hs.unlisted hc hn .sleep (e ▸ hmem p hp)
    have hpw : p ∉ w := fun hm => (List.nodup_append.mp hnodup).2.2 p hm p hp rfl
    rw [hch.table, if_neg hne, hw.table, if_neg hpw] at hu
    exact h.ticks p (hmem p hp) u hu
  · have hp := hlist ▸ hp
    have hlt := hlate p hp
    obtain ⟨-, hblock⟩ := h.ahead p (hmem p hp)
    exact ⟨hlt, by omega⟩
  · exact h.half p (hmem p (hlist ▸ hp)) q (hmem q (hlist ▸ hq))
  · rw [hlist]
    exact (List.pairwise_append.mp hsorted).2.1

theorem sleepTicks_toNat (ms : U32) : (sleepTicks ms).toNat = max 1 (ms.toNat / 10) := by
  unfold sleepTicks
  have hdiv : (ms / 10).toNat = ms.toNat / 10 := BitVec.toNat_udiv
  split
  · next h =>
      have h' : 0 < (ms / 10).toNat := h
      rw [hdiv] at h' ⊢
      omega
  · next h =>
      have h' : ¬ 0 < (ms / 10).toNat := h
      rw [hdiv] at h'
      show 1 = _
      omega

/-- A task falls asleep. -/
theorem Asleep.sleep {ms : U32} {d : Nat} (h : Asleep s now due) (hs : Linked s)
    (hc : s.table s.current = some t) (hn : t.node = none)
    (hch : Changed s s' s.current t { t with
      ticks := s.jiffies + sleepTicks ms, state := .sleeping, node := some .sleep })
    (hl : s'.lists .sleep = listInsertSort (key (asleep s t ms)) s.current (s.lists .sleep))
    (hj : s'.jiffies = s.jiffies) (hd : d = now + max 1 (ms.toNat / 10))
    (hblock : d / 2 ^ 32 = now / 2 ^ 32) (hhalf : ∀ p ∈ s.lists .sleep, due p / 2 ^ 31 = d / 2 ^ 31) :
    Asleep s' now (Function.update due s.current d) ∧ s.jiffies + sleepTicks ms ≠ 0 := by
  have hfree := hs.unlisted hc hn .sleep
  have hkey : s.jiffies + sleepTicks ms = BitVec.ofNat 32 d := by
    refine BitVec.eq_of_toNat_eq ?_
    rw [BitVec.toNat_add, h.jiffies, sleepTicks_toNat, BitVec.toNat_ofNat, BitVec.toNat_ofNat, hd]
    omega
  have hne : ∀ p ∈ s.lists .sleep, p ≠ s.current := fun p hp e => hfree (e ▸ hp)
  have hdue : ∀ p ∈ s.lists .sleep, Function.update due s.current d p = due p := fun p hp =>
    Function.update_of_ne (hne p hp) _ _
  have hself : Function.update due s.current d s.current = d := Function.update_self ..
  have hmem : ∀ p, p ∈ s'.lists .sleep ↔ p = s.current ∨ p ∈ s.lists .sleep := fun p => by
    rw [hl, mem_listInsertSort]
  refine ⟨⟨hj.trans h.jiffies, fun p hp u hu => ?_, fun p hp => ?_, fun p hp q hq => ?_, ?_⟩, ?_⟩
  · rcases (hmem p).mp hp with rfl | hp
    · rw [hch.table, if_pos rfl] at hu
      cases hu
      rw [hself]
      exact hkey
    · rw [hch.table, if_neg (hne p hp)] at hu
      rw [hdue p hp]
      exact h.ticks p hp u hu
  · rcases (hmem p).mp hp with rfl | hp
    · rw [hself]
      exact ⟨by omega, hblock⟩
    · rw [hdue p hp]
      exact h.ahead p hp
  · rcases (hmem p).mp hp with rfl | hp <;> rcases (hmem q).mp hq with rfl | hq
    · rfl
    · rw [hself, hdue q hq, hhalf q hq]
    · rw [hself, hdue p hp, hhalf p hp]
    · rw [hdue p hp, hdue q hq]
      exact h.half p hp q hq
  · rw [hl]
    refine pairwise_listInsertSort (h.sorted.imp_of_mem fun hp hq hle => ?_) fun q hq => ?_
    · rwa [hdue _ hp, hdue _ hq]
    · obtain ⟨u, hu, -⟩ := (hs.linked .sleep q).mp hq
      have hkp : key (asleep s t ms) s.current = (BitVec.ofNat 32 d).toInt := by
        unfold key asleep
        rw [State.table_setTask, if_pos rfl, ← hkey]
      have hkq : key (asleep s t ms) q = (BitVec.ofNat 32 (due q)).toInt := by
        unfold key asleep
        rw [State.table_setTask, if_neg (hne q hq), hu, ← h.ticks q hq u hu]
      rw [hkp, hkq, hself, hdue q hq]
      exact toInt_lt (hhalf q hq).symm
  · rw [hkey]
    intro h0
    have h0' := congrArg BitVec.toNat h0
    rw [BitVec.toNat_ofNat] at h0'
    have : d % 2 ^ 32 = 0 := h0'
    omega

end Asleep

/-! ## 3. Runs -/

section Runs

variable {S : Timed} {s s' : State} {now : Nat} {due : Nat → Nat}

theorem Sound.punctual (h : Sound S) : Punctual S := by
  refine ⟨h.asleep.sorted, ?_⟩
  obtain ⟨s', w, rest, hrun, hw, -⟩ := taskWakeup_spec h.linked
  obtain ⟨hearly, hlate⟩ := h.asleep.wakes hw
  refine ⟨s', hrun, fun p t hp => ?_⟩
  have hsleep : t.state = .sleeping ↔ p ∈ w ++ rest := by
    rw [← hw.split, h.linked.linked .sleep p, ← h.linked.sleeping p t hp]
    exact ⟨fun hn => ⟨t, hp, hn⟩, fun ⟨u, hu, hn⟩ => Option.some.inj (hu.symm.trans hp) ▸ hn⟩
  rw [hw.table, hp]
  by_cases hm : p ∈ w
  · rw [if_pos hm, if_pos ⟨hsleep.mpr (List.mem_append_left _ hm), hearly p hm⟩]
    rfl
  · rw [if_neg hm, if_neg]
    rintro ⟨hsl, hle⟩
    have hr := (List.mem_append.mp (hsleep.mp hsl)).resolve_left hm
    exact absurd (hlate p hr) (Nat.not_lt.mpr hle)

theorem sound_start (j : Nat) : Sound (start j) := by
  obtain ⟨h1, h2, h3, h4, h5, h6, h7, h8⟩ := linked_init
  exact ⟨⟨h1, h2, h3, h4, h5, h6, h7, h8⟩, ⟨rfl, nofun, nofun, nofun, List.Pairwise.nil⟩, _, rfl, rfl, rfl⟩

theorem switch_sound (hL : Linked s) (h : Asleep s now due) (hs : schedule s = .ok s')
    (hne : s.current ∈ s.lists .sleep → ∀ t, s.table s.current = some t → t.ticks ≠ 0) :
    Sound ⟨s', now, due⟩ := by
  obtain ⟨s₁, hs₁, hsw⟩ := schedule_switched hL
  cases hs₁.symm.trans hs
  exact ⟨hsw.linked hL, h.passes hsw hne, hsw.runs hL⟩

theorem tick_sound (h : Sound S) (hs : clockHandler S.sched = .ok s') :
    Sound ⟨s', S.now + 1, S.due⟩ := by
  obtain ⟨t, hc, hr, hn⟩ := h.runs
  obtain ⟨s₁, s₂, w, rest, -, hw, -, hch, hl, hj, hl₂, hrun⟩ := clockHandler_spec h.linked hc hn
  have hasleep := h.asleep.tick h.linked hw hch hn hc hl hj
  have hcur : s₂.current = S.sched.current := hch.current.trans hw.current
  have hc₂ : s₂.table s₂.current = some (t.tick (S.sched.jiffies + 1)) := by
    rw [hch.table, if_pos hcur]
  rw [hrun] at hs
  split at hs
  · exact switch_sound hl₂ hasleep hs fun hm => absurd hm (hl₂.unlisted hc₂ hn .sleep)
  · cases hs
    exact ⟨hl₂, hasleep, _, hc₂, hr, hn⟩

theorem step_sound (h : Sound S) {a : Action} (ha : Enabled S.sched a) (hm : Meets S a)
    (hs : act S.sched a = .ok s') : Sound (next S a s') := by
  obtain ⟨t, hc, hr, hn⟩ := h.runs
  have hfree := h.linked.unlisted hc hn .sleep
  have hawake : ∀ p ∈ S.sched.lists .sleep, p ≠ S.sched.current := by
    rintro p hp rfl
    exact hfree hp
  cases a with
  | tick => exact tick_sound h hs
  | yield => exact switch_sound h.linked h.asleep hs fun hm => absurd hm hfree
  | sleep ms =>
    obtain ⟨s₁, hrun, hch, hl, hj, hl₁⟩ := taskSleep_spec h.linked hc hn ha ms
    obtain ⟨hblock, hhalf⟩ := hm
    obtain ⟨hasleep, hne⟩ := h.asleep.sleep h.linked hc hn hch (hl .sleep) hj rfl hblock hhalf
    refine switch_sound hl₁ hasleep (hrun.symm.trans hs) fun _ u hu => ?_
    rw [hch.table, if_pos hch.current] at hu
    cases hu
    exact hne
  | block l st =>
    obtain ⟨h0, hl, hst⟩ := ha
    obtain ⟨s₁, hrun, hch, hlists, hj, hl₁⟩ := taskBlock_spec h.linked hc hn h0 hl hst
    have hsl : s₁.lists .sleep = S.sched.lists .sleep := (hlists .sleep).trans (if_neg (Ne.symm hl))
    refine switch_sound hl₁ (h.asleep.congr hsl hj fun p hp u hu => ⟨u, ?_, rfl⟩)
      (hrun.symm.trans hs) fun hm => ?_
    · rw [hch.table, if_neg (hawake p hp)] at hu
      exact hu
    · rw [hsl, hch.current] at hm
      exact absurd hm hfree
  | unblock p =>
    obtain ⟨u, l, hu, hnode, hl⟩ := ha
    obtain ⟨s₁, hrun, hch, hlists, hj, hl₁⟩ := taskUnblock_spec h.linked hu hnode
    cases hrun.symm.trans hs
    have hp : p ∉ S.sched.lists .sleep := fun hm => by
      obtain ⟨v, hv, hsl⟩ := (h.linked.linked .sleep p).mp hm
      cases hu.symm.trans hv
      exact hl (Option.some.inj (hnode.symm.trans hsl))
    have hne : S.sched.current ≠ p := fun e => by
      rw [e, hu] at hc
      cases hc
      cases hnode.symm.trans hn
    refine ⟨hl₁, h.asleep.congr ((hlists .sleep).trans (if_neg (Ne.symm hl))) hj
      fun q hq v hv => ⟨v, ?_, rfl⟩, t, ?_, hr, hn⟩
    · have hv : s'.table q = some v := hv
      rw [hch.table, if_neg (by rintro rfl; exact hp hq)] at hv
      exact hv
    · show s'.table s'.current = _
      rw [hch.current, hch.table, if_neg hne, hc]
  | fork =>
    obtain ⟨n, -, hfreeSlot, hrun, hl₁⟩ | ⟨hpanic, -⟩ := taskFork_spec h.linked hc hn hr
    · cases hrun.symm.trans hs
      have hkeep : ∀ i v, S.sched.table i = some v → i ≠ n := fun i v hi e => by
        rw [e, hfreeSlot] at hi
        cases hi
      refine ⟨hl₁, h.asleep.congr rfl rfl fun q hq v hv => ⟨v, ?_, rfl⟩, t, ?_, hr, hn⟩
      · obtain ⟨u, hu, -⟩ := (h.linked.linked .sleep q).mp hq
        exact ((State.table_setTask ..).trans (if_neg (hkeep q u hu))).symm.trans hv
      · exact (State.table_setTask ..).trans ((if_neg (hkeep _ t hc)).trans hc)
    · cases hpanic.symm.trans hs

/-- **In every run whose sleeps meet the condition**, from any time on: the list is in order, nobody
    wakes early, and nobody whose time has come stays asleep. -/
theorem sleep_punctual (h : Kept S) : Punctual S := by
  have hsound : Sound S := by
    induction h with
    | start j => exact sound_start j
    | step _ a ha hm hs ih => exact step_sound ih ha hm hs
  exact hsound.punctual

/-- Init sleeps for 10 ms. -/
theorem sleep_punctual_init : ∃ S : Timed, S.sched.lists .sleep = [1] ∧ S.due 1 = 8 ∧ Punctual S := by
  have h := (Kept.start 7).step (.sleep 10) Nat.one_ne_zero ⟨rfl, nofun⟩ rfl
  exact ⟨_, rfl, rfl, sleep_punctual h⟩

theorem not_punctual {p : Nat} {t : Sched.Task} (hp : S.sched.table p = some t)
    (hst : t.state = .sleeping) (hdue : S.due p ≤ S.now) (hs : taskWakeup S.sched = .ok s')
    (hp' : s'.table p = some t) : ¬ Punctual S := by
  rintro ⟨-, s₁, hs₁, h⟩
  cases hs.symm.trans hs₁
  have hwake := h p t hp
  rw [if_pos ⟨hst, hdue⟩, hp'] at hwake
  have hstate : t.state = .ready := congrArg Sched.Task.state (Option.some.inj hwake)
  rw [hst] at hstate
  cases hstate

/-- **Init sleeps until 2^31 - 1 and then test until 2^31**: test comes first in the list, and at its
    time init is not woken. -/
theorem sleep_late : ∃ S : Timed, Reached S ∧ ¬ Punctual S := by
  have h₁ := (Reached.start (2 ^ 31 - 2)).step (.sleep 10) Nat.one_ne_zero rfl
  have h₂ := h₁.step (.sleep 20) (Nat.succ_ne_zero 1) rfl
  have h₃ := h₂.step .tick trivial rfl
  exact ⟨_, h₃, not_punctual (p := 1) rfl rfl (by decide) rfl rfl⟩

end Runs

end Yuios.Sleep
