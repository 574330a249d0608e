/-
  File:      Yuios/Disk/Elevator.lean
  Subject:   NO REQUEST IS LOST: what holds of the disks in every state that tasks asking for
             transfers reach.

  * `Chosen` -- which request comes next: the neighbour in the direction the disk has then, and the
    direction is turned at an end of the list only.
  * `Inv` -- the invariant. It names for every disk the one request that is being executed or whose
    task was made ready; every other request of the list has its task asleep.
  * `act_inv` -- what one action preserves; `requests_served` -- all runs.
-/
import Yuios.Disk.Model
import Mathlib.Data.List.Perm.Lattice

namespace Yuios.Disk

open Kernel

/-! ## 1. The list -/

section Lists

variable {req r : Request} {l a b : List Request}

theorem perm_listInsertSort (req : Request) (l : List Request) :
    (listInsertSort req l).Perm (req :: l) := by
  induction l with
  | nil => exact List.Perm.refl _
  | cons p l ih =>
    unfold listInsertSort
    split
    · exact List.Perm.refl _
    · exact (ih.cons p).trans (List.Perm.swap req p l)

theorem mem_listInsertSort : r ∈ listInsertSort req l ↔ r = req ∨ r ∈ l := by
  rw [(perm_listInsertSort req l).mem_iff, List.mem_cons]

/-- The list stays in order of its keys. -/
theorem sorted_listInsertSort (h : l.Pairwise fun p q => key p ≤ key q) :
    (listInsertSort req l).Pairwise fun p q => key p ≤ key q := by
  induction l with
  | nil => exact List.pairwise_singleton _ _
  | cons p l ih =>
    obtain ⟨hp, hl⟩ := List.pairwise_cons.mp h
    unfold listInsertSort
    split
    next hlt =>
      refine List.pairwise_cons.mpr ⟨fun q hq => ?_, h⟩
      rcases List.mem_cons.mp hq with rfl | hq
      · omega
      · have := hp q hq
        omega
    next hge =>
      refine List.pairwise_cons.mpr ⟨fun q hq => ?_, ih hl⟩
      rcases mem_listInsertSort.mp hq with rfl | hq
      · omega
      · exact hp q hq

theorem nodeNext_append (h : req ∉ b) : nodeNext req (b ++ req :: a) = a.head? := by
  induction b with
  | nil => simp [nodeNext]
  | cons p b ih =>
    rw [List.cons_append, nodeNext, if_neg (Ne.symm (List.ne_of_not_mem_cons h))]
    exact ih (List.not_mem_of_not_mem_cons h)

theorem nodePrev_append (h : req ∉ a) : nodePrev req (b ++ req :: a) = b.getLast? := by
  rw [nodePrev, List.reverse_append, List.reverse_cons, List.append_assoc, List.singleton_append,
    nodeNext_append (by rwa [List.mem_reverse]), List.head?_reverse]

end Lists

/-- **The elevator**: after `req`, which stands between `b` and `a` in the list, comes its neighbour
    in the direction the disk has then; the direction is turned if and only if `req` was at the end
    the disk was moving to. -/
structure Chosen (b : List Request) (a : List Request) (direct direct' : Direct)
    (next : Option Request) : Prop where
  turned : direct' ≠ direct ↔ direct = .up ∧ a = [] ∨ direct = .down ∧ b = []
  neighbour : next = match direct' with
    | .up => a.head?
    | .down => b.getLast?

theorem requestNextreq_chosen {device : Device} {req : Request} {b a : List Request}
    (hl : device.requestList = b ++ req :: a) (hb : req ∉ b) (ha : req ∉ a) :
    Chosen b a device.direct (requestNextreq device req).2 (requestNextreq device req).1 := by
  have hnext : nodeNext req device.requestList = a.head? := hl ▸ nodeNext_append hb
  have hprev : nodePrev req device.requestList = b.getLast? := hl ▸ nodePrev_append ha
  unfold requestNextreq
  rw [hnext, hprev]
  cases hd : device.direct with
  | up =>
    cases a with
    | nil => exact ⟨by simp, by simp⟩
    | cons p a => exact ⟨by simp, by simp⟩
  | down =>
    rcases List.eq_nil_or_concat b with rfl | ⟨b, p, rfl⟩
    · exact ⟨by simp, by simp⟩
    · rw [List.concat_eq_append, List.getLast?_append_of_ne_nil _ (by simp)]
      exact ⟨by simp, by simp⟩

/-- Nothing is chosen only when the list is empty now. -/
theorem Chosen.none_iff {b a : List Request} {direct direct' : Direct} {next : Option Request}
    (h : Chosen b a direct direct' next) : next = none ↔ b ++ a = [] := by
  obtain ⟨ht, hn⟩ := h
  rw [hn, List.append_eq_nil_iff]
  cases direct <;> cases direct' <;> simp at ht ⊢
  · exact fun e => absurd e ht
  · exact fun _ => ht
  · exact fun _ => ht
  · exact fun e => absurd e ht

theorem Chosen.mem {b a : List Request} {direct direct' : Direct} {next : Request}
    (h : Chosen b a direct direct' (some next)) : next ∈ b ++ a := by
  have hn := h.neighbour
  cases direct' with
  | up => exact List.mem_append_right b (List.mem_of_mem_head? hn.symm)
  | down => exact List.mem_append_left a (List.mem_of_getLast? hn.symm)

/-! ## 2. What is to hold -/

/-- The request is being executed, or its task may run. -/
def Served (s : State) (r : Request) : Prop :=
  ∃ t, s.pc t = .driving r ∨ s.pc t = .blocked r ∧ s.sched.ready t = true

/-- **Disk `d` is in order**: at most one request of it is inside `do_request`; the list is sorted;
    the list holds the requests of the calls under way; and while it is not empty exactly one of
    them is being executed or belongs to a task that was made ready. -/
structure Sound (s : State) (d : Nat) : Prop where
  one : ∀ t u r r', s.pc t = .driving r → s.pc u = .driving r' → r.dev = d → r'.dev = d → t = u
  sorted : (∀ r ∈ s.queue d, r.idx < 2 ^ 31) →
    (s.queue d).Pairwise fun p q => p.idx ≤ q.idx
  underWay : ∀ r, r ∈ s.queue d ↔ r.dev = d ∧ ∃ t, (s.pc t).req = some r
  served : s.queue d ≠ [] → ∃! r, r ∈ s.queue d ∧ Served s r

/-- **Every request is performed once**: when its call returns, and not while it is under way. -/
structure Once (s : State) : Prop where
  nodup : (s.performed.map Request.serial).Nodup
  returned : s.returned = s.performed.map Request.serial
  pending : ∀ t r, (s.pc t).req = some r → r.serial ∉ s.performed.map Request.serial
  all : ∀ n < s.calls, n ∈ s.returned ∨ ∃ t r, (s.pc t).req = some r ∧ r.serial = n

/-- The lists hold the requests of the calls under way, each of its own task, in order. -/
structure Listed (s : State) : Prop where
  queued : ∀ d r, r ∈ s.queue d → r.dev = d ∧ ∃ t, (s.pc t).req = some r
  inQueue : ∀ t r, (s.pc t).req = some r → r ∈ s.queue r.dev
  called : ∀ t r, (s.pc t).req = some r → r.serial < s.calls
  past : ∀ n ∈ s.performed.map Request.serial, n < s.calls
  own : ∀ t u r r', (s.pc t).req = some r → (s.pc u).req = some r' → r.serial = r'.serial → t = u
  keys : ∀ d, (s.queue d).Pairwise fun p q => key p ≤ key q
  each : ∀ d, (s.queue d).Nodup
  task : ∀ t r, s.pc t = .blocked r → r.task = some t
  installed : ∀ t r, (s.pc t).req = some r → r.dev < DEVICE_NR ∧ (s.devices r.dev).type ≠ .null

/-- **The invariant**, with the request of every disk that is executed or whose task is ready. -/
structure Inv (s : State) (A : Nat → Option Request) : Prop extends Once s, Listed s where
  fair : s.sched.Fair
  active : ∀ d r, A d = some r → r ∈ s.queue d
  chosen : ∀ d, s.queue d ≠ [] → A d ≠ none
  driving : ∀ t r, s.pc t = .driving r → A r.dev = some r
  awake : ∀ t r, s.pc t = .blocked r → t ∉ s.sched.blockList → A r.dev = some r
  asleep : ∀ t ∈ s.sched.blockList, ∃ r, s.pc t = .blocked r ∧ A r.dev ≠ some r

variable {s : State} {A : Nat → Option Request} {t : Nat} {req : Request}

theorem inv_init (type : Nat → DevType) (parent start : Nat → Nat) :
    Inv (init type parent start) fun _ => none where
  nodup := List.nodup_nil
  returned := rfl
  pending := nofun
  all := nofun
  fair := Scheduler.fair_init
  queued := nofun
  inQueue := nofun
  called := nofun
  past := nofun
  own := nofun
  keys := fun _ => List.Pairwise.nil
  each := fun _ => List.nodup_nil
  task := nofun
  installed := nofun
  active := nofun
  chosen := fun _ h => absurd rfl h
  driving := nofun
  awake := nofun
  asleep := nofun

/-- A call is in one task. -/
theorem Listed.same (h : Listed s) {u : Nat} {r : Request} (ht : (s.pc t).req = some r)
    (hu : (s.pc u).req = some r) : t = u := h.own t u r r ht hu rfl

/-- A key below `2 ^ 31` is the index. -/
theorem key_eq {r : Request} (h : r.idx < 2 ^ 31) : key r = r.idx := by
  unfold key
  rw [BitVec.toInt_eq_toNat_of_lt] <;> simp [BitVec.toNat_ofNat] <;> omega

theorem Inv.sound (h : Inv s A) (d : Nat) : Sound s d where
  one := fun t u r r' ht hu hd hd' => by
    have e : some r = some r' := by
      rw [← h.driving t r ht, ← h.driving u r' hu, hd, hd']
    exact h.same (r := r) (by rw [ht]; rfl) (by rw [hu, ← Option.some.inj e]; rfl)
  sorted := fun hidx => (h.keys d).imp_of_mem fun hp hq hle => by
    rw [key_eq (hidx _ hp), key_eq (hidx _ hq)] at hle
    exact Int.ofNat_le.mp hle
  underWay := fun r => ⟨h.queued d r, fun ⟨hd, t, ht⟩ => hd ▸ h.inQueue t r ht⟩
  served := fun hne => by
    obtain ⟨a, ha⟩ := Option.ne_none_iff_exists'.mp (h.chosen d hne)
    obtain ⟨hd, t, ht⟩ := h.queued d a (h.active d a ha)
    refine ⟨a, ⟨h.active d a ha, t, ?_⟩, fun r ⟨hr, u, hu⟩ => ?_⟩
    · cases hpc : s.pc t with
      | out =>
        rw [hpc] at ht
        cases ht
      | driving r =>
        rw [hpc] at ht
        exact .inl (congrArg Pc.driving (Option.some.inj ht))
      | blocked r =>
        rw [hpc] at ht
        obtain rfl : r = a := Option.some.inj ht
        refine .inr ⟨rfl, (h.fair.ready t).mpr fun hm => ?_⟩
        obtain ⟨r', hr', hno⟩ := h.asleep t hm
        obtain rfl : r = r' := Pc.blocked.inj (hpc.symm.trans hr')
        exact hno (hd.symm ▸ ha)
    · have hrd := (h.queued d r hr).1
      have hAr : A r.dev = some r := by
        rcases hu with hu | ⟨hu, hready⟩
        · exact h.driving u r hu
        · exact h.awake u r hu ((h.fair.ready u).mp hready)
      rw [hrd, ha] at hAr
      exact (Option.some.inj hAr).symm

/-! ## 3. A call begins -/

/-- What a call of task `t` for disk `d` changes: the request is in the list, and the task is in the
    driver when the list was empty, and asleep otherwise. -/
structure Entered (s s' : State) (t d : Nat) (r : Request) : Prop where
  serial : r.serial = s.calls
  dev : r.dev = d
  installed : d < DEVICE_NR ∧ (s.devices d).type ≠ .null
  types : ∀ e, (s'.devices e).type = (s.devices e).type
  calls : s'.calls = s.calls + 1
  queue : s'.queue d = listInsertSort r (s.queue d)
  others : ∀ e, e ≠ d → s'.queue e = s.queue e
  direct : ∀ e, s'.direct e = s.direct e
  history : s'.performed = s.performed ∧ s'.returned = s.returned
  pcs : ∀ u, u ≠ t → s'.pc u = s.pc u
  start : (s.queue d = [] ∧ s'.pc t = .driving r ∧ s'.sched = s.sched) ∨
    (s.queue d ≠ [] ∧ s'.pc t = .blocked r ∧ r.task = some t ∧ s'.sched.Fair ∧
      s'.sched.blockList = t :: s.sched.blockList)

theorem Inv.awake_of_out (h : Inv s A) (ht : s.pc t = .out) : t ∉ s.sched.blockList := fun hm => by
  obtain ⟨r, hr, -⟩ := h.asleep t hm
  rw [ht] at hr
  cases hr

section Entered

variable {s' : State} {d : Nat} {r : Request} (ht : s.pc t = .out) (he : Entered s s' t d r)

include he

theorem Entered.mine : (s'.pc t).req = some r := by
  rcases he.start with ⟨-, hp, -⟩ | ⟨-, hp, -⟩ <;> rw [hp] <;> rfl

theorem Entered.mem (q : Request) : q ∈ s'.queue d ↔ q = r ∨ q ∈ s.queue d := by
  rw [he.queue, mem_listInsertSort]

theorem Entered.cases {u : Nat} {q : Request} (hu : (s'.pc u).req = some q) :
    u = t ∧ q = r ∨ (s.pc u).req = some q := by
  by_cases e : u = t
  · rw [e, he.mine] at hu
    exact .inl ⟨e, (Option.some.inj hu).symm⟩
  · rw [he.pcs u e] at hu
    exact .inr hu

theorem Entered.new (h : Listed s) {u : Nat} {q : Request} (hu : (s.pc u).req = some q) :
    q.serial ≠ r.serial := fun e => by
  have := h.called u q hu
  rw [e, he.serial] at this
  exact Nat.lt_irrefl _ this

theorem Entered.not_queued (h : Listed s) : r ∉ s.queue d := fun hr => by
  obtain ⟨-, u, hu⟩ := h.queued d r hr
  exact he.new h hu rfl

include ht

theorem Entered.keeps {u : Nat} {q : Request} (hu : (s.pc u).req = some q) :
    (s'.pc u).req = some q := by
  rwa [he.pcs u fun e => by rw [e, ht] at hu; cases hu]

theorem Entered.once (h : Once s) (hl : Listed s) : Once s' where
  nodup := he.history.1.symm ▸ h.nodup
  returned := by
    rw [he.history.1, he.history.2]
    exact h.returned
  pending := fun u q hu => by
    rw [he.history.1]
    rcases he.cases hu with ⟨-, rfl⟩ | hu
    · exact fun hm => Nat.lt_irrefl _ (he.serial ▸ hl.past _ hm)
    · exact h.pending u q hu
  all := fun n hn => by
    rw [he.calls] at hn
    rw [he.history.2]
    rcases Nat.lt_succ_iff_lt_or_eq.mp hn with hn | rfl
    · exact (h.all n hn).imp_right fun ⟨u, q, hu, hq⟩ => ⟨u, q, he.keeps ht hu, hq⟩
    · exact .inr ⟨t, r, he.mine, he.serial⟩

theorem Entered.listed (h : Listed s) : Listed s' where
  queued := fun e q hq => by
    by_cases hd : e = d
    · subst hd
      rcases (he.mem q).mp hq with rfl | hq
      · exact ⟨he.dev, t, he.mine⟩
      · obtain ⟨hqd, u, hu⟩ := h.queued e q hq
        exact ⟨hqd, u, he.keeps ht hu⟩
    · rw [he.others e hd] at hq
      obtain ⟨hqd, u, hu⟩ := h.queued e q hq
      exact ⟨hqd, u, he.keeps ht hu⟩
  inQueue := fun u q hu => by
    rcases he.cases hu with ⟨-, rfl⟩ | hu
    · rw [he.dev]
      exact (he.mem q).mpr (.inl rfl)
    · by_cases hd : q.dev = d
      · rw [hd]
        exact (he.mem q).mpr (.inr (hd ▸ h.inQueue u q hu))
      · rw [he.others _ hd]
        exact h.inQueue u q hu
  called := fun u q hu => by
    rw [he.calls]
    rcases he.cases hu with ⟨-, rfl⟩ | hu
    · rw [he.serial]
      exact Nat.lt_succ_self _
    · exact Nat.lt_succ_of_lt (h.called u q hu)
  past := fun n hn => by
    rw [he.history.1] at hn
    rw [he.calls]
    exact Nat.lt_succ_of_lt (h.past n hn)
  own := fun u v q q' hu hv hs => by
    rcases he.cases hu with ⟨rfl, rfl⟩ | hu <;> rcases he.cases hv with ⟨rfl, rfl⟩ | hv
    · rfl
    · exact absurd hs.symm (he.new h hv)
    · exact absurd hs (he.new h hu)
    · exact h.own u v q q' hu hv hs
  keys := fun e => by
    by_cases hd : e = d
    · rw [hd, he.queue]
      exact sorted_listInsertSort (h.keys d)
    · rw [he.others e hd]
      exact h.keys e
  each := fun e => by
    by_cases hd : e = d
    · rw [hd, he.queue, (perm_listInsertSort r _).nodup_iff]
      exact List.nodup_cons.mpr ⟨he.not_queued h, h.each d⟩
    · rw [he.others e hd]
      exact h.each e
  task := fun u q hu => by
    by_cases e : u = t
    · subst e
      rcases he.start with ⟨-, hp, -⟩ | ⟨-, hp, htask, -⟩
      · rw [hp] at hu
        cases hu
      · rw [hp] at hu
        cases hu
        exact htask
    · rw [he.pcs u e] at hu
      exact h.task u q hu
  installed := fun u q hu => by
    rw [he.types]
    rcases he.cases hu with ⟨-, rfl⟩ | hu
    · exact he.dev.symm ▸ he.installed
    · exact h.installed u q hu

/-- The list was empty: the new request is executed. -/
theorem Inv.entered_empty (h : Inv s A) (h0 : s.queue d = []) (hp : s'.pc t = .driving r)
    (hS : s'.sched = s.sched) : Inv s' (Function.update A d (some r)) := by
  have hother : ∀ q u, (s.pc u).req = some q → q.dev ≠ d := fun q u hu e => by
    have hin := h.inQueue u q hu
    rw [e, h0] at hin
    cases hin
  refine { he.once ht h.toOnce h.toListed, he.listed ht h.toListed with
    fair := hS ▸ h.fair, active := ?_, chosen := ?_, driving := ?_, awake := ?_, asleep := ?_ }
  · intro e q hq
    by_cases hd : e = d
    · rw [hd, Function.update_self] at hq
      rw [hd]
      exact (he.mem q).mpr (.inl (Option.some.inj hq).symm)
    · rw [Function.update_of_ne hd] at hq
      rw [he.others e hd]
      exact h.active e q hq
  · intro e hne
    by_cases hd : e = d
    · simp [hd]
    · rw [he.others e hd] at hne
      rw [Function.update_of_ne hd]
      exact h.chosen e hne
  · intro u q hu
    by_cases e : u = t
    · rw [e, hp] at hu
      rw [← Pc.driving.inj hu, he.dev, Function.update_self]
    · rw [he.pcs u e] at hu
      rw [Function.update_of_ne (hother q u (by rw [hu]; rfl))]
      exact h.driving u q hu
  · intro u q hu hm
    by_cases e : u = t
    · rw [e, hp] at hu
      cases hu
    · rw [he.pcs u e] at hu
      rw [Function.update_of_ne (hother q u (by rw [hu]; rfl))]
      exact h.awake u q hu (hS ▸ hm)
  · intro u hu
    rw [hS] at hu
    obtain ⟨q, hq, hno⟩ := h.asleep u hu
    refine ⟨q, ?_, ?_⟩
    · rw [he.pcs u fun e => h.awake_of_out ht (e ▸ hu), hq]
    · rwa [Function.update_of_ne (hother q u (by rw [hq]; rfl))]

/-- The list was not empty: the task sleeps. -/
theorem Inv.entered_waiting (h : Inv s A) (h0 : s.queue d ≠ []) (hp : s'.pc t = .blocked r)
    (hfair : s'.sched.Fair) (hlist : s'.sched.blockList = t :: s.sched.blockList) : Inv s' A := by
  refine { he.once ht h.toOnce h.toListed, he.listed ht h.toListed with
    fair := hfair, active := ?_, chosen := ?_, driving := ?_, awake := ?_, asleep := ?_ }
  · intro e q hq
    by_cases hd : e = d
    · subst hd
      exact (he.mem q).mpr (.inr (h.active e q hq))
    · rw [he.others e hd]
      exact h.active e q hq
  · intro e hne
    by_cases hd : e = d
    · exact hd ▸ h.chosen d h0
    · rw [he.others e hd] at hne
      exact h.chosen e hne
  · intro u q hu
    by_cases e : u = t
    · rw [e, hp] at hu
      cases hu
    · rw [he.pcs u e] at hu
      exact h.driving u q hu
  · intro u q hu hm
    rw [hlist] at hm
    obtain ⟨hut, hm⟩ := not_or.mp (List.mem_cons.not.mp hm)
    rw [he.pcs u hut] at hu
    exact h.awake u q hu hm
  · intro u hu
    rw [hlist] at hu
    rcases List.mem_cons.mp hu with rfl | hu
    · exact ⟨r, hp, fun hr => he.not_queued h.toListed (h.active d r (he.dev ▸ hr))⟩
    · obtain ⟨q, hq, hno⟩ := h.asleep u hu
      refine ⟨q, ?_, hno⟩
      rw [he.pcs u fun e => h.awake_of_out ht (e ▸ hu), hq]

theorem Inv.entered (h : Inv s A) : ∃ A', Inv s' A' := by
  rcases he.start with ⟨h0, hp, hS⟩ | ⟨h0, hp, -, hfair, hlist⟩
  · exact ⟨_, h.entered_empty ht he h0 hp hS⟩
  · exact ⟨_, h.entered_waiting ht he h0 hp hfair hlist⟩

end Entered

/-! ## 4. A woken task goes on -/

/-- Into the driver: no request changes hands. -/
theorem Inv.drive (h : Inv s A) (ht : s.pc t = .blocked req) (hm : t ∉ s.sched.blockList) :
    Inv (s.setPc t (.driving req)) A := by
  have hreq : ∀ u, ((s.setPc t (.driving req)).pc u).req = (s.pc u).req := fun u => by
    by_cases e : u = t
    · rw [e, State.setPc_self, ht]
      rfl
    · rw [State.setPc_of_ne _ e]
  have hpc : ∀ u q, (s.setPc t (.driving req)).pc u = .blocked q → s.pc u = .blocked q := by
    intro u q hu
    by_cases e : u = t
    · rw [e, State.setPc_self] at hu
      cases hu
    · rwa [State.setPc_of_ne _ e] at hu
  refine { h with
    pending := fun u q hu => h.pending u q (hreq u ▸ hu), all := fun n hn => ?_
    queued := fun d q hq => ?_, inQueue := fun u q hu => h.inQueue u q (hreq u ▸ hu)
    called := fun u q hu => h.called u q (hreq u ▸ hu)
    own := fun u v q q' hu hv => h.own u v q q' (hreq u ▸ hu) (hreq v ▸ hv)
    task := fun u q hu => h.task u q (hpc u q hu)
    installed := fun u q hu => h.installed u q (hreq u ▸ hu), driving := fun u q hu => ?_
    awake := fun u q hu => h.awake u q (hpc u q hu), asleep := fun u hu => ?_ }
  · exact (h.all n hn).imp_right fun ⟨u, q, hu, hq⟩ => ⟨u, q, (hreq u).trans hu, hq⟩
  · obtain ⟨hd, u, hu⟩ := h.queued d q hq
    exact ⟨hd, u, (hreq u).trans hu⟩
  · by_cases e : u = t
    · rw [e, State.setPc_self] at hu
      cases hu
      exact h.awake t req ht hm
    · rw [State.setPc_of_ne _ e] at hu
      exact h.driving u q hu
  · obtain ⟨q, hq, hno⟩ := h.asleep u hu
    refine ⟨q, ?_, hno⟩
    rw [State.setPc_of_ne _ (ne_of_mem_of_not_mem hu hm), hq]

/-! ## 5. A transfer is complete -/

/-- What the end of a call changes: the request is out of the list and in the history, and the task
    of the next one is woken. -/
structure Finished (s s' : State) (t : Nat) (r : Request) (b a : List Request)
    (next : Option Request) : Prop where
  before : s.queue r.dev = b ++ r :: a
  queue : s'.queue r.dev = b ++ a
  others : ∀ e, e ≠ r.dev → s'.queue e = s.queue e ∧ s'.direct e = s.direct e
  performed : s'.performed = s.performed ++ [r]
  returned : s'.returned = s.returned ++ [r.serial]
  calls : s'.calls = s.calls
  types : ∀ e, (s'.devices e).type = (s.devices e).type
  out : s'.pc t = .out
  pcs : ∀ u, u ≠ t → s'.pc u = s.pc u
  elevator : Chosen b a (s.direct r.dev) (s'.direct r.dev) next
  woken : (next = none ∧ s'.sched = s.sched) ∨
    ∃ n w, next = some n ∧ s.pc w = .blocked n ∧ w ∈ s.sched.blockList ∧ s'.sched.Fair ∧
      s'.sched.blockList = s.sched.blockList.erase w

/-- The end of a call completes: the next request is one whose task sleeps. -/
theorem finish_ok (h : Inv s A) (ht : s.pc t = .driving req) :
    ∃ s' b a next, finish s t req = .ok s' ∧ Finished s s' t req b a next := by
  have hin : req ∈ s.queue req.dev := h.inQueue t req (by rw [ht]; rfl)
  obtain ⟨b, a, hl⟩ := List.append_of_mem hin
  have heach := h.each req.dev
  rw [hl] at heach
  have hout : req ∉ b ++ a := (List.nodup_cons.mp (List.nodup_middle.mp heach)).1
  have hb : req ∉ b := fun hm => hout (List.mem_append_left a hm)
  have ha : req ∉ a := fun hm => hout (List.mem_append_right b hm)
  have hch := requestNextreq_chosen (show (s.devices req.dev).requestList = _ from hl) hb ha
  obtain ⟨next, dir, hnext⟩ : ∃ next dir, requestNextreq (s.devices req.dev) req = (next, dir) :=
    ⟨_, _, rfl⟩
  rw [hnext] at hch
  have herase : (s.queue req.dev).erase req = b ++ a := by
    rw [hl, List.erase_append_right _ hb, List.erase_cons_head]
  obtain ⟨s₁, hs₁⟩ : ∃ s₁ : State, ({ { s with performed := s.performed ++ [req] }.setQueue req.dev
    (b ++ a) dir with returned := s.returned ++ [req.serial] } : State).setPc t .out = s₁ := ⟨_, rfl⟩
  have hfin : ∀ s', (∃ S, s' = { s₁ with sched := S }) →
      ((next = none ∧ s'.sched = s.sched) ∨ ∃ n w, next = some n ∧ s.pc w = .blocked n ∧
        w ∈ s.sched.blockList ∧ s'.sched.Fair ∧ s'.sched.blockList = s.sched.blockList.erase w) →
      Finished s s' t req b a next := by
    rintro s' ⟨S, rfl⟩ hw
    subst hs₁
    refine ⟨hl, ?_, fun e he => ⟨?_, ?_⟩, rfl, rfl, rfl, State.type_setQueue _ _ _ _, ?_,
      fun u hu => ?_, ?_, hw⟩
    · exact State.queue_setQueue_self ..
    · exact State.queue_setQueue_of_ne _ _ he
    · exact State.direct_setQueue_of_ne _ _ he
    · exact State.setPc_self ..
    · exact State.setPc_of_ne _ hu
    · have e : ({ s with performed := s.performed ++ [req] }.setQueue req.dev (b ++ a) dir).direct
          req.dev = dir := State.direct_setQueue_self ..
      exact e.symm ▸ hch
  have hrun : finish s t req = wakeNext s₁ next := by
    subst hs₁
    unfold finish
    simp only [hnext]
    rw [show ({ s with performed := s.performed ++ [req] } : State).queue req.dev = s.queue req.dev
      from rfl, herase, decide_eq_true hin]
    rfl
  rw [hrun]
  cases next with
  | none =>
    exact ⟨s₁, b, a, none, rfl, hfin s₁ ⟨s.sched, by rw [← hs₁]; rfl⟩
      (.inl ⟨rfl, by rw [← hs₁]; rfl⟩)⟩
  | some n =>
    have hmem := hch.mem
    have hne : n ≠ req := fun e => hout (e ▸ hmem)
    have hn : n ∈ s.queue req.dev := List.mem_of_mem_erase (herase.symm ▸ hmem)
    obtain ⟨hd, w, hw⟩ := h.queued req.dev n hn
    have hAr := h.driving t req ht
    have hpw : s.pc w = .blocked n := by
      cases hpc : s.pc w with
      | out =>
        rw [hpc] at hw
        cases hw
      | blocked q =>
        rw [hpc] at hw
        exact congrArg Pc.blocked (Option.some.inj hw)
      | driving q =>
        rw [hpc] at hw
        obtain rfl : q = n := Option.some.inj hw
        have := h.driving w q hpc
        rw [hd, hAr] at this
        exact absurd (Option.some.inj this).symm hne
    have hsleep : w ∈ s.sched.blockList := by
      by_contra hm
      have := h.awake w n hpw hm
      rw [hd, hAr] at this
      exact hne (Option.some.inj this).symm
    obtain ⟨S, hS, hfair, hlist⟩ := Scheduler.taskUnblock_ok h.fair hsleep
    refine ⟨{ s₁ with sched := S }, b, a, some n, ?_, hfin _ ⟨S, rfl⟩
      (.inr ⟨n, w, rfl, hpw, hsleep, hfair, hlist⟩)⟩
    have e : s₁.sched = s.sched := by rw [← hs₁]; rfl
    simp only [wakeNext, h.task w n hpw, e, hS]
    rfl

section Finished

variable {s' : State} {b a : List Request} {next : Option Request} (h : Inv s A)
  (ht : s.pc t = .driving req) (hf : Finished s s' t req b a next)

include hf

/-- The calls still under way are those of the other tasks. -/
theorem Finished.cases {u : Nat} {q : Request} (hu : (s'.pc u).req = some q) :
    u ≠ t ∧ (s.pc u).req = some q := by
  have hut : u ≠ t := fun e => by
    rw [e, hf.out] at hu
    cases hu
  exact ⟨hut, hf.pcs u hut ▸ hu⟩

include ht in
theorem Finished.keeps {u : Nat} {q : Request} (hu : (s.pc u).req = some q) (hq : q ≠ req) :
    (s'.pc u).req = some q := by
  rwa [hf.pcs u fun e => by rw [e, ht] at hu; exact hq (Option.some.inj hu).symm]

include h

/-- The other requests of the disk are in the list as before. -/
theorem Finished.mem (q : Request) : q ∈ s'.queue req.dev ↔ q ∈ s.queue req.dev ∧ q ≠ req := by
  have heach := h.each req.dev
  rw [hf.before] at heach
  have hout : req ∉ b ++ a := (List.nodup_cons.mp (List.nodup_middle.mp heach)).1
  rw [hf.queue, hf.before]
  constructor
  · exact fun hq => ⟨List.perm_middle.mem_iff.mpr (List.mem_cons_of_mem _ hq), fun e => hout (e ▸ hq)⟩
  · exact fun ⟨hq, hne⟩ => (List.mem_cons.mp (List.perm_middle.mem_iff.mp hq)).resolve_left hne

include ht

omit hf in
theorem Inv.not_mine {u : Nat} {q : Request} (hut : u ≠ t) (hu : (s.pc u).req = some q) :
    q ≠ req := fun e => hut (h.same hu (by rw [ht, e]; rfl))

theorem Finished.once : Once s' := by
  have hmine : (s.pc t).req = some req := by rw [ht]; rfl
  refine ⟨?_, ?_, fun u q hu => ?_, fun n hn => ?_⟩
  · rw [hf.performed, List.map_append, List.map_singleton]
    exact List.nodup_append.mpr ⟨h.nodup, List.nodup_singleton _, fun n hn m hm e =>
      h.pending t req hmine (List.mem_singleton.mp hm ▸ e ▸ hn)⟩
  · rw [hf.performed, hf.returned, h.returned, List.map_append]
    rfl
  · obtain ⟨hut, hu⟩ := hf.cases hu
    rw [hf.performed, List.map_append, List.mem_append, not_or]
    refine ⟨h.pending u q hu, fun hm => hut (h.own u t q req hu hmine ?_)⟩
    exact List.mem_singleton.mp hm
  · rw [hf.calls] at hn
    rw [hf.returned]
    rcases h.all n hn with hm | ⟨u, q, hu, hq⟩
    · exact .inl (List.mem_append_left _ hm)
    · by_cases e : q = req
      · exact .inl (List.mem_append_right _ (List.mem_singleton.mpr (e ▸ hq.symm)))
      · exact .inr ⟨u, q, hf.keeps ht hu e, hq⟩

theorem Finished.listed : Listed s' where
  queued := fun e q hq => by
    by_cases hd : e = req.dev
    · rw [hd] at hq ⊢
      obtain ⟨hq, hne⟩ := (hf.mem h q).mp hq
      obtain ⟨hqd, u, hu⟩ := h.queued req.dev q hq
      exact ⟨hqd, u, hf.keeps ht hu hne⟩
    · rw [(hf.others e hd).1] at hq
      obtain ⟨hqd, u, hu⟩ := h.queued e q hq
      exact ⟨hqd, u, hf.keeps ht hu fun eq => hd (hqd.symm.trans (eq ▸ rfl))⟩
  inQueue := fun u q hu => by
    obtain ⟨hut, hu⟩ := hf.cases hu
    have hq := h.inQueue u q hu
    by_cases hd : q.dev = req.dev
    · rw [hd] at hq ⊢
      exact (hf.mem h q).mpr ⟨hq, h.not_mine ht hut hu⟩
    · rwa [(hf.others _ hd).1]
  called := fun u q hu => hf.calls.symm ▸ h.called u q (hf.cases hu).2
  past := fun n hn => by
    rw [hf.performed, List.map_append, List.mem_append] at hn
    rw [hf.calls]
    rcases hn with hn | hn
    · exact h.past n hn
    · rw [List.mem_singleton.mp hn]
      exact h.called t req (by rw [ht]; rfl)
  own := fun u v q q' hu hv => h.own u v q q' (hf.cases hu).2 (hf.cases hv).2
  keys := fun e => by
    by_cases hd : e = req.dev
    · have hk := h.keys req.dev
      rw [hf.before] at hk
      rw [hd, hf.queue]
      exact hk.sublist ((List.sublist_cons_self _ _).append_left b)
    · rw [(hf.others e hd).1]
      exact h.keys e
  each := fun e => by
    by_cases hd : e = req.dev
    · have hk := h.each req.dev
      rw [hf.before] at hk
      rw [hd, hf.queue]
      exact hk.sublist ((List.sublist_cons_self _ _).append_left b)
    · rw [(hf.others e hd).1]
      exact h.each e
  task := fun u q hu => by
    have hut : u ≠ t := fun e => by
      rw [e, hf.out] at hu
      cases hu
    rw [hf.pcs u hut] at hu
    exact h.task u q hu
  installed := fun u q hu => by
    rw [hf.types]
    exact h.installed u q (hf.cases hu).2

/-- **The end of a call hands the disk on**: to the next request, or to nobody when the list is
    empty. -/
theorem Inv.finished : Inv s' (Function.update A req.dev next) := by
  have hother : ∀ q u, u ≠ t → (s.pc u).req = some q → A q.dev = some q → q.dev ≠ req.dev := by
    intro q u hut hu hq hd
    rw [hd, h.driving t req ht] at hq
    exact h.not_mine ht hut hu (Option.some.inj hq).symm
  have hpcs : ∀ u p, p ≠ .out → s'.pc u = p → u ≠ t ∧ s.pc u = p := fun u p hp hu => by
    have hut : u ≠ t := fun e => hp (hu.symm.trans (e ▸ hf.out))
    exact ⟨hut, hf.pcs u hut ▸ hu⟩
  have hasleep : ∀ u ∈ s.sched.blockList, u ≠ t := fun u hu e => by
    obtain ⟨q, hq, -⟩ := h.asleep u hu
    rw [e, ht] at hq
    cases hq
  refine { hf.once h ht, hf.listed h ht with
    fair := ?_, active := ?_, chosen := ?_, driving := ?_, awake := ?_, asleep := ?_ }
  · rcases hf.woken with ⟨-, hS⟩ | ⟨n, w, -, -, -, hfair, -⟩
    · exact hS ▸ h.fair
    · exact hfair
  · intro e q hq
    by_cases hd : e = req.dev
    · rw [hd, Function.update_self] at hq
      rw [hd, hf.queue]
      exact (hq ▸ hf.elevator).mem
    · rw [Function.update_of_ne hd] at hq
      rw [(hf.others e hd).1]
      exact h.active e q hq
  · intro e hne
    by_cases hd : e = req.dev
    · rw [hd, Function.update_self]
      rw [hd, hf.queue] at hne
      exact fun e => hne (hf.elevator.none_iff.mp e)
    · rw [(hf.others e hd).1] at hne
      rw [Function.update_of_ne hd]
      exact h.chosen e hne
  · intro u q hu
    obtain ⟨hut, hu⟩ := hpcs u (.driving q) nofun hu
    have hq := h.driving u q hu
    rwa [Function.update_of_ne (hother q u hut (by rw [hu]; rfl) hq)]
  · intro u q hu hm
    obtain ⟨hut, hu⟩ := hpcs u (.blocked q) nofun hu
    have hreq : (s.pc u).req = some q := by rw [hu]; rfl
    by_cases hslept : u ∈ s.sched.blockList
    · -- the task that was woken
      rcases hf.woken with ⟨-, hS⟩ | ⟨n, w, hn, hw, -, -, hlist⟩
      · rw [hS] at hm
        exact absurd hslept hm
      · rw [hlist, h.fair.nodup.mem_erase_iff] at hm
        have huw : u = w := by
          by_contra hne
          exact hm ⟨hne, hslept⟩
        obtain rfl : n = q := Pc.blocked.inj ((huw ▸ hw).symm.trans hu)
        have hin := hf.elevator
        rw [hn] at hin
        have hmem := hin.mem
        rw [← hf.queue] at hmem
        have hd := (h.queued _ n ((hf.mem h n).mp hmem).1).1
        rw [hd, Function.update_self, hn]
    · have hq := h.awake u q hu hslept
      rwa [Function.update_of_ne (hother q u hut hreq hq)]
  · intro u hu
    have hslept : u ∈ s.sched.blockList := by
      rcases hf.woken with ⟨-, hS⟩ | ⟨n, w, -, -, -, -, hlist⟩
      · exact hS ▸ hu
      · rw [hlist] at hu
        exact List.mem_of_mem_erase hu
    obtain ⟨q, hq, hno⟩ := h.asleep u hslept
    refine ⟨q, by rw [hf.pcs u (hasleep u hslept), hq], fun hA => ?_⟩
    by_cases hd : q.dev = req.dev
    · rw [hd, Function.update_self] at hA
      rcases hf.woken with ⟨hn, -⟩ | ⟨n, w, hn, hw, -, -, hlist⟩
      · rw [hn] at hA
        cases hA
      · rw [hlist, h.fair.nodup.mem_erase_iff] at hu
        rw [hn] at hA
        obtain rfl : n = q := Option.some.inj hA
        exact hu.1 (h.same (r := n) (by rw [hq]; rfl) (by rw [hw]; rfl))
    · rw [Function.update_of_ne hd] at hA
      exact hno hA

end Finished

/-! ## 6. One action -/

/-- What a caller has to see to: the device is a block device, its disk is installed, and the
    transfer is a read or a write. -/
def Valid (s : State) : Action → Prop
  | .request _ dev _ _ _ _ type =>
    dev < DEVICE_NR ∧ (s.devices dev).type = .block ∧ diskOf s dev < DEVICE_NR ∧
      (s.devices (diskOf s dev)).type ≠ .null ∧ (type = REQ_READ ∨ type = REQ_WRITE)
  | .resume t => ∀ r, s.pc t = .blocked r → r.type = REQ_READ ∨ r.type = REQ_WRITE
  | .complete _ => True

theorem deviceGet_ok {dev : Nat} (h : dev < DEVICE_NR) (hn : (s.devices dev).type ≠ .null) :
    deviceGet s dev = .ok (s.devices dev) := by
  simp only [deviceGet, h, decide_true, bne_iff_ne.mpr hn, assert_true]
  rfl

theorem of_deviceGet {dev : Nat} {device : Device} (h : deviceGet s dev = .ok device) :
    dev < DEVICE_NR ∧ (s.devices dev).type ≠ .null ∧ device = s.devices dev := by
  unfold deviceGet at h
  by_cases hd : dev < DEVICE_NR
  · by_cases hn : (s.devices dev).type = .null
    · simp only [hd, hn] at h
      cases h
    · simp only [hd, bne_iff_ne.mpr hn] at h
      cases h
      exact ⟨hd, hn, rfl⟩
  · simp only [hd] at h
    cases h

/-- Into the driver, if at all. -/
theorem of_doRequest {s' : State} (h : doRequest s t req = .ok s') :
    s' = s.setPc t (.driving req) := by
  unfold doRequest at h
  split at h
  · obtain ⟨-, -, h⟩ := ok_of_bind h
    exact (Except.ok.inj h).symm
  · cases h

theorem doRequest_ok (ht : req.type = REQ_READ ∨ req.type = REQ_WRITE) (hd : req.dev < DEVICE_NR)
    (hn : (s.devices req.dev).type ≠ .null) :
    doRequest s t req = .ok (s.setPc t (.driving req)) := by
  rw [doRequest, if_pos ht, deviceGet_ok hd hn]
  rfl

/-- What the insertion leads to. -/
theorem enqueue_cases (h : Inv s A) (ht : s.pc t = .out) {r : Request} (hs : r.serial = s.calls)
    (hd : r.dev < DEVICE_NR ∧ (s.devices r.dev).type ≠ .null)
    (htask : r.task = if (s.queue r.dev).isEmpty then none else some t) :
    (∃ s', Entered s s' t r.dev r ∧
      (enqueue s t r = .ok s' ∨ enqueue s t r = .error .panic ∧
        ¬ (r.type = REQ_READ ∨ r.type = REQ_WRITE))) := by
  obtain ⟨s₁, hs₁⟩ : ∃ s₁ : State, { s.setQueue r.dev (listInsertSort r (s.queue r.dev))
    (s.direct r.dev) with calls := s.calls + 1 } = s₁ := ⟨_, rfl⟩
  have htypes : ∀ e, (s₁.devices e).type = (s.devices e).type := by
    subst hs₁
    exact State.type_setQueue s r.dev _ _
  have hent : ∀ S p, ((s.queue r.dev = [] ∧ p = .driving r ∧ S = s.sched) ∨
      (s.queue r.dev ≠ [] ∧ p = .blocked r ∧ r.task = some t ∧ S.Fair ∧
        S.blockList = t :: s.sched.blockList)) →
      Entered s ({ s₁ with sched := S }.setPc t p) t r.dev r := by
    intro S p hp
    subst hs₁
    refine ⟨hs, rfl, hd, htypes, rfl, ?_, fun e he => ?_, fun e => ?_, ⟨rfl, rfl⟩, fun u hu => ?_,
      ?_⟩
    · exact State.queue_setQueue_self ..
    · exact State.queue_setQueue_of_ne _ _ he
    · by_cases he : e = r.dev
      · rw [he]
        exact State.direct_setQueue_self ..
      · exact State.direct_setQueue_of_ne _ _ he
    · exact State.setPc_of_ne _ hu
    · rw [State.setPc_self]
      exact hp
  unfold enqueue
  dsimp only
  rw [hs₁]
  by_cases h0 : s.queue r.dev = []
  · refine ⟨{ s₁ with sched := s.sched }.setPc t (.driving r), hent _ _ (.inl ⟨h0, rfl, rfl⟩), ?_⟩
    rw [h0, List.isEmpty_nil, if_pos rfl]
    by_cases hty : r.type = REQ_READ ∨ r.type = REQ_WRITE
    · rw [doRequest_ok hty hd.1 (by rw [htypes]; exact hd.2)]
      exact .inl (by rw [← hs₁]; rfl)
    · exact .inr ⟨by rw [doRequest, if_neg hty], hty⟩
  · have hne : (s.queue r.dev).isEmpty = false := by simpa using h0
    obtain ⟨S, hS, hfair, hlist⟩ := Scheduler.taskBlock_ok h.fair (h.awake_of_out ht)
    rw [hne] at htask
    refine ⟨{ s₁ with sched := S }.setPc t (.blocked r),
      hent _ _ (.inr ⟨h0, rfl, htask, hfair, hlist⟩), .inl ?_⟩
    rw [hne, ← hs₁, if_neg Bool.false_ne_true]
    show (s.sched.taskBlock t >>= _) = _
    rw [hS]
    rfl

/-- A call that goes through. -/
theorem deviceRequest_entered (h : Inv s A) (ht : s.pc t = .out) {dev buf count idx : Nat}
    {flags : Int} {type : Nat} {s' : State}
    (hs : deviceRequest s t dev buf count idx flags type = .ok s') :
    ∃ r, Entered s s' t (diskOf s dev) r := by
  obtain ⟨device, -, hs⟩ := ok_of_bind hs
  obtain ⟨-, -, hs⟩ := ok_of_bind hs
  obtain ⟨disk, hdisk, hs⟩ := ok_of_bind hs
  obtain ⟨hd, hn, -⟩ := of_deviceGet hdisk
  obtain ⟨s₁, he, hok⟩ := enqueue_cases (r := requestOf s t dev buf count idx flags type) h ht rfl
    ⟨hd, hn⟩ rfl
  rcases hok with hok | ⟨hno, -⟩
  · exact ⟨_, Except.ok.inj (hok.symm.trans hs) ▸ he⟩
  · rw [hno] at hs
    cases hs

/-- **One action keeps the invariant.** -/
theorem act_inv (h : Inv s A) {a : Action} (ha : Enabled s a) {s' : State}
    (hs : act s a = .ok s') : ∃ A', Inv s' A' := by
  cases a with
  | request t dev buf count idx flags type =>
    obtain ⟨r, he⟩ := deviceRequest_entered h ha hs
    exact h.entered ha he
  | resume t =>
    obtain ⟨⟨r, hr⟩, hready⟩ := ha
    unfold act at hs
    simp only [hr] at hs
    rw [of_doRequest hs]
    exact ⟨A, h.drive hr ((h.fair.ready t).mp hready)⟩
  | complete t =>
    obtain ⟨r, hr⟩ := ha
    unfold act at hs
    simp only [hr] at hs
    obtain ⟨s₁, b, a, next, hrun, hf⟩ := finish_ok h hr
    obtain rfl := Except.ok.inj (hrun.symm.trans hs)
    exact ⟨_, h.finished hr hf⟩

/-- **One action completes.** -/
theorem act_ok (h : Inv s A) {a : Action} (ha : Enabled s a) (hv : Valid s a) :
    ∃ s', act s a = .ok s' := by
  cases a with
  | request t dev buf count idx flags type =>
    obtain ⟨hdev, hblock, hdisk, hnull, htype⟩ := hv
    obtain ⟨s₁, -, hok⟩ := enqueue_cases (r := requestOf s t dev buf count idx flags type) h ha rfl
      ⟨hdisk, hnull⟩ rfl
    rcases hok with hok | ⟨-, hno⟩
    · refine ⟨s₁, ?_⟩
      show deviceRequest s t dev buf count idx flags type = _
      have hnn : (s.devices dev).type ≠ .null := by rw [hblock]; decide
      simp only [deviceRequest, deviceGet_ok hdev hnn, deviceGet_ok hdisk hnull]
      simp only [bind, Except.bind, hblock, beq_self_eq_true, assert_true]
      exact hok
    · exact absurd htype hno
  | resume t =>
    obtain ⟨⟨r, hr⟩, -⟩ := ha
    obtain ⟨hd, hn⟩ := h.installed t r (by rw [hr]; rfl)
    refine ⟨s.setPc t (.driving r), ?_⟩
    unfold act
    simp only [hr]
    exact doRequest_ok (hv r hr) hd hn
  | complete t =>
    obtain ⟨r, hr⟩ := ha
    obtain ⟨s₁, b, a, next, hrun, -⟩ := finish_ok h hr
    refine ⟨s₁, ?_⟩
    unfold act
    simp only [hr]
    exact hrun

/-! ## 7. All runs -/

theorem reached_inv (h : Reached s) : ∃ A, Inv s A := by
  induction h with
  | init type parent start => exact ⟨_, inv_init type parent start⟩
  | step _ a ha hs ih =>
    obtain ⟨A, hA⟩ := ih
    exact act_inv hA ha hs

/-- How an action moves the elevator of disk `d`: only the end of a call on `d` does, the request
    that comes next is the one `Chosen`, and its task sleeps before and may run after. -/
def Moves (s s' : State) (a : Action) (d : Nat) : Prop :=
  (∀ t r, a = .complete t → s.pc t = .driving r → r.dev ≠ d) ∧ s'.direct d = s.direct d ∨
    ∃ t r b l next, a = .complete t ∧ s.pc t = .driving r ∧ r.dev = d ∧
      s.queue d = b ++ r :: l ∧ s'.queue d = b ++ l ∧
      Chosen b l (s.direct d) (s'.direct d) next ∧
      ∀ n ∈ next, ∃ w, s.pc w = .blocked n ∧ s.sched.ready w = false ∧ s'.sched.ready w = true

theorem act_moves (h : Inv s A) {a : Action} (ha : Enabled s a) {s' : State}
    (hs : act s a = .ok s') (d : Nat) : Moves s s' a d := by
  cases a with
  | request t dev buf count idx flags type =>
    obtain ⟨r, he⟩ := deviceRequest_entered h ha hs
    exact .inl ⟨nofun, he.direct d⟩
  | resume t =>
    obtain ⟨⟨r, hr⟩, hready⟩ := ha
    unfold act at hs
    simp only [hr] at hs
    rw [of_doRequest hs]
    exact .inl ⟨nofun, rfl⟩
  | complete t =>
    obtain ⟨r, hr⟩ := ha
    unfold act at hs
    simp only [hr] at hs
    obtain ⟨s₁, b, l, next, hrun, hf⟩ := finish_ok h hr
    obtain rfl := Except.ok.inj (hrun.symm.trans hs)
    by_cases hd : r.dev = d
    · subst hd
      refine .inr ⟨t, r, b, l, next, rfl, hr, rfl, hf.before, hf.queue, hf.elevator, ?_⟩
      intro n hn
      rcases hf.woken with ⟨h0, -⟩ | ⟨m, w, hm, hw, hin, hfair, hlist⟩
      · rw [h0] at hn
        cases hn
      · obtain rfl : m = n := Option.some.inj (hm.symm.trans hn)
        refine ⟨w, hw, ?_, (hfair.ready w).mpr ?_⟩
        · exact Bool.eq_false_iff.mpr fun e => (h.fair.ready w).mp e hin
        · rw [hlist, h.fair.nodup.mem_erase_iff]
          exact fun hno => hno.1 rfl
    · refine .inl ⟨fun u q e hq => ?_, (hf.others d (Ne.symm hd)).2⟩
      obtain rfl := Action.complete.inj e
      rw [hr] at hq
      exact Pc.driving.inj hq ▸ hd

/-- **No request is lost and no wake-up either**: in every state reached every disk is in order and
    every request is performed once; whatever may happen next completes, and only the end of a call
    moves the elevator of its disk, to the neighbour in the current direction. -/
theorem requests_served (h : Reached s) :
    (∀ d, Sound s d) ∧ Once s ∧ (∀ a, Enabled s a → Valid s a → ∃ s', act s a = .ok s') ∧
      ∀ a s', Enabled s a → act s a = .ok s' → ∀ d, Moves s s' a d := by
  obtain ⟨A, hA⟩ := reached_inv h
  exact ⟨hA.sound, hA.toOnce, fun a => act_ok hA, fun a s' ha hs d => act_moves hA ha hs d⟩

/-- Device 1 is a disk and device 2 a partition of it: two more requests arrive while the first one
    is in the driver; then the one above it is next, and its task is ready. -/
theorem requests_served_three :
    ∃ s, Reached s ∧ (s.queue 1).map Request.idx = [4, 112] ∧ s.sched.ready 1 = false ∧
      s.sched.ready 2 = true ∧ Sound s 1 := by
  have h₁ := (Reached.init (fun _ => .block) (fun d => if d = 2 then 1 else 0)
    fun d => if d = 2 then 100 else 0).step (.request 0 1 0 2 8 0 REQ_READ) rfl rfl
  have h₂ := h₁.step (.request 1 1 0 2 4 0 REQ_WRITE) rfl rfl
  have h₃ := h₂.step (.request 2 2 0 2 12 0 REQ_READ) rfl rfl
  have h₄ := h₃.step (.complete 0) ⟨_, rfl⟩ rfl
  exact ⟨_, h₄, rfl, rfl, rfl, (requests_served h₄).1 1⟩

end Yuios.Disk
