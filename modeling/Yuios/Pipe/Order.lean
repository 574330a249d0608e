/-
  File:      Yuios/Pipe/Order.lean
  Subject:   WHAT A PIPE DELIVERS, and to which schedules.

  A woken task goes on without looking at the ring again, and there is one waiter slot for each
  direction. `InTurn` says what has to hold before an action: nobody sleeps in the direction of a
  new call, and a woken task finds a byte (or a place) when it runs.

  * `Inv` -- the invariant: the waiters sleep in the list, a reader only while the ring is empty, a
    writer only while it is full; what was put is what was taken and then what is in the ring.
  * `act_inTurn` -- an action in turn completes and keeps it; `act_not_inTurn` -- any other action
    stops the kernel or loses a byte.
  * `delivered_inTurn` -- all runs.
-/
import Yuios.Pipe.Model

namespace Yuios.Pipe

open Kernel

/-! ## 1. What is to hold -/

/-- **The readers get what the writers put, in order, nothing lost**: what was put is what was taken
    followed by what is in the ring, and every reader has in its buffers what it took. -/
structure Delivered (s : State) : Prop where
  order : s.put.map Prod.snd = s.taken.map Prod.snd ++ s.fifo.contents
  bufs : ∀ t, s.bufs t = (s.taken.filter fun e => e.1 == t).map Prod.snd

/-- What a woken task takes for granted. -/
def Finds (s : State) : Pc → Prop
  | .out => True
  | .reading _ => fifoEmpty s.fifo = false
  | .writing _ _ => fifoFull s.fifo = false

/-- **An action in turn**: a call is made while no task sleeps in its direction, and a task that was
    woken still finds a byte to take, or a place for its byte. -/
def InTurn (s : State) : Action → Prop
  | .read _ count => count = 0 ∨ s.rxwaiter = none
  | .write _ buf => buf = [] ∨ s.txwaiter = none
  | .resume t => Finds s (s.pc t)

/-- The waiters sleep in the list, where nobody else is. -/
structure Linked (s : State) : Prop where
  fair : s.sched.Fair
  rx : ∀ w, s.rxwaiter = some w → w ∈ s.sched.blockList ∧ ∃ left, s.pc w = .reading left
  tx : ∀ w, s.txwaiter = some w → w ∈ s.sched.blockList ∧ ∃ b left, s.pc w = .writing b left
  asleep : ∀ w ∈ s.sched.blockList, s.rxwaiter = some w ∨ s.txwaiter = some w

/-- **The invariant**: besides, a reader sleeps only while the ring is empty, a writer only while it
    is full. -/
structure Inv (s : State) : Prop extends Delivered s, Linked s where
  sized : s.fifo.Sized
  empty : s.rxwaiter ≠ none → fifoEmpty s.fifo = true
  full : s.txwaiter ≠ none → fifoFull s.fifo = true

variable {s : State} {t : Nat}

theorem inv_init (page : Nat → UInt8) : Inv (init page) where
  order := rfl
  bufs := fun _ => rfl
  sized := ⟨(by decide : 2 ≤ PAGE_SIZE), (by decide : 0 < PAGE_SIZE), (by decide : 0 < PAGE_SIZE)⟩
  fair := Scheduler.fair_init
  rx := nofun
  tx := nofun
  asleep := nofun
  empty := fun h => absurd rfl h
  full := fun h => absurd rfl h

/-- While there is something to take no reader sleeps. -/
theorem Inv.no_reader (h : Inv s) (he : fifoEmpty s.fifo = false) : s.rxwaiter = none := by
  by_contra hr
  exact Bool.noConfusion (he.symm.trans (h.empty hr))

/-- While there is a place left no writer sleeps. -/
theorem Inv.no_writer (h : Inv s) (hf : fifoFull s.fifo = false) : s.txwaiter = none := by
  by_contra hr
  exact Bool.noConfusion (hf.symm.trans (h.full hr))

/-- A task outside the calls does not sleep. -/
theorem Linked.awake (h : Linked s) (ht : s.pc t = .out) : t ∉ s.sched.blockList := fun hm => by
  rcases h.asleep t hm with e | e
  · obtain ⟨-, left, hp⟩ := h.rx t e
    rw [ht] at hp
    cases hp
  · obtain ⟨-, b, left, hp⟩ := h.tx t e
    rw [ht] at hp
    cases hp

/-- Where a task stands that does not sleep is its own affair. -/
theorem Linked.setPc (h : Linked s) (ht : t ∉ s.sched.blockList) (p : Pc) :
    Linked (s.setPc t p) := by
  have hpc : ∀ w ∈ s.sched.blockList, (s.setPc t p).pc w = s.pc w := fun w hw =>
    State.setPc_of_ne p (ne_of_mem_of_not_mem hw ht)
  refine ⟨h.fair, fun w e => ?_, fun w e => ?_, h.asleep⟩
  · obtain ⟨hm, hp⟩ := h.rx w e
    exact ⟨hm, (hpc w hm).symm ▸ hp⟩
  · obtain ⟨hm, hp⟩ := h.tx w e
    exact ⟨hm, (hpc w hm).symm ▸ hp⟩

theorem Inv.setPc (h : Inv s) (ht : t ∉ s.sched.blockList) (p : Pc) : Inv (s.setPc t p) :=
  { h.toLinked.setPc ht p with
    order := h.order, bufs := h.bufs, sized := h.sized, empty := h.empty, full := h.full }

/-! ## 2. Sleeping and waking -/

/-- A writer that sleeps is woken, and nobody is put to sleep. -/
theorem wakeWriter_ok (h : Linked s) :
    ∃ S : Scheduler, wakeWriter s = .ok { s with sched := S, txwaiter := none } ∧
      Linked { s with sched := S, txwaiter := none } ∧ ∀ v ∈ S.blockList, v ∈ s.sched.blockList := by
  unfold wakeWriter
  cases hw : s.txwaiter with
  | none =>
    have e : ({ s with txwaiter := none } : State) = s := by rw [← hw]
    exact ⟨s.sched, congrArg Except.ok e.symm, e ▸ h, fun v hv => hv⟩
  | some w =>
    obtain ⟨hm, b, left, hpw⟩ := h.tx w hw
    obtain ⟨S, hS, hfair, hlist⟩ := Scheduler.taskUnblock_ok h.fair hm
    have hmem : ∀ v, v ∈ S.blockList ↔ v ≠ w ∧ v ∈ s.sched.blockList := fun v => by
      rw [hlist, h.fair.nodup.mem_erase_iff]
    refine ⟨S, ?_, ⟨hfair, fun v e => ?_, nofun, fun v hv => ?_⟩, fun v hv => ((hmem v).mp hv).2⟩
    · dsimp only
      rw [hS]
      rfl
    · obtain ⟨hv, l, hpv⟩ := h.rx v e
      refine ⟨(hmem v).mpr ⟨fun ev => ?_, hv⟩, l, hpv⟩
      rw [ev, hpw] at hpv
      cases hpv
    · obtain ⟨hne, hv⟩ := (hmem v).mp hv
      refine (h.asleep v hv).imp_right fun e => absurd (Option.some.inj (e.symm.trans hw)) hne

/-- A reader that sleeps is woken, and nobody is put to sleep. -/
theorem wakeReader_ok (h : Linked s) :
    ∃ S : Scheduler, wakeReader s = .ok { s with sched := S, rxwaiter := none } ∧
      Linked { s with sched := S, rxwaiter := none } ∧ ∀ v ∈ S.blockList, v ∈ s.sched.blockList := by
  unfold wakeReader
  cases hw : s.rxwaiter with
  | none =>
    have e : ({ s with rxwaiter := none } : State) = s := by rw [← hw]
    exact ⟨s.sched, congrArg Except.ok e.symm, e ▸ h, fun v hv => hv⟩
  | some w =>
    obtain ⟨hm, left, hpw⟩ := h.rx w hw
    obtain ⟨S, hS, hfair, hlist⟩ := Scheduler.taskUnblock_ok h.fair hm
    have hmem : ∀ v, v ∈ S.blockList ↔ v ≠ w ∧ v ∈ s.sched.blockList := fun v => by
      rw [hlist, h.fair.nodup.mem_erase_iff]
    refine ⟨S, ?_, ⟨hfair, nofun, fun v e => ?_, fun v hv => ?_⟩, fun v hv => ((hmem v).mp hv).2⟩
    · dsimp only
      rw [hS]
      rfl
    · obtain ⟨hv, b, l, hpv⟩ := h.tx v e
      refine ⟨(hmem v).mpr ⟨fun ev => ?_, hv⟩, b, l, hpv⟩
      rw [ev, hpw] at hpv
      cases hpv
    · obtain ⟨hne, hv⟩ := (hmem v).mp hv
      exact (h.asleep v hv).imp_left fun e => absurd (Option.some.inj (e.symm.trans hw)) hne

/-- A task that runs takes a waiter slot that is free and falls asleep. -/
theorem Linked.sleep (h : Linked s) (ht : t ∉ s.sched.blockList) {S : Scheduler} (hS : S.Fair)
    (hlist : S.blockList = t :: s.sched.blockList) {rx tx : Option Nat} {p : Pc}
    (hrx : rx = s.rxwaiter ∨ s.rxwaiter = none ∧ rx = some t ∧ ∃ left, p = .reading left)
    (htx : tx = s.txwaiter ∨ s.txwaiter = none ∧ tx = some t ∧ ∃ b left, p = .writing b left)
    (hone : rx = some t ∨ tx = some t) :
    Linked ({ s with sched := S, rxwaiter := rx, txwaiter := tx }.setPc t p) := by
  have hpc : ∀ w ∈ s.sched.blockList,
      ({ s with sched := S, rxwaiter := rx, txwaiter := tx }.setPc t p).pc w = s.pc w := fun w hw =>
    State.setPc_of_ne p (ne_of_mem_of_not_mem hw ht)
  have hin : ∀ w ∈ s.sched.blockList, w ∈ S.blockList := fun w hw =>
    hlist ▸ List.mem_cons_of_mem _ hw
  have hself : t ∈ S.blockList := hlist ▸ List.mem_cons_self
  refine ⟨hS, fun w e => ?_, fun w e => ?_, fun w hw => ?_⟩
  · have e : rx = some w := e
    rcases hrx with hrx | ⟨-, hrx, left, hp⟩
    · obtain ⟨hm, hpw⟩ := h.rx w (hrx.symm.trans e)
      exact ⟨hin w hm, (hpc w hm).symm ▸ hpw⟩
    · obtain rfl := Option.some.inj (hrx.symm.trans e)
      exact ⟨hself, left, (State.setPc_self ..).trans hp⟩
  · have e : tx = some w := e
    rcases htx with htx | ⟨-, htx, b, left, hp⟩
    · obtain ⟨hm, hpw⟩ := h.tx w (htx.symm.trans e)
      exact ⟨hin w hm, (hpc w hm).symm ▸ hpw⟩
    · obtain rfl := Option.some.inj (htx.symm.trans e)
      exact ⟨hself, b, left, (State.setPc_self ..).trans hp⟩
  · have hw : w ∈ S.blockList := hw
    rw [hlist] at hw
    show rx = some w ∨ tx = some w
    rcases List.mem_cons.mp hw with rfl | hw
    · exact hone
    · rcases h.asleep w hw with e | e
      · rcases hrx with hrx | ⟨hno, -, -⟩
        · exact .inl (hrx.trans e)
        · rw [hno] at e
          cases e
      · rcases htx with htx | ⟨hno, -, -⟩
        · exact .inr (htx.trans e)
        · rw [hno] at e
          cases e

/-! ## 3. Reading -/

/-- One round of `pipe_read`, when a byte is there. -/
theorem takeByte_inv (h : Inv s) (ht : t ∉ s.sched.blockList) (he : fifoEmpty s.fifo = false) :
    ∃ s', (takeByte s t >>= wakeWriter) = .ok s' ∧ Inv s' ∧ t ∉ s'.sched.blockList ∧
      s'.rxwaiter = none := by
  obtain ⟨b, f, hg, hs, -, hc⟩ := fifoGet_cons h.sized he
  obtain ⟨s₁, hs₁⟩ : ∃ s₁ : State, { s with
    fifo := f
    bufs := Function.update s.bufs t (s.bufs t ++ [b])
    taken := s.taken ++ [(t, b)] } = s₁ := ⟨_, rfl⟩
  have hrun : takeByte s t = .ok s₁ := by
    rw [takeByte, hg, ← hs₁]
    rfl
  have hd : Delivered s₁ := by
    rw [← hs₁]
    refine ⟨?_, fun u => ?_⟩
    · show s.put.map Prod.snd = (s.taken ++ [(t, b)]).map Prod.snd ++ f.contents
      rw [h.order, hc, List.map_append, List.append_assoc]
      rfl
    · show Function.update s.bufs t (s.bufs t ++ [b]) u = _
      rw [List.filter_append, List.map_append]
      by_cases e : u = t
      · subst e
        rw [Function.update_self, h.bufs u]
        simp
      · rw [Function.update_of_ne e, h.bufs u]
        simp [Ne.symm e]
  have hl : Linked s₁ := hs₁ ▸ ⟨h.fair, h.rx, h.tx, h.asleep⟩
  have hr : s₁.rxwaiter = none := hs₁ ▸ h.no_reader he
  obtain ⟨S, hw, hlinked, hless⟩ := wakeWriter_ok hl
  refine ⟨{ s₁ with sched := S, txwaiter := none }, ?_, ?_, fun hm => ?_, hr⟩
  · rw [hrun]
    exact hw
  · exact { hlinked with
      order := hd.order, bufs := hd.bufs, sized := hs₁ ▸ hs, empty := fun e => absurd hr e
      full := fun e => absurd rfl e }
  · have hm := hless t hm
    rw [← hs₁] at hm
    exact ht hm

/-- `pipe_read` while no reader sleeps. -/
theorem pipeRead_inv (n : Nat) (h : Inv s) (ht : t ∉ s.sched.blockList) (hr : s.rxwaiter = none) :
    ∃ s', pipeRead t n s = .ok s' ∧ Inv s' := by
  induction n generalizing s with
  | zero => exact ⟨_, rfl, h.setPc ht .out⟩
  | succ n ih =>
    unfold pipeRead
    cases he : fifoEmpty s.fifo with
    | true =>
      obtain ⟨S, hS, hfair, hlist⟩ := Scheduler.taskBlock_ok h.fair ht
      refine ⟨{ s with sched := S, rxwaiter := some t }.setPc t (.reading n), ?_, ?_⟩
      · simp only [if_true, hr, hS]
        rfl
      · have hl := h.toLinked.sleep ht hfair hlist (.inr ⟨hr, rfl, n, rfl⟩) (.inl rfl) (.inl rfl)
        exact { hl with
          order := h.order, bufs := h.bufs, sized := h.sized, empty := fun _ => he
          full := h.full }
    | false =>
      obtain ⟨s₁, hrun, h₁, ht₁, hr₁⟩ := takeByte_inv h ht he
      obtain ⟨s₂, hrun₂, h₂⟩ := ih h₁ ht₁ hr₁
      refine ⟨s₂, ?_, h₂⟩
      obtain ⟨s₀, h₀, hw⟩ := ok_of_bind hrun
      rw [if_neg (by simp), h₀]
      show (wakeWriter s₀ >>= _) = _
      rw [hw]
      exact hrun₂

/-! ## 4. Writing -/

/-- One round of `pipe_write`, when there is a place. -/
theorem putByte_inv (h : Inv s) (ht : t ∉ s.sched.blockList) (hf : fifoFull s.fifo = false)
    (b : UInt8) :
    ∃ s', (putByte s t b >>= wakeReader) = .ok s' ∧ Inv s' ∧ t ∉ s'.sched.blockList ∧
      s'.txwaiter = none := by
  obtain ⟨f, hp, hs, -, hc⟩ := fifoPut_room h.sized hf b
  obtain ⟨s₁, hs₁⟩ : ∃ s₁ : State, { s with fifo := f, put := s.put ++ [(t, b)] } = s₁ := ⟨_, rfl⟩
  have hrun : putByte s t b = .ok s₁ := by
    rw [putByte, hp, ← hs₁]
    rfl
  have hd : Delivered s₁ := by
    rw [← hs₁]
    refine ⟨?_, h.bufs⟩
    show (s.put ++ [(t, b)]).map Prod.snd = s.taken.map Prod.snd ++ f.contents
    rw [hc, List.map_append, h.order, List.append_assoc]
    rfl
  have hl : Linked s₁ := hs₁ ▸ ⟨h.fair, h.rx, h.tx, h.asleep⟩
  have hr : s₁.txwaiter = none := hs₁ ▸ h.no_writer hf
  obtain ⟨S, hw, hlinked, hless⟩ := wakeReader_ok hl
  refine ⟨{ s₁ with sched := S, rxwaiter := none }, ?_, ?_, fun hm => ?_, hr⟩
  · rw [hrun]
    exact hw
  · exact { hlinked with
      order := hd.order, bufs := hd.bufs, sized := hs₁ ▸ hs, empty := fun e => absurd rfl e
      full := fun e => absurd hr e }
  · have hm := hless t hm
    rw [← hs₁] at hm
    exact ht hm

/-- `pipe_write` while no writer sleeps. -/
theorem pipeWrite_inv (l : List UInt8) (h : Inv s) (ht : t ∉ s.sched.blockList)
    (hr : s.txwaiter = none) : ∃ s', pipeWrite t l s = .ok s' ∧ Inv s' := by
  induction l generalizing s with
  | nil => exact ⟨_, rfl, h.setPc ht .out⟩
  | cons b l ih =>
    unfold pipeWrite
    cases hf : fifoFull s.fifo with
    | true =>
      obtain ⟨S, hS, hfair, hlist⟩ := Scheduler.taskBlock_ok h.fair ht
      refine ⟨{ s with sched := S, txwaiter := some t }.setPc t (.writing b l), ?_, ?_⟩
      · simp only [if_true, hr, hS]
        rfl
      · have hl := h.toLinked.sleep ht hfair hlist (.inl rfl) (.inr ⟨hr, rfl, b, l, rfl⟩)
          (.inr rfl)
        exact { hl with
          order := h.order, bufs := h.bufs, sized := h.sized, empty := h.empty
          full := fun _ => hf }
    | false =>
      obtain ⟨s₁, hrun, h₁, ht₁, hr₁⟩ := putByte_inv h ht hf b
      obtain ⟨s₂, hrun₂, h₂⟩ := ih h₁ ht₁ hr₁
      refine ⟨s₂, ?_, h₂⟩
      obtain ⟨s₀, h₀, hw⟩ := ok_of_bind hrun
      rw [if_neg (by simp), h₀]
      show (wakeReader s₀ >>= _) = _
      rw [hw]
      exact hrun₂

/-! ## 5. Out of turn -/

/-- A byte was lost: more was put than was taken and is still there. -/
def Lost (s : State) : Prop := s.taken.length + s.fifo.used < s.put.length

theorem Delivered.not_lost (h : Delivered s) : ¬ Lost s := by
  have e := congrArg List.length h.order
  simp only [List.length_map, List.length_append, Fifo.length_contents] at e
  unfold Lost
  omega

/-- What `putByte` and `wakeReader` do to the counts. -/
theorem putByte_counts (h : s.fifo.Sized) {b : UInt8} {s' : State}
    (hs : (putByte s t b >>= wakeReader) = .ok s') :
    s'.fifo.Sized ∧ s'.taken = s.taken ∧ s'.put.length = s.put.length + 1 ∧
      s'.fifo.used ≤ s.fifo.used + 1 ∧ (fifoFull s.fifo = true → s'.fifo.used ≤ s.fifo.used) := by
  obtain ⟨s₁, h₁, hw⟩ := ok_of_bind hs
  have hkeep : s'.fifo = s₁.fifo ∧ s'.taken = s₁.taken ∧ s'.put = s₁.put := by
    unfold wakeReader at hw
    cases hr : s₁.rxwaiter with
    | none =>
      rw [hr] at hw
      cases hw
      exact ⟨rfl, rfl, rfl⟩
    | some w =>
      rw [hr] at hw
      obtain ⟨S, -, hS⟩ := ok_of_bind hw
      cases hS
      exact ⟨rfl, rfl, rfl⟩
  obtain ⟨f, hp, hf⟩ := ok_of_bind h₁
  have hs₁ : s₁ = { s with fifo := f, put := s.put ++ [(t, b)] } := (Except.ok.inj hf).symm
  obtain ⟨f', hp', hsz, -, hle⟩ := fifoPut_ok h b
  obtain rfl : f = f' := Except.ok.inj (hp.symm.trans hp')
  rw [hkeep.1, hkeep.2.1, hkeep.2.2, hs₁]
  refine ⟨hsz, rfl, by simp, hle, fun hfull => ?_⟩
  obtain ⟨g, hg, -, -, hc⟩ := fifoPut_full h hfull b
  obtain rfl : f = g := Except.ok.inj (hp.symm.trans hg)
  have hc := congrArg List.length hc
  have h2 := h.two
  have hu := (fifoFull_iff h).mp hfull
  simp only [Fifo.length_contents, List.length_append, List.length_tail, List.length_singleton] at hc
  show f.used ≤ s.fifo.used
  omega

/-- No further byte brings a lost one back. -/
theorem pipeWrite_lost (l : List UInt8) (hsz : s.fifo.Sized) (hl : Lost s) {s' : State}
    (hs : pipeWrite t l s = .ok s') : Lost s' := by
  induction l generalizing s with
  | nil =>
    cases hs
    exact hl
  | cons b l ih =>
    unfold pipeWrite at hs
    cases hf : fifoFull s.fifo with
    | true =>
      rw [if_pos hf] at hs
      obtain ⟨-, -, hs⟩ := ok_of_bind hs
      obtain ⟨S, -, hs⟩ := ok_of_bind hs
      cases hs
      exact hl
    | false =>
      rw [if_neg (by simp [hf])] at hs
      obtain ⟨s₀, h₀, hs⟩ := ok_of_bind hs
      obtain ⟨s₁, h₁, hs⟩ := ok_of_bind hs
      have hround : (putByte s t b >>= wakeReader) = .ok s₁ := by
        rw [h₀]
        exact h₁
      obtain ⟨hsz₁, ht₁, hp₁, hu₁, -⟩ := putByte_counts hsz hround
      refine ih hsz₁ ?_ hs
      unfold Lost at hl ⊢
      rw [ht₁, hp₁]
      omega

/-! ## 6. One action -/

/-- A woken task that finds what it waited for. -/
theorem runOn_inv (h : Inv s) (ht : t ∉ s.sched.blockList) {p : Pc} (hp : Finds s p) :
    ∃ s', runOn s t p = .ok s' ∧ Inv s' := by
  cases p with
  | out => exact ⟨s, rfl, h⟩
  | reading left =>
    obtain ⟨s₁, hrun, h₁, ht₁, hr₁⟩ := takeByte_inv h ht hp
    obtain ⟨s₂, hrun₂, h₂⟩ := pipeRead_inv left h₁ ht₁ hr₁
    obtain ⟨s₀, h₀, hw⟩ := ok_of_bind hrun
    refine ⟨s₂, ?_, h₂⟩
    rw [runOn, h₀]
    show (wakeWriter s₀ >>= _) = _
    rw [hw]
    exact hrun₂
  | writing b left =>
    obtain ⟨s₁, hrun, h₁, ht₁, hr₁⟩ := putByte_inv h ht hp b
    obtain ⟨s₂, hrun₂, h₂⟩ := pipeWrite_inv left h₁ ht₁ hr₁
    obtain ⟨s₀, h₀, hw⟩ := ok_of_bind hrun
    refine ⟨s₂, ?_, h₂⟩
    rw [runOn, h₀]
    show (wakeReader s₀ >>= _) = _
    rw [hw]
    exact hrun₂

/-- A woken task that does not: a reader stops the kernel, a writer has the oldest byte dropped. -/
theorem runOn_not_finds (h : Inv s) {p : Pc} (hp : ¬ Finds s p) {s' : State}
    (hs : runOn s t p = .ok s') : Lost s' := by
  cases p with
  | out => exact absurd trivial hp
  | reading left =>
    have he : fifoEmpty s.fifo = true := by simpa [Finds] using hp
    rw [runOn, takeByte, fifoGet_empty he] at hs
    cases hs
  | writing b left =>
    have hfull : fifoFull s.fifo = true := by simpa [Finds] using hp
    obtain ⟨s₀, h₀, hs⟩ := ok_of_bind hs
    obtain ⟨s₁, h₁, hs⟩ := ok_of_bind hs
    have hround : (putByte s t b >>= wakeReader) = .ok s₁ := by
      rw [h₀]
      exact h₁
    obtain ⟨hsz₁, ht₁, hp₁, -, hu₁⟩ := putByte_counts h.sized hround
    refine pipeWrite_lost left hsz₁ ?_ hs
    have := hu₁ hfull
    have e := congrArg List.length h.order
    simp only [List.length_map, List.length_append, Fifo.length_contents] at e
    unfold Lost
    rw [ht₁, hp₁]
    omega

/-- **An action in turn completes and keeps the invariant.** -/
theorem act_inTurn (h : Inv s) {a : Action} (ha : Enabled s a) (hP : InTurn s a) :
    ∃ s', act s a = .ok s' ∧ Inv s' := by
  cases a with
  | read t count =>
    rcases hP with rfl | hr
    · exact ⟨_, rfl, h.setPc (h.awake ha) .out⟩
    · exact pipeRead_inv count h (h.awake ha) hr
  | write t buf =>
    rcases hP with rfl | hr
    · exact ⟨_, rfl, h.setPc (h.awake ha) .out⟩
    · exact pipeWrite_inv buf h (h.awake ha) hr
  | resume t => exact runOn_inv h ((h.fair.ready t).mp ha.2) hP

/-- **Any other action stops the kernel or loses a byte.** -/
theorem act_not_inTurn (h : Inv s) {a : Action} (hP : ¬ InTurn s a) {s' : State}
    (hs : act s a = .ok s') : Lost s' := by
  cases a with
  | read t count =>
    obtain ⟨hc, hr⟩ := not_or.mp hP
    obtain ⟨n, rfl⟩ := Nat.exists_eq_succ_of_ne_zero hc
    have hs : pipeRead t (n + 1) s = .ok s' := hs
    rw [pipeRead, if_pos (h.empty hr), Option.isNone_eq_false_iff.mpr
      (Option.isSome_iff_ne_none.mpr hr)] at hs
    cases hs
  | write t buf =>
    obtain ⟨hc, hr⟩ := not_or.mp hP
    obtain ⟨b, l, rfl⟩ := List.exists_cons_of_ne_nil hc
    have hs : pipeWrite t (b :: l) s = .ok s' := hs
    rw [pipeWrite, if_pos (h.full hr), Option.isNone_eq_false_iff.mpr
      (Option.isSome_iff_ne_none.mpr hr)] at hs
    cases hs
  | resume t => exact runOn_not_finds h hP hs

/-! ## 7. All runs -/

theorem reached_inv (h : Reached InTurn s) : Inv s := by
  induction h with
  | init page => exact inv_init page
  | step _ a ha hP hs ih =>
    obtain ⟨s₁, h₁, hi⟩ := act_inTurn ih ha hP
    exact Except.ok.inj (h₁.symm.trans hs) ▸ hi

/-- **A pipe whose tasks take turns**: in every state reached the readers have got what the writers
    have put, in order; and the next action completes and keeps it so if and only if it is in
    turn. -/
theorem delivered_inTurn (h : Reached InTurn s) :
    Delivered s ∧ ∀ a, Enabled s a → ((∃ s', act s a = .ok s' ∧ Delivered s') ↔ InTurn s a) := by
  refine ⟨(reached_inv h).toDelivered, fun a ha => ⟨fun ⟨s', hs, hd⟩ => ?_, fun hP => ?_⟩⟩
  · by_contra hP
    exact hd.not_lost (act_not_inTurn (reached_inv h) hP hs)
  · obtain ⟨s', hs, hi⟩ := act_inTurn (reached_inv h) ha hP
    exact ⟨s', hs, hi.toDelivered⟩

/-- A reader sleeps, a writer wakes it, it runs on: the byte is in its buffer. -/
theorem delivered_inTurn_one : ∃ s, Reached InTurn s ∧ s.bufs 0 = [65] ∧ Delivered s := by
  have h₁ := (Reached.init fun _ => 0).step (.read 0 1) (P := InTurn) rfl (.inr rfl) rfl
  have h₂ := h₁.step (.write 1 [65]) rfl (.inr rfl) rfl
  have h₃ := h₂.step (.resume 0) ⟨nofun, rfl⟩ rfl rfl
  exact ⟨_, h₃, rfl, (delivered_inTurn h₃).1⟩

/-- Task 0 sleeps in `pipe_read`, task 1 writes one byte and wakes it, and task 2 reads that byte
    before task 0 runs: `fifo_get` finds the ring empty. -/
theorem stolen_byte :
    ∃ s, Reached (fun _ _ => True) s ∧ Enabled s (.resume 0) ∧
      act s (.resume 0) = .error .assertion := by
  have h₁ := (Reached.init fun _ => 0).step (.read 0 1) (P := fun _ _ => True) rfl trivial rfl
  have h₂ := h₁.step (.write 1 [65]) rfl trivial rfl
  have h₃ := h₂.step (.read 2 1) rfl trivial rfl
  exact ⟨_, h₃, ⟨nofun, rfl⟩, rfl⟩

theorem delivered_not_always :
    ¬ ∀ s, Reached (fun _ _ => True) s →
      Delivered s ∧ ∀ a, Enabled s a → ∃ s', act s a = .ok s' ∧ Delivered s' := by
  intro h
  obtain ⟨s, hs, ha, he⟩ := stolen_byte
  obtain ⟨s', hs', -⟩ := (h s hs).2 _ ha
  rw [he] at hs'
  cases hs'

end Yuios.Pipe
