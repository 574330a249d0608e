/-
  File:      Yuios/Cache/LastWrite.lean
  Subject:   THE LAST CHANGE OF A BUFFER AND THE DISK: several tasks hold one buffer, change it,
             write it and give it back.

  The driver takes a block sector by sector, and `bwrite` clears `dirty` when it is done. Whoever
  changes a sector in between that the disk has got already has set a flag that `bwrite` takes
  away; the `brelse` that follows finds the buffer clean.

  * `released_written` -- with no such change, and none of a sector that belongs to two blocks in
    use, the disk has the data of every buffer that nobody holds.
  * `lostUpdate`, `tornUpdate` -- runs of two tasks in which it has not.
-/
import Yuios.Cache.Refine

namespace Yuios.BufferCache

variable {α : Type}

/-! ## 1. The buffers nobody holds -/

/-- The block of the device is what the buffer holds. -/
def State.Written (s : State α) (bf : Nat) : Prop := ∀ i, s.disk (s.place bf i) = (s.buf bf).data i

/-- **Once every task has released a buffer, the disk has its data**, in every run in which every
    change is made with care: no task changes a sector of a buffer between its transfer in a write of
    the buffer and the end of that write, and none a block that shares a sector with another one that
    the run asks for. -/
theorem released_written {keys : Set (Int × Nat)} {w : World α} (h : Used keys (Careful keys) w) {bf : Nat}
    (hb : w.cache.Made bf) (hfree : ∀ t, (t, bf) ∉ w.refs) : w.cache.Written bf := by
  obtain ⟨-, hk⟩ := used_kept (fun (_ : True) _ _ _ hc => hc) h
  have hbf := hk.bufs bf hb
  have hcount : (w.cache.buf bf).count = 0 := by
    rw [hbf.count, countRefs, List.countP_eq_zero.mpr]
    · rfl
    · intro r hr e
      exact hfree r.1 (beq_iff_eq.mp e ▸ hr)
  have hvalid : (w.cache.buf bf).valid = true :=
    (Bool.eq_false_or_eq_true _).resolve_right fun hv => hbf.idle hv hcount
  have hclean : (w.cache.buf bf).dirty = false :=
    Bool.eq_false_iff.mpr fun hd => (hbf.dirty hd).2 hcount
  exact fun i => (hbf.clean trivial hclean i).trans (hbf.data trivial hvalid i).symm

/-! ## 2. Runs that can be computed -/

/-- A step of the users, as an instruction. -/
inductive Act (α : Type) where
  | bread (t : Nat) (dev : Int) (block : Nat)
  | touch (t bf : Nat) (data : Sectors α)
  | bwrite (t bf : Nat)
  | brelse (t bf : Nat)
  | resume (t : Nat)

/-- The state after a step that ran. -/
def ran (r : Except Stop (State α)) (f : State α → World α) : Option (World α) :=
  match r with
  | .ok s => some (f s)
  | .error _ => none

def World.act (w : World α) : Act α → Option (World α)
  | .bread t dev block =>
    if w.cache.pc t = .out then
      ran (start w.cache t (.bread dev block)) fun s =>
        ⟨s, (s.got t).toList.map (fun bf => (t, bf)) ++ w.refs, w.store⟩
    else none
  | .touch t bf data =>
    if w.cache.pc t = .out ∧ (t, bf) ∈ w.refs then
      ran (start w.cache t (.touch bf data)) fun s =>
        ⟨s, w.refs, setBlock w.store (w.cache.place bf) data⟩
    else none
  | .bwrite t bf =>
    if w.cache.pc t = .out ∧ (t, bf) ∈ w.refs then
      ran (start w.cache t (.bwrite bf)) fun s => ⟨s, w.refs, w.store⟩
    else none
  | .brelse t bf =>
    if w.cache.pc t = .out ∧ (t, bf) ∈ w.refs then
      ran (start w.cache t (.brelse bf)) fun s =>
        ⟨s, if s.pc t = .out then w.refs.erase (t, bf) else w.refs, w.store⟩
    else none
  | .resume t =>
    if runnable w.cache t = true then
      ran (resume w.cache t) fun s => ⟨s, w.resumed t, w.store⟩
    else none

theorem ran_some {r : Except Stop (State α)} {f : State α → World α} {w : World α}
    (h : ran r f = some w) : ∃ s, r = .ok s ∧ f s = w := by
  cases r with
  | error e => cases h
  | ok s => exact ⟨s, rfl, Option.some.inj h⟩

/-- An instruction that runs is a step of the users, if the users may ask for that block and make that
    change. -/
theorem act_uses {keys : Set (Int × Nat)} {Ok : State α → Nat → Sectors α → Prop} {w w' : World α} {a : Act α}
    (hask : ∀ t dev block, a = .bread t dev block → (dev, block) ∈ keys)
    (hok : ∀ t bf data, a = .touch t bf data → Ok w.cache bf data) (h : w.act a = some w') :
    Uses keys Ok w w' := by
  cases a with
  | bread t dev block =>
    obtain ⟨hpc, h⟩ := Option.ite_none_right_eq_some.mp h
    obtain ⟨s, hs, rfl⟩ := ran_some h
    exact .bread t dev block hpc (hask t dev block rfl) hs
  | touch t bf data =>
    obtain ⟨⟨hpc, hr⟩, h⟩ := Option.ite_none_right_eq_some.mp h
    obtain ⟨s, hs, rfl⟩ := ran_some h
    exact .touch t bf data hpc hr (hok t bf data rfl) hs
  | bwrite t bf =>
    obtain ⟨⟨hpc, hr⟩, h⟩ := Option.ite_none_right_eq_some.mp h
    obtain ⟨s, hs, rfl⟩ := ran_some h
    exact .bwrite t bf hpc hr hs
  | brelse t bf =>
    obtain ⟨⟨hpc, hr⟩, h⟩ := Option.ite_none_right_eq_some.mp h
    obtain ⟨s, hs, rfl⟩ := ran_some h
    exact .brelse t bf hpc hr hs
  | resume t =>
    obtain ⟨hrun, h⟩ := Option.ite_none_right_eq_some.mp h
    obtain ⟨s, hs, rfl⟩ := ran_some h
    exact .resume t hrun hs

/-- Instruction after instruction, each of which passes the check. -/
def World.play (check : World α → Act α → Bool) : World α → List (Act α) → Option (World α)
  | w, [] => some w
  | w, a :: as => if check w a then (w.act a).bind fun w' => World.play check w' as else none

theorem play_used {keys : Set (Int × Nat)} {Ok : State α → Nat → Sectors α → Prop}
    {check : World α → Act α → Bool} (hask : ∀ w t dev block, check w (.bread t dev block) → (dev, block) ∈ keys)
    (hok : ∀ w t bf data, Used keys Ok w → check w (.touch t bf data) → Ok w.cache bf data) {w w' : World α}
    (hw : Used keys Ok w) {as : List (Act α)} (h : w.play check as = some w') : Used keys Ok w' := by
  induction as generalizing w with
  | nil => exact Option.some.inj h ▸ hw
  | cons a as ih =>
    obtain ⟨hc, h⟩ := Option.ite_none_right_eq_some.mp h
    obtain ⟨w₁, ha, h⟩ := Option.bind_eq_some_iff.mp h
    refine ih (hw.step (act_uses (fun t dev block e => ?_) (fun t bf data e => ?_) ha)) h
    · exact hask w t dev block (e ▸ hc)
    · exact hok w t bf data hw (e ▸ hc)

/-- The disk has a sector from a write of task `t` that the change would alter. -/
def State.late [DecidableEq α] (s : State α) (t bf : Nat) (data : Sectors α) : Bool :=
  match s.pc t with
  | .writing x _ done _ => x == bf && decide (∃ i : Fin BLOCK_SECS, i.val < done ∧ data i ≠ (s.buf bf).data i)
  | _ => false

/-- The users keep to one block, and look at the writes of the tasks that have the buffer before they
    change it. -/
def oneBlock [DecidableEq α] (key : Int × Nat) (w : World α) : Act α → Bool
  | .bread _ dev block => (dev, block) == key
  | .touch _ bf data => w.cache.key bf == key && w.refs.all fun r => !w.cache.late r.1 bf data
  | _ => true

/-- Only who has a reference writes. -/
theorem careful_of_oneBlock [DecidableEq α] {key : Int × Nat} {w : World α} {t bf : Nat} {data : Sectors α}
    (hw : Used {key} (Careful {key}) w) (h : oneBlock key w (.touch t bf data)) :
    Careful {key} w.cache bf data := by
  obtain ⟨-, hk⟩ := used_kept (fun (_ : True) _ _ _ hc => hc) hw
  obtain ⟨hkey, hlate⟩ := Bool.and_eq_true_iff.mp h
  refine ⟨fun u r done rel hpc i hi => ?_, fun k hk' hne => ?_⟩
  · have htask := hk.tasks u nofun
    rw [hpc] at htask
    have := List.all_eq_true.mp hlate _ htask.1
    by_contra hne
    have hex : ∃ i : Fin BLOCK_SECS, i.val < done ∧ data i ≠ (w.cache.buf bf).data i := ⟨i, hi, hne⟩
    simp [State.late, hpc, hex] at this
  · rw [beq_iff_eq.mp hkey] at hne
    exact absurd (Set.mem_singleton_iff.mp hk') hne

/-! ## 3. Runs of two tasks -/

section Runs

/-- The memory for buffers as it is, and disks full of zeros. -/
def fresh : World Nat := ⟨init (fun _ => blankBuffer) Disk.bootTable fun _ => 0, [], fun _ => 0⟩

theorem fresh_used (keys : Set (Int × Nat)) (Ok : State Nat → Nat → Sectors Nat → Prop) : Used keys Ok fresh :=
  .init _ _ _ _

/-- Both have block 0 of device 5. Task 0 changes it and writes it; when the disk has the first sector,
    task 1 changes the second; the write is completed; both give it back. -/
def sharedUpdate : List (Act Nat) :=
  [.bread 0 5 0, .resume 0, .resume 0, .resume 0, .bread 1 5 0, .touch 0 KERNEL_BUFFER_MEM fun _ => 1,
    .bwrite 0 KERNEL_BUFFER_MEM, .resume 0, .touch 1 KERNEL_BUFFER_MEM fun i => 1 + i, .resume 0, .resume 0,
    .brelse 0 KERNEL_BUFFER_MEM, .brelse 1 KERNEL_BUFFER_MEM]

/-- The same, but the second change concerns both sectors, which the disk has by then. -/
def lostUpdate : List (Act Nat) :=
  [.bread 0 5 0, .resume 0, .resume 0, .resume 0, .bread 1 5 0, .touch 0 KERNEL_BUFFER_MEM fun _ => 1,
    .bwrite 0 KERNEL_BUFFER_MEM, .resume 0, .resume 0, .touch 1 KERNEL_BUFFER_MEM fun _ => 2, .resume 0,
    .brelse 0 KERNEL_BUFFER_MEM, .brelse 1 KERNEL_BUFFER_MEM]

/-- Who holds the buffer, how many there are, its data, and what is in its block of the disk. -/
def outcome (w : World Nat) : List (Nat × Nat) × Nat × List Nat × List Nat :=
  let bf := KERNEL_BUFFER_MEM
  (w.refs, w.cache.bufferCount, List.ofFn (w.cache.buf bf).data, List.ofFn (w.cache.disk ∘ w.cache.place bf))

/-- Nobody holds the buffer, and the disk has both changes, or only the first. -/
theorem updates_end : (fresh.play (oneBlock (5, 0)) sharedUpdate).map outcome = some ([], 1, [1, 2], [1, 2]) ∧
    (fresh.play (fun _ _ => true) lostUpdate).map outcome = some ([], 1, [2, 2], [1, 1]) := by
  constructor <;> decide +kernel

/-- **A change of the second sector in time** is on the disk in the end. -/
theorem released_written_shared : ∃ w : World Nat, Used {(5, 0)} (Careful {(5, 0)}) w ∧ w.refs = [] ∧
    (w.cache.buf KERNEL_BUFFER_MEM).data 1 = 2 ∧ w.cache.Written KERNEL_BUFFER_MEM := by
  obtain ⟨w, hw, e⟩ := Option.map_eq_some_iff.mp updates_end.1
  simp only [outcome, Prod.mk.injEq] at e
  obtain ⟨hrefs, hcount, hdata, -⟩ := e
  have hused : Used {(5, 0)} (Careful {(5, 0)}) w :=
    play_used (fun _ _ _ _ h => Set.mem_singleton_iff.mpr (beq_iff_eq.mp h)) (fun _ _ _ _ => careful_of_oneBlock)
      (fresh_used _ _) hw
  have hdata : (w.cache.buf KERNEL_BUFFER_MEM).data 1 = 2 := Option.some.inj (congrArg (·[1]?) hdata)
  exact ⟨w, hused, hrefs, hdata, released_written hused ⟨0, by rw [hcount]; decide, rfl⟩
    fun t => by rw [hrefs]; exact List.not_mem_nil⟩

/-- **The second change is lost.** -/
theorem released_written_not_always : ¬ ∀ w : World Nat, Used Set.univ (fun _ _ _ => True) w → ∀ bf,
    w.cache.Made bf → (∀ t, (t, bf) ∉ w.refs) → w.cache.Written bf := by
  intro h
  obtain ⟨w, hw, e⟩ := Option.map_eq_some_iff.mp updates_end.2
  simp only [outcome, Prod.mk.injEq] at e
  obtain ⟨hrefs, hcount, hdata, hdisk⟩ := e
  have hused : Used Set.univ (fun _ _ _ => True) w :=
    play_used (fun _ _ _ _ _ => Set.mem_univ _) (fun _ _ _ _ _ _ => trivial) (fresh_used _ _) hw
  have := h w hused KERNEL_BUFFER_MEM ⟨0, by rw [hcount]; decide, rfl⟩
    (fun t => by rw [hrefs]; exact List.not_mem_nil) 0
  have hdata : (w.cache.buf KERNEL_BUFFER_MEM).data 0 = 2 := Option.some.inj (congrArg (·[0]?) hdata)
  have hdisk : w.cache.disk (w.cache.place KERNEL_BUFFER_MEM 0) = 1 := Option.some.inj (congrArg (·[0]?) hdisk)
  rw [hdisk, hdata] at this
  cases this

/-- The second change comes between the two sectors. -/
def tornUpdate : List (Act Nat) :=
  [.bread 0 5 0, .resume 0, .resume 0, .resume 0, .bread 1 5 0, .touch 0 KERNEL_BUFFER_MEM fun _ => 1,
    .bwrite 0 KERNEL_BUFFER_MEM, .resume 0, .touch 1 KERNEL_BUFFER_MEM fun _ => 2, .resume 0, .resume 0,
    .brelse 0 KERNEL_BUFFER_MEM, .brelse 1 KERNEL_BUFFER_MEM]

-- half of it is lost
example : (fresh.play (fun _ _ => true) tornUpdate).map outcome = some ([], 1, [2, 2], [1, 2]) := by
  decide +kernel

end Runs

end Yuios.BufferCache
