/-
  File:      Yuios/Shell/Exec.lean
  Subject:   A COMMAND LINE IS RUN: `builtin_exec`, `dupfile` and `builtin_command` of
             `builtin/osh.c`, with the descriptors the shell has open and the children it has.

  `Outcomes` says which files can be opened, which commands exist and which pipes are made; `System`
  decides the rest as the calls document it: which free descriptor, whether a process can be forked
  and its number, which child is waited for first.

  * `pipeline` -- the places of a line where a command's name stands and where a pipe is made.
  * `Sound` -- the lines on which nothing goes wrong: every command is found and the first pipe is
    made, or a redirection fails, or the first command is missing and nothing is redirected.
  * **`builtinExec_settles`** -- whatever the system decides, the shell has the descriptors it had and
    has waited for the children it forked, exactly on those lines.
-/
import Mathlib.Data.Finset.Basic
import Mathlib.Data.Finset.Lattice.Fold
import Mathlib.Data.Finset.SDiff
import Mathlib.Order.Lattice.Nat
import Mathlib.Tactic.SplitIfs

namespace Yuios.Osh

/-! ## 1. The system calls -/

def EOF : Int := -1

def O_RDONLY : Nat := 0
def O_WRONLY : Nat := 1
def O_CREAT : Nat := 64
def O_APPEND : Nat := 1024

/-- What `builtin_command` gives a child: its descriptors, the file, and the place of its arguments;
    no name where the buffer has not been written. -/
structure Child where
  pid : Nat
  filename : Option String
  argv : Option Nat
  infd : Int
  outfd : Int
  errfd : Int

/-- The shell as the system sees it: the open descriptors and the children not waited for; and the
    children forked and waited for in this call, in order. -/
structure Shell where
  fds : Finset Nat
  children : List Nat
  forked : List Child
  waited : List Nat
  calls : Nat

/-- Which calls succeed: `open` by the slot of `dupfd`, `stat` and `pipe` by the place in `argv`. -/
structure Outcomes where
  opens : Fin 3 → String → Nat → Bool
  stats : Nat → String → Bool
  pipes : Nat → Bool

/-- What the system decides, call by call, as its calls are documented: a new descriptor was not open, a
    new child is none of the children, and it is a child that `waitpid(-1, ..)` waits for. `junk` is in
    `pipefd` before the first pipe. -/
structure System where
  fd : Nat → Finset Nat → Nat
  fork : Nat → List Nat → Option Nat
  reap : Nat → List Nat → Nat
  junk : Int × Int
  fd_free : ∀ n s, fd n s ∉ s
  fork_new : ∀ n cs pid, fork n cs = some pid → pid ∉ cs
  reap_mem : ∀ n cs, cs ≠ [] → reap n cs ∈ cs

/-- The open descriptor that a number can mean; `EOF` means none. -/
def handles (fd : Int) : Finset Nat := if 0 ≤ fd then {fd.toNat} else ∅

def sysOpen (k : System) (found : Bool) (s : Shell) : Int × Shell :=
  if found then
    let fd := k.fd s.calls s.fds
    (fd, { s with fds := insert fd s.fds, calls := s.calls + 1 })
  else (EOF, { s with calls := s.calls + 1 })

def sysClose (fd : Int) (s : Shell) : Shell :=
  { s with fds := s.fds \ handles fd, calls := s.calls + 1 }

/-- A pipe that is not made leaves `pipefd` as it was. -/
def sysPipe (k : System) (made : Bool) (pipefd : Int × Int) (s : Shell) : (Int × Int) × Shell :=
  if made then
    let r := k.fd s.calls s.fds
    let w := k.fd s.calls (insert r s.fds)
    ((r, w), { s with fds := insert w (insert r s.fds), calls := s.calls + 1 })
  else (pipefd, { s with calls := s.calls + 1 })

/-- `fork`, in the process that called it. -/
def sysFork (k : System) (child : Nat → Child) (s : Shell) : Shell :=
  match k.fork s.calls s.children with
  | some pid =>
    { s with children := pid :: s.children, forked := s.forked ++ [child pid], calls := s.calls + 1 }
  | none => { s with calls := s.calls + 1 }

def sysWaitpid (k : System) (s : Shell) : Shell :=
  if s.children = [] then { s with calls := s.calls + 1 }
  else
    let pid := k.reap s.calls s.children
    { s with children := s.children.erase pid, waited := s.waited ++ [pid], calls := s.calls + 1 }

/-! ## 2. The code -/

/-- The files that `dupfile` finds in the arguments. -/
structure Redirects where
  infile : Option String := none
  outfile : Option String := none
  errfile : Option String := none
  outappend : Nat := 0
  errappend : Nat := 0

/-- The five tests on `argv[i]`, with the argument behind it. -/
def redirect (op file : String) (r : Redirects) : Option Redirects :=
  if op = "<" then some { r with infile := file }
  else if op = ">" then some { r with outfile := file }
  else if op = ">>" then some { r with outfile := file, outappend := O_APPEND }
  else if op = "2>" then some { r with errfile := file }
  else if op = "2>>" then some { r with errfile := file, errappend := O_APPEND }
  else none

/-- The first loop of `dupfile`: each operator becomes `NULL`, the file behind it stays. -/
def redirects : List String → Redirects → List (Option String) × Redirects
  | op :: file :: rest, r =>
    match redirect op file r with
    | some r => ((redirects rest r).1.cons (some file) |>.cons none, (redirects rest r).2)
    | none => ((redirects (file :: rest) r).1.cons (some op), (redirects (file :: rest) r).2)
  | args, r => (args.map some, r)

/-- The three blocks behind it: the slot of `dupfd`, the file and the flags of its `open`. -/
def Redirects.blocks (r : Redirects) : List (Fin 3 × Option String × Nat) :=
  [(0, r.infile, O_RDONLY ||| r.outappend ||| O_CREAT),
    (1, r.outfile, O_WRONLY ||| r.outappend ||| O_CREAT),
    (2, r.errfile, O_WRONLY ||| r.errappend ||| O_CREAT)]

/-- `if (fd != EOF) close(fd);` -/
def closeFd (fd : Int) (s : Shell) : Shell := if fd ≠ EOF then sysClose fd s else s

/-- The blocks in order; the first `open` that fails goes to `rollback`. -/
def openBlocks (w : Outcomes) (k : System) :
    List (Fin 3 × Option String × Nat) → (Fin 3 → Int) → Shell → Option (Fin 3 → Int) × Shell
  | [], dupfd, s => (some dupfd, s)
  | (_, none, _) :: blocks, dupfd, s => openBlocks w k blocks dupfd s
  | (slot, some file, flags) :: blocks, dupfd, s =>
    let (fd, s) := sysOpen k (w.opens slot file flags) s
    if fd = EOF then (none, closeFd (dupfd 2) (closeFd (dupfd 1) (closeFd (dupfd 0) s)))
    else openBlocks w k blocks (Function.update dupfd slot fd) s

/-- `dupfile` behind its first loop. -/
def dupfile (w : Outcomes) (k : System) (r : Redirects) (s : Shell) : Option (Fin 3 → Int) × Shell :=
  openBlocks w k r.blocks (fun _ => EOF) s

/-- What the shell does in `builtin_command`; the child does not return from it. -/
def builtinCommand (k : System) (filename : Option String) (argv : Option Nat) (infd outfd errfd : Int)
    (s : Shell) : Shell :=
  let s := sysFork k (fun pid => ⟨pid, filename, argv, infd, outfd, errfd⟩) s
  closeFd errfd (closeFd outfd (closeFd infd s))

/-- The variables of `builtin_exec`. -/
structure Exec where
  p : Bool
  name : Option String
  bargv : Option Nat
  infd : Int
  pipefd : Int × Int
  count : Nat
  shell : Shell

/-- `sprintf(name, "/bin/%s.out", argv[i])` -/
def binPath (arg : String) : String := "/bin/" ++ arg ++ ".out"

/-- What is done at a `|`. Behind the name in the buffer nothing is known. -/
def Exec.pipe (w : Outcomes) (k : System) (i : Nat) (e : Exec) : Exec :=
  let (pipefd, s) := sysPipe k (w.pipes i) e.pipefd e.shell
  let s := builtinCommand k e.name e.bargv e.infd pipefd.2 EOF s
  ⟨true, none, e.bargv, pipefd.1, pipefd, e.count + 1, s⟩

/-- The loop over `argv`; an error is the shell as the early return leaves it. -/
def execLoop (w : Outcomes) (k : System) : Nat → List (Option String) → Exec → Except Shell Exec
  | _, [], e => .ok e
  | i, none :: args, e => execLoop w k (i + 1) args e
  | i, some arg :: args, e =>
    if e.p = false ∧ arg = "|" then execLoop w k (i + 1) args (e.pipe w k i)
    else if e.p = false then execLoop w k (i + 1) args e
    else if w.stats i (binPath arg) = false then .error e.shell
    else execLoop w k (i + 1) args { e with name := some (binPath arg), bargv := some (i + 1), p := false }

/-- `n` turns of the loop around `waitpid`. -/
def waitLoop (k : System) : Nat → Shell → Shell
  | 0, s => s
  | n + 1, s => waitLoop k n (sysWaitpid k s)

def builtinExec (w : Outcomes) (k : System) (argv : List String) (s : Shell) : Shell :=
  let (args, r) := redirects argv {}
  match dupfile w k r s with
  | (none, s) => s
  | (some dupfd, s) =>
    match execLoop w k 0 args ⟨true, none, none, dupfd 0, k.junk, 0, s⟩ with
    | .error s => s
    | .ok e => waitLoop k (e.count + 1) (builtinCommand k e.name e.bargv e.infd (dupfd 1) (dupfd 2) e.shell)

/-! ## 3. What is to hold -/

/-- The descriptors are those before the call, and each child forked has been waited for, no other one. -/
structure Settled (fds : Finset Nat) (s : Shell) : Prop where
  fds : s.fds = fds
  waited : s.waited.Perm (s.forked.map Child.pid)

/-- What the loop comes to in the arguments. -/
inductive Part where
  | command (i : Nat) (arg : String)
  | pipe (i : Nat)

/-- The parts of the arguments from the `i`-th on; `p`: a command's name comes next. -/
def parts : Bool → Nat → List (Option String) → List Part
  | _, _, [] => []
  | p, i, none :: args => parts p (i + 1) args
  | p, i, some arg :: args =>
    if p = false ∧ arg = "|" then .pipe i :: parts true (i + 1) args
    else if p = false then parts p (i + 1) args
    else .command i arg :: parts false (i + 1) args

/-- The parts of a command line, when the redirections are out. -/
def pipeline (argv : List String) : List Part := parts true 0 (redirects argv {}).1

def firstPipe : List Part → Option Nat
  | [] => none
  | .pipe i :: _ => some i
  | .command _ _ :: ps => firstPipe ps

/-- Every command of the parts exists. -/
def AllFound (w : Outcomes) (ps : List Part) : Prop :=
  ∀ i arg, .command i arg ∈ ps → w.stats i (binPath arg) = true

/-- A file of a redirection cannot be opened. -/
def Refused (w : Outcomes) (r : Redirects) : Prop :=
  ∃ slot file flags, (slot, some file, flags) ∈ r.blocks ∧ w.opens slot file flags = false

/-- No redirection. -/
def Bare (r : Redirects) : Prop := ∀ b ∈ r.blocks, b.2.1 = none

/-- The lines on which nothing goes wrong, for a shell with these descriptors and these children. -/
inductive Sound (w : Outcomes) (fds : Finset Nat) (children : List Nat) (argv : List String) : Prop where
  | refused (h : Refused w (redirects argv {}).2)
  | missing (bare : Bare (redirects argv {}).2) (i : Nat) (arg : String) (ps : List Part)
      (first : pipeline argv = .command i arg :: ps) (missing : w.stats i (binPath arg) = false)
  | found (all : AllFound w (pipeline argv)) (childless : children = [])
      (made : (∀ i, firstPipe (pipeline argv) = some i → w.pipes i = true) ∨ fds = ∅)

/-! ## 4. The calls -/

section Calls

variable {k : System} {s : Shell} {fd : Int} {n : Nat}

@[simp] theorem mem_handles : n ∈ handles fd ↔ fd = n := by
  unfold handles
  split
  · rw [Finset.mem_singleton]
    omega
  · simp
    omega

@[simp] theorem mem_closeFd : n ∈ (closeFd fd s).fds ↔ n ∈ s.fds ∧ fd ≠ n := by
  unfold closeFd
  split
  · simp [sysClose]
  · rename_i h
    rw [not_not.mp h]
    simp [EOF]

@[simp] theorem children_closeFd : (closeFd fd s).children = s.children := by
  unfold closeFd
  split <;> rfl

@[simp] theorem forked_closeFd : (closeFd fd s).forked = s.forked := by
  unfold closeFd
  split <;> rfl

@[simp] theorem waited_closeFd : (closeFd fd s).waited = s.waited := by
  unfold closeFd
  split <;> rfl

variable {child : Nat → Child}

@[simp] theorem fds_sysFork : (sysFork k child s).fds = s.fds := by
  unfold sysFork
  split <;> rfl

@[simp] theorem waited_sysFork : (sysFork k child s).waited = s.waited := by
  unfold sysFork
  split <;> rfl

/-- A fork leaves the processes as they are, or adds a child with a new number. -/
theorem sysFork_cases (k : System) (child : Nat → Child) (s : Shell) :
    ((sysFork k child s).children = s.children ∧ (sysFork k child s).forked = s.forked) ∨
      ∃ pid, pid ∉ s.children ∧ (sysFork k child s).children = pid :: s.children ∧
        (sysFork k child s).forked = s.forked ++ [child pid] := by
  unfold sysFork
  split
  · rename_i pid h
    exact .inr ⟨pid, k.fork_new _ _ _ h, rfl, rfl⟩
  · exact .inl ⟨rfl, rfl⟩

/-- Waiting as often as there are children waits for all. -/
theorem waitLoop_perm (hn : s.children.length ≤ n) :
    (waitLoop k n s).waited.Perm (s.waited ++ s.children) := by
  induction n generalizing s with
  | zero => rw [List.length_eq_zero_iff.mp (Nat.le_zero.mp hn), List.append_nil]; rfl
  | succ n ih =>
    rw [waitLoop]
    unfold sysWaitpid
    split
    · exact ih (s := { s with calls := s.calls + 1 }) (by simp_all)
    · rename_i hne
      have hmem := k.reap_mem s.calls s.children hne
      refine (ih ?_).trans ?_
      · simp only [List.length_erase_of_mem hmem]
        omega
      · rw [List.append_assoc]
        exact (List.perm_cons_erase hmem).symm.append_left s.waited

theorem fds_waitLoop (k : System) (n : Nat) (s : Shell) : (waitLoop k n s).fds = s.fds := by
  induction n generalizing s with
  | zero => rfl
  | succ n ih =>
    rw [waitLoop, ih, sysWaitpid]
    split <;> rfl

theorem forked_waitLoop (k : System) (n : Nat) (s : Shell) : (waitLoop k n s).forked = s.forked := by
  induction n generalizing s with
  | zero => rfl
  | succ n ih =>
    rw [waitLoop, ih, sysWaitpid]
    split <;> rfl

end Calls

/-! ## 5. The redirections -/

/-- The shell holds the descriptors it had, and those in `dupfd`, which it had not. -/
structure Held (fds : Finset Nat) (dupfd : Fin 3 → Int) (s : Shell) : Prop where
  mem : ∀ n, n ∈ s.fds ↔ n ∈ fds ∨ ∃ i, dupfd i = n
  new : ∀ i (n : Nat), dupfd i = n → n ∉ fds

/-- No child is forked or waited for. -/
structure SameChildren (s s' : Shell) : Prop where
  children : s'.children = s.children
  forked : s'.forked = s.forked
  waited : s'.waited = s.waited

theorem SameChildren.trans {s s' s'' : Shell} (h : SameChildren s s') (h' : SameChildren s' s'') :
    SameChildren s s'' :=
  ⟨h'.children.trans h.children, h'.forked.trans h.forked, h'.waited.trans h.waited⟩

section Redirections

variable {w : Outcomes} {k : System} {s s' : Shell} {fds : Finset Nat} {dupfd : Fin 3 → Int}
  {blocks : List (Fin 3 × Option String × Nat)}

theorem sysOpen_same (k : System) (found : Bool) (s : Shell) : SameChildren s (sysOpen k found s).2 := by
  unfold sysOpen
  split <;> exact ⟨rfl, rfl, rfl⟩

theorem openBlocks_granted {slot : Fin 3} {file : String} {flags : Nat} (h : w.opens slot file flags = true) :
    openBlocks w k ((slot, some file, flags) :: blocks) dupfd s =
      openBlocks w k blocks (Function.update dupfd slot (sysOpen k true s).1) (sysOpen k true s).2 := by
  rw [openBlocks, h]
  exact if_neg (by simp [EOF])

theorem openBlocks_refused {slot : Fin 3} {file : String} {flags : Nat} (h : w.opens slot file flags = false) :
    openBlocks w k ((slot, some file, flags) :: blocks) dupfd s =
      (none, closeFd (dupfd 2) (closeFd (dupfd 1) (closeFd (dupfd 0) (sysOpen k false s).2))) := by
  rw [openBlocks, h]
  exact if_pos rfl

theorem openBlocks_same (w : Outcomes) (k : System) (blocks : List (Fin 3 × Option String × Nat))
    (dupfd : Fin 3 → Int) (s : Shell) : SameChildren s (openBlocks w k blocks dupfd s).2 := by
  induction blocks generalizing dupfd s with
  | nil => exact ⟨rfl, rfl, rfl⟩
  | cons block blocks ih =>
    obtain ⟨slot, file, flags⟩ := block
    cases file with
    | none => exact ih dupfd s
    | some file =>
      cases h : w.opens slot file flags with
      | true =>
        rw [openBlocks_granted h]
        exact (sysOpen_same k true s).trans (ih _ _)
      | false =>
        rw [openBlocks_refused h]
        exact (sysOpen_same k false s).trans ⟨by simp, by simp, by simp⟩

/-- A descriptor that is opened joins those held. -/
theorem Held.open (h : Held fds dupfd s) {slot : Fin 3} (hslot : dupfd slot = EOF) :
    Held fds (Function.update dupfd slot (sysOpen k true s).1) (sysOpen k true s).2 := by
  have hfree : k.fd s.calls s.fds ∉ s.fds := k.fd_free s.calls s.fds
  constructor
  · intro n
    show n ∈ insert (k.fd s.calls s.fds) s.fds ↔ _
    rw [Finset.mem_insert, h.mem n]
    constructor
    · rintro (rfl | hn | ⟨i, hi⟩)
      · exact .inr ⟨slot, Function.update_self ..⟩
      · exact .inl hn
      · have hne : i ≠ slot := by
          rintro rfl
          rw [hslot] at hi
          simp [EOF] at hi
        exact .inr ⟨i, (Function.update_of_ne hne ..).trans hi⟩
    · rintro (hn | ⟨i, hi⟩)
      · exact .inr (.inl hn)
      · rcases eq_or_ne i slot with rfl | hne
        · rw [Function.update_self] at hi
          exact .inl (Int.ofNat.inj hi).symm
        · exact .inr (.inr ⟨i, (Function.update_of_ne hne ..).symm.trans hi⟩)
  · intro i n hi
    rcases eq_or_ne i slot with rfl | hne
    · rw [Function.update_self] at hi
      obtain rfl : k.fd s.calls s.fds = n := Int.ofNat.inj hi
      exact fun hn => hfree ((h.mem _).mpr (.inl hn))
    · exact h.new i n ((Function.update_of_ne hne ..).symm.trans hi)

/-- The rollback gives back what was opened. -/
theorem Held.rollback (h : Held fds dupfd s) :
    (closeFd (dupfd 2) (closeFd (dupfd 1) (closeFd (dupfd 0) s))).fds = fds := by
  ext n
  rw [mem_closeFd, mem_closeFd, mem_closeFd, h.mem n]
  constructor
  · rintro ⟨⟨⟨hn | ⟨i, hi⟩, h0⟩, h1⟩, h2⟩
    · exact hn
    · match i with
      | 0 => exact absurd hi h0
      | 1 => exact absurd hi h1
      | 2 => exact absurd hi h2
  · exact fun hn => ⟨⟨⟨.inl hn, fun hi => h.new 0 n hi hn⟩, fun hi => h.new 1 n hi hn⟩,
      fun hi => h.new 2 n hi hn⟩

/-- What `dupfile` comes back with: `EOF` and the descriptors of before, or a descriptor for each file. -/
inductive Opened (w : Outcomes) (fds : Finset Nat) (dupfd : Fin 3 → Int)
    (blocks : List (Fin 3 × Option String × Nat)) : Option (Fin 3 → Int) × Shell → Prop where
  | refused (s' : Shell) (same : s'.fds = fds) (slot : Fin 3) (file : String) (flags : Nat)
      (hmem : (slot, some file, flags) ∈ blocks) (h : w.opens slot file flags = false) :
      Opened w fds dupfd blocks (none, s')
  | granted (d : Fin 3 → Int) (s' : Shell) (held : Held fds d s')
      (granted : ∀ slot file flags, (slot, some file, flags) ∈ blocks →
        w.opens slot file flags = true ∧ ∃ n : Nat, d slot = n)
      (others : ∀ slot, (∀ file flags, (slot, some file, flags) ∉ blocks) → d slot = dupfd slot) :
      Opened w fds dupfd blocks (some d, s')

theorem openBlocks_opened (h : Held fds dupfd s) (hslots : (blocks.map Prod.fst).Nodup)
    (hfree : ∀ b ∈ blocks, dupfd b.1 = EOF) : Opened w fds dupfd blocks (openBlocks w k blocks dupfd s) := by
  induction blocks generalizing dupfd s with
  | nil => exact .granted dupfd s h (fun _ _ _ hm => absurd hm List.not_mem_nil) fun _ _ => rfl
  | cons block blocks ih =>
    obtain ⟨slot, file, flags⟩ := block
    rw [List.map_cons, List.nodup_cons] at hslots
    have hslot : dupfd slot = EOF := hfree _ List.mem_cons_self
    have hrest : ∀ b ∈ blocks, dupfd b.1 = EOF := fun b hb => hfree b (List.mem_cons_of_mem _ hb)
    cases file with
    | none =>
      have hopened := ih h hslots.2 hrest
      rw [openBlocks]
      generalize openBlocks w k blocks dupfd s = result at hopened ⊢
      cases hopened with
      | refused s' same slot' file flags' hmem hno =>
        exact .refused s' same slot' file flags' (List.mem_cons_of_mem _ hmem) hno
      | granted d s' held granted others =>
        refine .granted d s' held (fun slot' file flags' hm => ?_) fun slot' hm => ?_
        · rcases List.mem_cons.mp hm with heq | hm
          · cases heq
          · exact granted slot' file flags' hm
        · exact others slot' fun file flags' hm' => hm file flags' (List.mem_cons_of_mem _ hm')
    | some file =>
      cases hopen : w.opens slot file flags with
      | false =>
        rw [openBlocks_refused hopen]
        exact .refused _ (Held.rollback ⟨h.mem, h.new⟩) slot file flags List.mem_cons_self hopen
      | true =>
        rw [openBlocks_granted hopen]
        have hne : ∀ b ∈ blocks, b.1 ≠ slot := fun b hb heq =>
          hslots.1 (List.mem_map.mpr ⟨b, hb, heq⟩)
        have hfree' : ∀ b ∈ blocks, Function.update dupfd slot (sysOpen k true s).1 b.1 = EOF := fun b hb => by
          rw [Function.update_of_ne (hne b hb)]
          exact hrest b hb
        have hopened := ih (h.open hslot) hslots.2 hfree'
        generalize openBlocks w k blocks _ _ = result at hopened ⊢
        cases hopened with
        | refused s' same slot' file' flags' hmem hno =>
          exact .refused s' same slot' file' flags' (List.mem_cons_of_mem _ hmem) hno
        | granted d s' held granted others =>
          refine .granted d s' held (fun slot' file' flags' hm => ?_) fun slot' hm => ?_
          · rcases List.mem_cons.mp hm with heq | hm
            · cases heq
              have hkept := others slot fun file' flags' hm' => hne _ hm' rfl
              exact ⟨hopen, _, hkept.trans (Function.update_self ..)⟩
            · exact granted slot' file' flags' hm
          · have hslot' : slot' ≠ slot := fun heq => hm file flags (heq ▸ List.mem_cons_self)
            have hkept := others slot' fun file' flags' hm' => hm file' flags' (List.mem_cons_of_mem _ hm')
            exact hkept.trans (Function.update_of_ne hslot' ..)

theorem held_none (s : Shell) : Held s.fds (fun _ => EOF) s := by
  constructor
  · exact fun n => ⟨.inl, fun h => h.elim id fun ⟨_, hi⟩ => by simp [EOF] at hi⟩
  · exact fun i n hi => by simp [EOF] at hi

theorem dupfile_opened (w : Outcomes) (k : System) (r : Redirects) (s : Shell) :
    Opened w s.fds (fun _ => EOF) r.blocks (dupfile w k r s) :=
  openBlocks_opened (held_none s) (show ([0, 1, 2] : List (Fin 3)).Nodup by decide) fun _ _ => rfl

end Redirections

/-! ## 6. The loop -/

/-- The loop, told by the parts of the arguments. -/
def runParts (w : Outcomes) (k : System) : List Part → Exec → Except Shell Exec
  | [], e => .ok e
  | .pipe i :: ps, e => runParts w k ps (e.pipe w k i)
  | .command i arg :: ps, e =>
    if w.stats i (binPath arg) = false then .error e.shell
    else runParts w k ps { e with name := some (binPath arg), bargv := some (i + 1), p := false }

theorem execLoop_eq (w : Outcomes) (k : System) (i : Nat) (args : List (Option String)) (e : Exec) :
    execLoop w k i args e = runParts w k (parts e.p i args) e := by
  induction args generalizing i e with
  | nil => rfl
  | cons arg args ih =>
    cases arg with
    | none => exact ih (i + 1) e
    | some arg =>
      rw [execLoop, parts]
      split_ifs with hpipe hp hfound
      · rw [ih, runParts]
        rfl
      · exact ih (i + 1) e
      · rw [runParts, if_pos hfound]
      · rw [ih, runParts, if_neg hfound]

/-- The children are those forked in this call, at most `n`, and none has been waited for. -/
structure Forked (n : Nat) (s : Shell) : Prop where
  unwaited : s.waited = []
  forked : s.children.Perm (s.forked.map Child.pid)
  count : s.children.length ≤ n

/-- **The loop is under way**: besides its own descriptors the shell holds at most `infd` and those of the
    redirections. -/
structure Carried (fds : Finset Nat) (outfd errfd : Int) (e : Exec) : Prop where
  sub : ∀ n ∈ fds, n ∈ e.shell.fds
  mem : ∀ n ∈ e.shell.fds, n ∈ fds ∨ e.infd = n ∨ outfd = n ∨ errfd = n
  new : ∀ n ∈ fds, e.infd ≠ n
  children : Forked e.count e.shell

/-- No number left in `pipefd` means a descriptor of the shell's own. -/
def Stale (fds : Finset Nat) (e : Exec) : Prop := ∀ n ∈ fds, e.pipefd.1 ≠ n ∧ e.pipefd.2 ≠ n

section Loop

variable {w : Outcomes} {k : System} {s : Shell} {fds : Finset Nat} {infd outfd errfd : Int} {e : Exec} {n : Nat}
  {filename : Option String} {argv : Option Nat} {ps : List Part}

@[simp] theorem mem_builtinCommand : n ∈ (builtinCommand k filename argv infd outfd errfd s).fds ↔
    n ∈ s.fds ∧ infd ≠ n ∧ outfd ≠ n ∧ errfd ≠ n := by
  simp [builtinCommand, and_assoc]

theorem Forked.command (h : Forked n s) (k : System) (filename : Option String) (argv : Option Nat)
    (infd outfd errfd : Int) : Forked (n + 1) (builtinCommand k filename argv infd outfd errfd s) := by
  have hcount := h.count
  unfold builtinCommand
  constructor
  · simp [h.unwaited]
  · simp only [children_closeFd, forked_closeFd]
    rcases sysFork_cases k (fun pid => ⟨pid, filename, argv, infd, outfd, errfd⟩) s with
      ⟨hc, hf⟩ | ⟨pid, -, hc, hf⟩
    · rw [hc, hf]
      exact h.forked
    · rw [hc, hf, List.map_append]
      exact (h.forked.cons pid).trans (List.perm_append_singleton pid _).symm
  · simp only [children_closeFd]
    rcases sysFork_cases k (fun pid => ⟨pid, filename, argv, infd, outfd, errfd⟩) s with
      ⟨hc, -⟩ | ⟨pid, -, hc, -⟩
    · rw [hc]
      omega
    · rw [hc, List.length_cons]
      omega

/-- What `pipe` leaves in `pipefd` is none of the shell's own, and it opens no other descriptors. -/
theorem sysPipe_new {made : Bool} {pipefd : Int × Int} (hsub : ∀ n ∈ fds, n ∈ s.fds)
    (h : made = true ∨ ∀ n ∈ fds, pipefd.1 ≠ n ∧ pipefd.2 ≠ n) :
    ∀ n ∈ fds, (sysPipe k made pipefd s).1.1 ≠ n ∧ (sysPipe k made pipefd s).1.2 ≠ n := by
  cases made with
  | false => exact h.resolve_left nofun
  | true =>
    intro n hn
    have hr := k.fd_free s.calls s.fds
    have hw := k.fd_free s.calls (insert (k.fd s.calls s.fds) s.fds)
    constructor
    · intro heq
      exact hr ((Int.ofNat.inj heq) ▸ hsub n hn)
    · intro heq
      exact hw ((Int.ofNat.inj heq) ▸ Finset.mem_insert_of_mem (hsub n hn))

theorem sysPipe_mono (made : Bool) (pipefd : Int × Int) (h : n ∈ s.fds) : n ∈ (sysPipe k made pipefd s).2.fds := by
  cases made with
  | false => exact h
  | true => exact Finset.mem_insert_of_mem (Finset.mem_insert_of_mem h)

theorem mem_sysPipe {made : Bool} {pipefd : Int × Int} (h : n ∈ (sysPipe k made pipefd s).2.fds) :
    n ∈ s.fds ∨ (sysPipe k made pipefd s).1.1 = n ∨ (sysPipe k made pipefd s).1.2 = n := by
  cases made with
  | false => exact .inl h
  | true =>
    rcases Finset.mem_insert.mp h with rfl | h
    · exact .inr (.inr rfl)
    · rcases Finset.mem_insert.mp h with rfl | h
      · exact .inr (.inl rfl)
      · exact .inl h

/-- `pipe` leaves the children alone. -/
theorem sysPipe_same (k : System) (made : Bool) (pipefd : Int × Int) (s : Shell) :
    SameChildren s (sysPipe k made pipefd s).2 := by
  cases made <;> exact ⟨rfl, rfl, rfl⟩

/-- **At a `|`**: the old `infd` and the end that is written go, the end that is read stays. -/
theorem Carried.pipe (h : Carried fds outfd errfd e) (i : Nat) (hmade : w.pipes i = true ∨ Stale fds e) :
    Carried fds outfd errfd (e.pipe w k i) ∧ Stale fds (e.pipe w k i) := by
  have hnew := sysPipe_new (k := k) h.sub hmade
  have hsame := sysPipe_same k (w.pipes i) e.pipefd e.shell
  have hforked : Forked e.count (sysPipe k (w.pipes i) e.pipefd e.shell).2 :=
    ⟨hsame.waited.trans h.children.unwaited, by rw [hsame.children, hsame.forked]; exact h.children.forked,
      by rw [hsame.children]; exact h.children.count⟩
  refine ⟨⟨fun n hn => ?_, fun n hn => ?_, fun n hn => (hnew n hn).1,
    hforked.command k e.name e.bargv e.infd (sysPipe k (w.pipes i) e.pipefd e.shell).1.2 EOF⟩, hnew⟩
  · exact mem_builtinCommand.mpr ⟨sysPipe_mono _ _ (h.sub n hn), h.new n hn, (hnew n hn).2, nofun⟩
  · obtain ⟨hmem, hin, hout, -⟩ := mem_builtinCommand.mp hn
    rcases mem_sysPipe hmem with hold | hr | hw
    · rcases h.mem n hold with hfds | hinfd | hrest
      · exact .inl hfds
      · exact absurd hinfd hin
      · exact .inr (.inr hrest)
    · exact .inr (.inl hr)
    · exact absurd hw hout

/-- Every command is found: the loop ends, under way to the last command. -/
theorem runParts_found (h : Carried fds outfd errfd e) (hall : AllFound w ps)
    (hmade : (∀ i, firstPipe ps = some i → w.pipes i = true) ∨ Stale fds e) :
    ∃ e', runParts w k ps e = .ok e' ∧ Carried fds outfd errfd e' := by
  induction ps generalizing e with
  | nil => exact ⟨e, rfl, h⟩
  | cons part ps ih =>
    have hrest : AllFound w ps := fun i arg hm => hall i arg (List.mem_cons_of_mem _ hm)
    cases part with
    | command i arg =>
      have hfound : w.stats i (binPath arg) = true := hall i arg List.mem_cons_self
      rw [runParts, if_neg (by simp [hfound])]
      exact ih ⟨h.sub, h.mem, h.new, h.children⟩ hrest hmade
    | pipe i =>
      obtain ⟨hpipe, hstale⟩ := h.pipe (k := k) i (hmade.imp_left fun hm => hm i rfl)
      exact ih hpipe hrest (.inr hstale)

end Loop

/-! ## 7. The lines on which nothing goes wrong -/

/-- A shell that has forked and waited for nothing in this call. -/
def atCall (fds : Finset Nat) (children : List Nat) (calls : Nat) : Shell := ⟨fds, children, [], [], calls⟩

section Lines

variable {w : Outcomes} {k : System} {s : Shell} {fds : Finset Nat} {children : List Nat} {calls : Nat}
  {argv : List String} {d : Fin 3 → Int}

/-- Behind the redirections the loop is under way. -/
theorem Held.carried (h : Held fds d s) (hs : SameChildren (atCall fds [] calls) s) (junk : Int × Int) :
    Carried fds (d 1) (d 2) ⟨true, none, none, d 0, junk, 0, s⟩ := by
  refine ⟨fun n hn => (h.mem n).mpr (.inl hn), fun n hn => ?_, fun n hn heq => h.new 0 n heq hn,
    hs.waited, ?_, ?_⟩
  · rcases (h.mem n).mp hn with hfds | ⟨i, hi⟩
    · exact .inl hfds
    · match i with
      | 0 => exact .inr (.inl hi)
      | 1 => exact .inr (.inr (.inl hi))
      | 2 => exact .inr (.inr (.inr hi))
  · rw [hs.children, hs.forked]
    rfl
  · rw [hs.children]
    exact Nat.le_refl 0

/-- The last command, and the loop around `waitpid`. -/
theorem Carried.settled {e : Exec} (h : Carried fds (d 1) (d 2) e) (hd : ∀ i (n : Nat), d i = n → n ∉ fds) :
    Settled fds (waitLoop k (e.count + 1) (builtinCommand k e.name e.bargv e.infd (d 1) (d 2) e.shell)) := by
  have hforked := h.children.command k e.name e.bargv e.infd (d 1) (d 2)
  constructor
  · rw [fds_waitLoop]
    ext n
    rw [mem_builtinCommand]
    constructor
    · rintro ⟨hn, hin, hout, herr⟩
      rcases h.mem n hn with hfds | hi | ho | he
      · exact hfds
      · exact absurd hi hin
      · exact absurd ho hout
      · exact absurd he herr
    · exact fun hn => ⟨h.sub n hn, h.new n hn, fun heq => hd 1 n heq hn, fun heq => hd 2 n heq hn⟩
  · rw [forked_waitLoop]
    refine (waitLoop_perm hforked.count).trans ?_
    rw [hforked.unwaited]
    exact hforked.forked

theorem settled_of_sound (h : Sound w fds children argv) (k : System) (calls : Nat) :
    Settled fds (builtinExec w k argv (atCall fds children calls)) := by
  have hsame := openBlocks_same w k (redirects argv {}).2.blocks (fun _ => EOF) (atCall fds children calls)
  have hopened : Opened w fds _ _ _ := dupfile_opened w k (redirects argv {}).2 (atCall fds children calls)
  unfold builtinExec
  dsimp only
  rw [← dupfile] at hsame
  generalize dupfile w k (redirects argv {}).2 (atCall fds children calls) = result at hsame hopened
  cases hopened with
  | refused s' same => exact ⟨same, by rw [hsame.waited, hsame.forked]; rfl⟩
  | granted d s' held granted others =>
    dsimp only
    rw [execLoop_eq]
    cases h with
    | refused hno =>
      obtain ⟨slot, file, flags, hmem, hno⟩ := hno
      rw [(granted slot file flags hmem).1] at hno
      cases hno
    | missing bare i arg ps first missing =>
      have hd : ∀ i, d i = EOF := fun i => others i fun file flags hm => nomatch bare _ hm
      rw [show parts true 0 (redirects argv {}).1 = _ from first, runParts, if_pos missing]
      refine ⟨?_, by rw [hsame.waited, hsame.forked]; rfl⟩
      ext n
      rw [held.mem n]
      exact or_iff_left fun ⟨i, hi⟩ => by simp [hd i, EOF] at hi
    | found all childless made =>
      subst childless
      have hstale : fds = ∅ → Stale fds ⟨true, none, none, d 0, k.junk, 0, s'⟩ := fun h n hn => by
        rw [h] at hn
        exact absurd hn (Finset.notMem_empty n)
      obtain ⟨e, he, hcarried⟩ := runParts_found (held.carried hsame k.junk) all (made.imp_right hstale)
      rw [show runParts w k (parts true 0 (redirects argv {}).1) _ = _ from he]
      exact hcarried.settled held.new

end Lines

/-! ## 8. The other lines -/

/-- A number that is in no set below. -/
def above (s : Finset Nat) : Nat := s.sup id + 1

theorem above_notMem (s : Finset Nat) : above s ∉ s := fun h =>
  Nat.not_succ_le_self _ (Finset.le_sup (f := id) h)

/-- A system that forks whenever it is asked to, hands out no descriptor of `own`, has the child `first`
    waited for before any other, and left `junk` in `pipefd`. -/
def contrary (own : Finset Nat) (first : Nat) (junk : Int) : System where
  fd _ s := above (s ∪ own)
  fork _ cs := some (above cs.toFinset)
  reap _ cs := if first ∈ cs then first else cs.headD 0
  junk := (junk, junk)
  fd_free _ s h := above_notMem (s ∪ own) (Finset.mem_union_left own h)
  fork_new _ cs pid hpid h := by
    cases hpid
    exact above_notMem cs.toFinset (List.mem_toFinset.mpr h)
  reap_mem _ cs hne := by
    split
    · assumption
    · cases cs with
      | nil => exact absurd rfl hne
      | cons c cs => exact List.mem_cons_self

section Contrary

variable {w : Outcomes} {k : System} {s : Shell} {fds own : Finset Nat} {first n : Nat} {junk infd outfd errfd : Int}
  {filename : Option String} {argv : Option Nat} {e : Exec} {ps : List Part}

/-- What every `|` keeps, the loop keeps. -/
theorem runParts_keeps {P : Shell → Prop} (hpipe : ∀ i e, P e.shell → P (Exec.pipe w k i e).shell)
    (h : P e.shell) : (∀ s, runParts w k ps e = .error s → P s) ∧
      ∀ e', runParts w k ps e = .ok e' → P e'.shell := by
  induction ps generalizing e with
  | nil => exact ⟨nofun, fun e' he => by cases he; exact h⟩
  | cons part ps ih =>
    cases part with
    | pipe i => exact ih (hpipe i e h)
    | command i arg =>
      rw [runParts]
      split
      · exact ⟨fun s hs => by cases hs; exact h, nofun⟩
      · exact ih h

theorem runParts_found_iff : (∃ e', runParts w k ps e = .ok e') ↔ AllFound w ps := by
  induction ps generalizing e with
  | nil => exact iff_of_true ⟨e, rfl⟩ fun _ _ hm => absurd hm List.not_mem_nil
  | cons part ps ih =>
    cases part with
    | pipe i => simp only [runParts, ih, AllFound, List.mem_cons, reduceCtorEq, false_or]
    | command i arg =>
      rw [runParts]
      split
      · rename_i hno
        refine iff_of_false (fun h => h.elim fun _ he => by cases he) fun hall => ?_
        rw [hall i arg List.mem_cons_self] at hno
        cases hno
      · rename_i hyes
        rw [ih]
        constructor
        · intro hall j a hm
          rcases List.mem_cons.mp hm with heq | hm
          · cases heq
            simpa using hyes
          · exact hall j a hm
        · exact fun hall j a hm => hall j a (List.mem_cons_of_mem _ hm)

/-- **A child of before**: it is a child still when the loop ends, and none of those forked. -/
theorem old_builtinCommand (h : n ∈ s.children ∧ n ∉ s.forked.map Child.pid) :
    n ∈ (builtinCommand k filename argv infd outfd errfd s).children ∧
      n ∉ (builtinCommand k filename argv infd outfd errfd s).forked.map Child.pid := by
  unfold builtinCommand
  simp only [children_closeFd, forked_closeFd]
  rcases sysFork_cases k (fun pid => ⟨pid, filename, argv, infd, outfd, errfd⟩) s with
    ⟨hc, hf⟩ | ⟨pid, hpid, hc, hf⟩
  · rwa [hc, hf]
  · rw [hc, hf, List.map_append, List.mem_append, not_or]
    refine ⟨List.mem_cons_of_mem _ h.1, h.2, fun hm => ?_⟩
    obtain rfl := List.mem_singleton.mp hm
    exact hpid h.1

theorem old_pipe (i : Nat) (e : Exec) (h : n ∈ e.shell.children ∧ n ∉ e.shell.forked.map Child.pid) :
    n ∈ (e.pipe w k i).shell.children ∧ n ∉ (e.pipe w k i).shell.forked.map Child.pid := by
  have hsame := sysPipe_same k (w.pipes i) e.pipefd e.shell
  refine old_builtinCommand (s := (sysPipe k (w.pipes i) e.pipefd e.shell).2) ?_
  rwa [hsame.children, hsame.forked]

theorem waited_waitLoop (n : Nat) (s : Shell) : s.waited <+: (waitLoop k n s).waited := by
  induction n generalizing s with
  | zero => exact List.prefix_rfl
  | succ n ih =>
    refine List.IsPrefix.trans ?_ (ih (sysWaitpid k s))
    unfold sysWaitpid
    split
    · exact List.prefix_rfl
    · exact List.prefix_append ..

/-- It is waited for before the children of this call. -/
theorem old_waited (hchild : first ∈ s.children) :
    first ∈ (waitLoop (contrary own first junk) (n + 1) s).waited := by
  refine (waited_waitLoop n _).subset ?_
  rw [sysWaitpid, if_neg (List.ne_nil_of_mem hchild)]
  exact List.mem_append_right _ (List.mem_singleton.mpr (if_pos hchild).symm)

/-- **A descriptor of the shell's own**, once closed, stays closed. -/
theorem lost_pipe (hown : n ∈ own) (i : Nat) (e : Exec) (h : n ∉ e.shell.fds) :
    n ∉ (e.pipe w (contrary own first junk) i).shell.fds := by
  intro hn
  obtain ⟨hmem, -⟩ := mem_builtinCommand.mp hn
  cases hmade : w.pipes i with
  | false =>
    rw [hmade] at hmem
    exact h hmem
  | true =>
    rw [hmade] at hmem
    have hnew : ∀ s, n ≠ above (s ∪ own) := fun s heq =>
      above_notMem (s ∪ own) (heq ▸ Finset.mem_union_right s hown)
    rcases Finset.mem_insert.mp hmem with heq | hmem
    · exact hnew _ heq
    · rcases Finset.mem_insert.mp hmem with heq | hmem
      · exact hnew _ heq
      · exact h hmem

/-- The first pipe is not made, and what was in `pipefd` is closed. -/
theorem runParts_lost (hown : n ∈ own) {i : Nat} (hfirst : firstPipe ps = some i) (hno : w.pipes i = false)
    (hjunk : e.pipefd.2 = n) {e' : Exec} (he : runParts w (contrary own first junk) ps e = .ok e') :
    n ∉ e'.shell.fds := by
  induction ps generalizing e with
  | nil => cases hfirst
  | cons part ps ih =>
    cases part with
    | command j arg =>
      rw [runParts] at he
      split at he
      · cases he
      · exact ih (e := { e with name := some (binPath arg), bargv := some (j + 1), p := false }) hfirst hjunk he
    | pipe j =>
      cases hfirst
      rw [runParts] at he
      refine (runParts_keeps (P := fun s => n ∉ s.fds) (lost_pipe hown) ?_).2 e' he
      intro hn
      obtain ⟨-, -, hout, -⟩ := mem_builtinCommand.mp hn
      rw [hno] at hout
      exact hout hjunk

/-- A command is missing behind a pipe: a child has been forked, and none is waited for. -/
theorem pipe_unwaited (i : Nat) (e : Exec) (h : e.shell.waited = []) :
    (e.pipe w (contrary own first junk) i).shell.waited = [] ∧
      (e.pipe w (contrary own first junk) i).shell.forked ≠ [] := by
  have hsame := sysPipe_same (contrary own first junk) (w.pipes i) e.pipefd e.shell
  constructor
  · show (builtinCommand _ _ _ _ _ _ _).waited = []
    unfold builtinCommand
    simp only [waited_closeFd, waited_sysFork]
    exact hsame.waited.trans h
  · show (builtinCommand _ _ _ _ _ _ _).forked ≠ []
    unfold builtinCommand
    simp only [forked_closeFd]
    exact List.append_ne_nil_of_right_ne_nil _ (List.cons_ne_nil _ _)

end Contrary

/-- Behind a command comes a pipe. -/
theorem parts_behind (i : Nat) (args : List (Option String)) :
    parts false i args = [] ∨ ∃ j ps, parts false i args = .pipe j :: ps := by
  induction args generalizing i with
  | nil => exact .inl rfl
  | cons arg args ih =>
    cases arg with
    | none => exact ih (i + 1)
    | some arg =>
      rw [parts]
      split_ifs with h h'
      · exact .inr ⟨i, _, rfl⟩
      · exact ih (i + 1)
      · exact absurd rfl h'

/-- A line begins with a command. -/
theorem parts_first (i : Nat) (args : List (Option String)) : parts true i args = [] ∨
    ∃ j arg i' args', parts true i args = .command j arg :: parts false i' args' := by
  induction args generalizing i with
  | nil => exact .inl rfl
  | cons arg args ih =>
    cases arg with
    | none => exact ih (i + 1)
    | some arg => exact .inr ⟨i, arg, i + 1, args, by rw [parts, if_neg (by simp), if_neg (by simp)]⟩

section Others

variable {w : Outcomes} {k : System} {s s' : Shell} {fds : Finset Nat} {children : List Nat} {argv : List String}
  {calls : Nat} {d : Fin 3 → Int} {e : Exec}

theorem dupfile_granted (hno : ¬Refused w (redirects argv {}).2) (k : System) (s : Shell) :
    ∃ d s', dupfile w k (redirects argv {}).2 s = (some d, s') ∧ Held s.fds d s' ∧ SameChildren s s' ∧
      (¬Bare (redirects argv {}).2 → ∃ i, ∃ n : Nat, d i = n) := by
  have hsame : SameChildren s (dupfile w k (redirects argv {}).2 s).2 := openBlocks_same ..
  have hopened := dupfile_opened w k (redirects argv {}).2 s
  generalize dupfile w k (redirects argv {}).2 s = result at hsame hopened
  cases hopened with
  | refused s' same slot file flags hmem h => exact absurd ⟨slot, file, flags, hmem, h⟩ hno
  | granted d s' held granted others =>
    refine ⟨d, s', rfl, held, hsame, fun hbare => ?_⟩
    rw [Bare, not_forall] at hbare
    obtain ⟨⟨slot, file, flags⟩, hb⟩ := hbare
    rw [Classical.not_imp] at hb
    obtain ⟨hmem, hfile⟩ := hb
    cases file with
    | none => exact absurd rfl hfile
    | some file => exact ⟨slot, (granted slot file flags hmem).2⟩

theorem builtinExec_error (hd : dupfile w k (redirects argv {}).2 s = (some d, s'))
    {s'' : Shell} (he : runParts w k (pipeline argv) ⟨true, none, none, d 0, k.junk, 0, s'⟩ = .error s'') :
    builtinExec w k argv s = s'' := by
  unfold builtinExec
  dsimp only
  rw [hd]
  dsimp only
  rw [execLoop_eq, show runParts w k (parts true 0 (redirects argv {}).1) _ = _ from he]

theorem builtinExec_ok (hd : dupfile w k (redirects argv {}).2 s = (some d, s'))
    (he : runParts w k (pipeline argv) ⟨true, none, none, d 0, k.junk, 0, s'⟩ = .ok e) :
    builtinExec w k argv s =
      waitLoop k (e.count + 1) (builtinCommand k e.name e.bargv e.infd (d 1) (d 2) e.shell) := by
  unfold builtinExec
  dsimp only
  rw [hd]
  dsimp only
  rw [execLoop_eq, show runParts w k (parts true 0 (redirects argv {}).1) _ = _ from he]

/-- A child of before is waited for, though it was not forked in this call. -/
theorem not_settled_of_child {first : Nat} (hfirst : first ∈ children)
    (hno : ¬Refused w (redirects argv {}).2) (hall : AllFound w (pipeline argv)) :
    ¬Settled fds (builtinExec w (contrary fds first 0) argv (atCall fds children calls)) := by
  intro h
  obtain ⟨d, s, hd, -, hsame, -⟩ := dupfile_granted hno (contrary fds first 0) (atCall fds children calls)
  obtain ⟨e, he⟩ := runParts_found_iff.mpr hall
  rw [builtinExec_ok hd he] at h
  have hstart : first ∈ s.children ∧ first ∉ s.forked.map Child.pid := by
    rw [hsame.children, hsame.forked]
    exact ⟨hfirst, List.not_mem_nil⟩
  have hloop := (runParts_keeps (P := fun s => first ∈ s.children ∧ first ∉ s.forked.map Child.pid)
    old_pipe hstart).2 e he
  obtain ⟨hchild, hforked⟩ := old_builtinCommand hloop
  have hwaited := h.waited.subset (old_waited hchild)
  rw [forked_waitLoop] at hwaited
  exact hforked hwaited

/-- A descriptor of the shell's own is closed. -/
theorem not_settled_of_pipe {n i : Nat} (hn : n ∈ fds) (hfirst : firstPipe (pipeline argv) = some i)
    (hpipe : w.pipes i = false) (hno : ¬Refused w (redirects argv {}).2) (hall : AllFound w (pipeline argv)) :
    ¬Settled fds (builtinExec w (contrary fds 0 n) argv (atCall fds children calls)) := by
  intro h
  obtain ⟨d, s, hd, -⟩ := dupfile_granted hno (contrary fds 0 n) (atCall fds children calls)
  obtain ⟨e, he⟩ := runParts_found_iff.mpr hall
  rw [builtinExec_ok hd he] at h
  have hlost := runParts_lost hn hfirst hpipe rfl he
  have hfds := h.fds
  rw [fds_waitLoop] at hfds
  rw [← hfds] at hn
  exact hlost (mem_builtinCommand.mp hn).1

/-- A redirection stays open, or a child is not waited for. -/
theorem not_settled_of_missing (hno : ¬Refused w (redirects argv {}).2) (hall : ¬AllFound w (pipeline argv))
    (hsound : ¬Sound w fds children argv) :
    ¬Settled fds (builtinExec w (contrary fds 0 0) argv (atCall fds children calls)) := by
  intro h
  obtain ⟨d, s, hd, held, hsame, hbare⟩ := dupfile_granted hno (contrary fds 0 0) (atCall fds children calls)
  rcases parts_first 0 (redirects argv {}).1 with hnil | ⟨j, arg, i, args, hfirst⟩
  · refine hall fun i arg hm => ?_
    rw [pipeline, hnil] at hm
    exact absurd hm List.not_mem_nil
  · rw [← pipeline] at hfirst
    cases hfound : w.stats j (binPath arg) with
    | false =>
      rw [builtinExec_error hd (by rw [hfirst, runParts, if_pos hfound])] at h
      obtain ⟨slot, n, hn⟩ := hbare fun bare => hsound (.missing bare j arg _ hfirst hfound)
      have hmem : n ∈ s.fds := (held.mem n).mpr (.inr ⟨slot, hn⟩)
      rw [h.fds] at hmem
      exact held.new slot n hn hmem
    | true =>
      rcases parts_behind i args with hnil | ⟨j', ps, hpipe⟩
      · rw [hfirst, hnil] at hall
        refine hall fun i arg hm => ?_
        cases List.mem_singleton.mp hm
        exact hfound
      · cases he : runParts w (contrary fds 0 0) (pipeline argv)
            ⟨true, none, none, d 0, (contrary fds 0 0).junk, 0, s⟩ with
        | ok e => exact hall (runParts_found_iff.mp ⟨e, he⟩)
        | error s' =>
          rw [builtinExec_error hd he] at h
          rw [hfirst, hpipe, runParts, if_neg (by simp [hfound]), runParts] at he
          obtain ⟨hwaited, hforked⟩ := (runParts_keeps (P := fun s => s.waited = [] ∧ s.forked ≠ [])
            (fun i e h => pipe_unwaited i e h.1) (pipe_unwaited j' _ hsame.waited)).1 s' he
          have hperm := h.waited
          rw [hwaited] at hperm
          exact hforked (List.map_eq_nil_iff.mp hperm.nil_eq.symm)

/-- On every other line the shell is left wrong by some system. -/
theorem sound_of_settled (h : ∀ k, Settled fds (builtinExec w k argv (atCall fds children calls))) :
    Sound w fds children argv := by
  by_contra hsound
  have hno : ¬Refused w (redirects argv {}).2 := fun hno => hsound (.refused hno)
  by_cases hall : AllFound w (pipeline argv)
  · cases children with
    | cons first children => exact not_settled_of_child List.mem_cons_self hno hall (h _)
    | nil =>
      have hmade : ¬((∀ i, firstPipe (pipeline argv) = some i → w.pipes i = true) ∨ fds = ∅) :=
        fun hmade => hsound (.found hall rfl hmade)
      rw [not_or, not_forall] at hmade
      obtain ⟨⟨i, hi⟩, hne⟩ := hmade
      rw [Classical.not_imp, Bool.not_eq_true] at hi
      obtain ⟨n, hn⟩ := Finset.nonempty_iff_ne_empty.mpr hne
      exact not_settled_of_pipe hn hi.1 hi.2 hno hall (h _)
  · exact not_settled_of_missing hno hall hsound (h _)

end Others

/-- **Whatever the system decides**, when `builtin_exec` returns the shell has the descriptors it had and has
    waited for exactly the children it forked: on the lines of `Sound`, and on no others. -/
theorem builtinExec_settles (w : Outcomes) (fds : Finset Nat) (children : List Nat) (argv : List String)
    (calls : Nat) :
    (∀ k, Settled fds (builtinExec w k argv (atCall fds children calls))) ↔ Sound w fds children argv :=
  ⟨sound_of_settled, fun h k => settled_of_sound h k calls⟩

/-- Every file can be opened and every pipe is made; the only command is `ls`. -/
def lsAlone : Outcomes := ⟨fun _ _ _ => true, fun _ path => path == "/bin/ls.out", fun _ => true⟩

/-- `ls | nothing`: the shell keeps the end of the pipe that is read, and does not wait for `ls`. -/
theorem builtinExec_leaks : ¬∀ (w : Outcomes) (k : System) (argv : List String),
    Settled {0, 1, 2} (builtinExec w k argv (atCall {0, 1, 2} [] 0)) := by
  intro h
  have hs := h lsAlone (contrary {0, 1, 2} 0 0) ["ls", "|", "nothing"]
  have hfds : (builtinExec lsAlone (contrary {0, 1, 2} 0 0) ["ls", "|", "nothing"]
      (atCall {0, 1, 2} [] 0)).fds = {0, 1, 2, 3} := by decide +kernel
  rw [hs.fds] at hfds
  exact absurd hfds (by decide)

end Yuios.Osh
