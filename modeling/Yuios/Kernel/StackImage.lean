/-
  File:      Yuios/Kernel/StackImage.lean
  Subject:   ARGUMENTS AND ENVIRONMENT: `copy_argv_envp` of `kernel/execve.c`, and `_start` and
             `__libc_start_main` of the C library, which take its block apart.

  * A C string is the list of its bytes before the terminator. A pointer into the four scratch pages is
    an offset in them; a write outside them, or outside the page of pointers, stops the model.
  * `Points` -- a pointer of the page names the place the string will have in the user's stack.
  * **`stack_image`** -- `main` receives the vectors that were given to `sys_execve`, with the file
    name in front.
  * **`copy_inside_iff`** -- which vectors are copied without a store outside the scratch pages: the
    one check of `copy_argv_envp` comes behind the last store.
-/
import Mathlib.Algebra.Group.Nat.Defs
import Yuios.Kernel.Paging

namespace Yuios.Execve

open Lib Kernel Paging

/-! ## 1. The kernel's side -/

/-- A C string. -/
abbrev CString := List UInt8

/-- The bytes of a string and its terminator. -/
def bytesOf (s : CString) : Bytes := fun j => (s[j]?).getD 0

/-- A vector of strings; `NULL` is none. -/
abbrev Strings := Option (List CString)

/-- `count_argv`. -/
def countArgv : Strings → Nat
  | none => 0
  | some v => v.length

/-- The variables of `copy_argv_envp`: the four pages and the one of pointers, as `alloc_kpage` has
    left them, `ktop` as an offset in the four pages, and `utop`. -/
structure Scratch where
  pages : Bytes
  argvk : Bytes
  ktop : Nat
  utop : Nat

namespace Scratch

/-- `argvk[i] = v`. -/
def setPtr (st : Scratch) (i v : Nat) : Except Stop Scratch :=
  if Paging.PAGE_SIZE < 4 * i + 4 then .error .outOfBuffer
  else .ok { st with argvk := store st.argvk (4 * i) 4 v }

/-- `ktop -= len; memcpy(ktop, src, len)`. -/
def push (st : Scratch) (src : Bytes) (len : Nat) : Except Stop Scratch :=
  if st.ktop < len then .error .outOfBuffer
  else .ok { st with pages := copyIn st.pages (st.ktop - len) src len, ktop := st.ktop - len }

/-- A string is copied, and its pointer set to where it will be. -/
def pushString (st : Scratch) (i : Nat) (s : CString) : Except Stop Scratch := do
  let len := s.length + 1
  let st := { st with utop := st.utop - len }
  let st ← st.push (bytesOf s) len
  st.setPtr i st.utop

/-- The loops over `envp` and `argv`, from the last string to the first; the pointers from `i` on. -/
def pushStrings (i : Nat) : List CString → Scratch → Except Stop Scratch
  | [], st => return st
  | s :: rest, st => do
    let st ← pushStrings (i + 1) rest st
    st.pushString i s

end Scratch

/-- `copy_argv_envp`: `top`, and the user's memory with the block. -/
def copyArgvEnvp (pages argvk : Bytes) (filename : CString) (argv envp : Strings) (user : Bytes) :
    Except Stop (Nat × Bytes) := do
  let argc := countArgv argv + 1
  let envc := countArgv envp
  let st : Scratch := ⟨pages, argvk, 4 * Paging.PAGE_SIZE, USER_STACK_TOP⟩
  let st ← st.setPtr argc 0
  let st ← st.setPtr (argc + 1 + envc) 0
  let st ← st.pushStrings (argc + 1) (envp.getD [])
  let st ← st.pushStrings 1 (argv.getD [])
  let st ← st.pushString 0 filename
  let st ← st.push (fun j => st.argvk (4 * (argc + 1) + j)) ((envc + 1) * 4)
  let st ← st.push st.argvk ((argc + 1) * 4)
  let st ← st.push (store (fun _ => 0) 0 4 argc) 4
  Kernel.assert (0 < st.ktop)
  let len := 4 * Paging.PAGE_SIZE - st.ktop
  let utop := USER_STACK_TOP - len
  return (utop, copyIn user utop (fun j => st.pages (st.ktop + j)) len)

/-! ## 2. The program's side -/

/-- The memory and the stack pointer. -/
structure Cpu where
  mem : Bytes
  esp : Nat

/-- `push`. -/
def Cpu.push (c : Cpu) (v : Nat) : Cpu := ⟨store c.mem (c.esp - 4) 4 v, c.esp - 4⟩

/-- What `_start` does not look into: two registers, and the addresses it pushes. -/
structure Env where
  eax : Nat
  edx : Nat
  init : Nat
  fini : Nat
  main : Nat
  back : Nat

/-- `_start`, up to the call. -/
def start (e : Env) (c : Cpu) : Cpu :=
  let esi := fetch c.mem c.esp 4
  let ecx := c.esp + 4
  let c : Cpu := ⟨c.mem, ecx / 16 * 16⟩
  let c := c.push e.eax
  let c := c.push c.esp
  ((((((c.push e.edx).push e.init).push e.fini).push ecx).push esi).push e.main).push e.back

/-- The call of `main`. -/
structure MainCall where
  mem : Bytes
  argc : Nat
  argv : Nat
  envp : Nat

/-- `__libc_start_main`: its arguments lie above the return address. -/
def libcStartMain (c : Cpu) : MainCall :=
  let argc := fetch c.mem (c.esp + 8) 4
  let argv := fetch c.mem (c.esp + 12) 4
  { mem := c.mem, argc, argv, envp := argv + 4 * (argc + 1) }

/-- The string is at the address. -/
def Str (mem : Bytes) (a : Nat) (s : CString) : Prop := ∀ j ≤ s.length, mem (a + j) = bytesOf s j

/-- The vector is at the address: a pointer for each string, and then `NULL`. -/
structure Vec (mem : Bytes) (a : Nat) (v : List CString) : Prop where
  string : ∀ i (h : i < v.length), fetch mem (a + 4 * i) 4 ≠ 0 ∧ Str mem (fetch mem (a + 4 * i) 4) v[i]
  last : fetch mem (a + 4 * v.length) 4 = 0

/-- The bytes of the strings with their terminators. -/
def stringsSize (v : List CString) : Nat := (v.map fun s => s.length + 1).sum

/-- The size of the block. -/
def blockSize (filename : CString) (argv envp : Strings) : Nat :=
  stringsSize (envp.getD []) + stringsSize (argv.getD []) + (filename.length + 1) +
    (countArgv envp + 1) * 4 + (countArgv argv + 2) * 4 + 4

/-! ## 3. The strings -/

/-- Where the four pages will lie in the user's stack. -/
def base : Nat := USER_STACK_TOP - 4 * Paging.PAGE_SIZE

/-- `ktop` and `utop` are in step. -/
structure InStep (st : Scratch) : Prop where
  inside : st.ktop ≤ 4 * Paging.PAGE_SIZE
  utop : st.utop = base + st.ktop

/-- **Pointer `i` names the place of the string**, which has been copied. -/
def Points (st : Scratch) (i : Nat) (s : CString) : Prop :=
  ∃ k, st.ktop ≤ k ∧ k + s.length < 4 * Paging.PAGE_SIZE ∧ fetch st.argvk (4 * i) 4 = base + k ∧ Str st.pages k s

/-- The pointers outside of `n` from `i` on are as before, and what they name too. -/
structure Beside (i n : Nat) (st st' : Scratch) : Prop where
  ptr : ∀ j, j < i ∨ i + n ≤ j → fetch st'.argvk (4 * j) 4 = fetch st.argvk (4 * j) 4
  points : ∀ j s, j < i ∨ i + n ≤ j → Points st j s → Points st' j s

section Strings

variable {st st' : Scratch} {i n v len : Nat} {s : CString} {src : Bytes}

theorem base_eq : base = 268419072 ∧ 4 * Paging.PAGE_SIZE = 16384 ∧ USER_STACK_TOP = 268435456 :=
  ⟨by decide, by decide, by decide⟩

theorem Beside.refl (st : Scratch) (i n : Nat) : Beside i n st st := ⟨fun _ _ => rfl, fun _ _ _ h => h⟩

theorem setPtr_ok (h : 4 * i + 4 ≤ Paging.PAGE_SIZE) :
    st.setPtr i v = .ok { st with argvk := store st.argvk (4 * i) 4 v } := if_neg (not_lt.mpr h)

theorem push_ok (h : len ≤ st.ktop) : st.push src len =
    .ok { st with pages := copyIn st.pages (st.ktop - len) src len, ktop := st.ktop - len } :=
  if_neg (not_lt.mpr h)

/-- The scratch pages after one string. -/
def pushed (st : Scratch) (i : Nat) (s : CString) : Scratch where
  pages := copyIn st.pages (st.ktop - (s.length + 1)) (Execve.bytesOf s) (s.length + 1)
  argvk := store st.argvk (4 * i) 4 (st.utop - (s.length + 1))
  ktop := st.ktop - (s.length + 1)
  utop := st.utop - (s.length + 1)

theorem pushString_ok (hi : 4 * i + 4 ≤ Paging.PAGE_SIZE) (hlen : s.length + 1 ≤ st.ktop) :
    st.pushString i s = .ok (pushed st i s) := by
  show (Scratch.push { st with utop := st.utop - (s.length + 1) } (bytesOf s) (s.length + 1) >>=
    fun st => st.setPtr i st.utop) = _
  rw [push_ok (by exact hlen)]
  exact setPtr_ok hi

/-- One string. -/
theorem pushString_spec (hi : 4 * i + 4 ≤ Paging.PAGE_SIZE) (hs : InStep st) (hlen : s.length + 1 ≤ st.ktop) :
    ∃ st', st.pushString i s = .ok st' ∧ InStep st' ∧ st'.ktop = st.ktop - (s.length + 1) ∧
      Points st' i s ∧ Beside i 1 st st' := by
  obtain ⟨hbase, hpages, -⟩ := base_eq
  have hin := hs.inside
  have hut := hs.utop
  have hk : (pushed st i s).ktop = st.ktop - (s.length + 1) := rfl
  have hu : (pushed st i s).utop = st.utop - (s.length + 1) := rfl
  refine ⟨pushed st i s, pushString_ok hi hlen, ⟨by omega, by omega⟩, rfl,
    ⟨st.ktop - (s.length + 1), by omega, by omega, ?_, fun j hj => ?_⟩, ⟨fun j hj => ?_, ?_⟩⟩
  · have hlt : st.utop - (s.length + 1) < 256 ^ 4 := by
      have : (256 : Nat) ^ 4 = 4294967296 := by decide
      omega
    refine (fetch_store_of_lt hlt).trans ?_
    omega
  · refine (copyIn_of_mem (by omega) (by omega)).trans ?_
    rw [Nat.add_sub_cancel_left]
  · exact fetch_store_ne (by omega)
  · rintro j s' hj ⟨k, hk', hend, hptr, hstr⟩
    refine ⟨k, by omega, hend, ?_, fun j hj => ?_⟩
    · exact (fetch_store_ne (by omega)).trans hptr
    · exact (copyIn_of_ne (by omega)).trans (hstr j hj)

theorem Beside.mono {i' n' : Nat} (h : Beside i n st st') (h1 : i' ≤ i) (h2 : i + n ≤ i' + n') :
    Beside i' n' st st' :=
  ⟨fun j hj => h.ptr j (by omega), fun j s hj => h.points j s (by omega)⟩

theorem Beside.trans {st'' : Scratch} (h : Beside i n st st') (h' : Beside i n st' st'') :
    Beside i n st st'' :=
  ⟨fun j hj => (h'.ptr j hj).trans (h.ptr j hj), fun j s hj hp => h'.points j s hj (h.points j s hj hp)⟩

/-- **The loop over a vector.** -/
theorem pushStrings_spec {v : List CString} (hi : 4 * (i + v.length) ≤ Paging.PAGE_SIZE) (hs : InStep st)
    (hlen : stringsSize v ≤ st.ktop) : ∃ st', st.pushStrings i v = .ok st' ∧ InStep st' ∧
      st'.ktop = st.ktop - stringsSize v ∧ (∀ j (h : j < v.length), Points st' (i + j) v[j]) ∧
      Beside i v.length st st' := by
  induction v generalizing i with
  | nil => exact ⟨st, rfl, hs, rfl, fun j h => absurd h (Nat.not_lt_zero j), Beside.refl st i 0⟩
  | cons s rest ih =>
    rw [List.length_cons] at hi
    have hsum : stringsSize (s :: rest) = s.length + 1 + stringsSize rest := by
      simp [stringsSize]
    rw [hsum] at hlen ⊢
    obtain ⟨st₁, h1, hs₁, hk₁, hp₁, hb₁⟩ := ih (i := i + 1) (by omega) (by omega)
    obtain ⟨st₂, h2, hs₂, hk₂, hp₂, hb₂⟩ := pushString_spec (i := i) (s := s) (by omega) hs₁ (by omega)
    refine ⟨st₂, ?_, hs₂, by omega, fun j hj => ?_, ?_⟩
    · rw [Scratch.pushStrings, h1]
      exact h2
    · cases j with
      | zero => exact hp₂
      | succ j =>
        refine hb₂.points _ _ (by omega) ?_
        have := hp₁ j (Nat.lt_of_succ_lt_succ hj)
        rwa [show i + 1 + j = i + (j + 1) by omega] at this
    · rw [List.length_cons]
      exact (hb₁.mono (by omega) (by omega)).trans (hb₂.mono (by omega) (by omega))

end Strings

/-! ## 4. The block -/

section Block

variable {pages argvk user : Bytes} {filename : CString} {argv envp : Strings}

theorem countArgv_length (v : Strings) : countArgv v = (v.getD []).length := by
  cases v with
  | none => rfl
  | some v => rfl

/-- The scratch pages when the strings are copied. -/
structure Copied (filename : CString) (argv envp : Strings) (st : Scratch) : Prop where
  step : InStep st
  ktop : st.ktop + stringsSize (envp.getD []) + stringsSize (argv.getD []) + (filename.length + 1) =
    4 * Paging.PAGE_SIZE
  name : Points st 0 filename
  args : ∀ j (h : j < (argv.getD []).length), Points st (1 + j) (argv.getD [])[j]
  argsEnd : fetch st.argvk (4 * (countArgv argv + 1)) 4 = 0
  env : ∀ j (h : j < (envp.getD []).length), Points st (countArgv argv + 1 + 1 + j) (envp.getD [])[j]
  envEnd : fetch st.argvk (4 * (countArgv argv + 1 + 1 + countArgv envp)) 4 = 0

/-- **`copy_argv_envp`, up to the copy of the arrays.** -/
theorem copied (hfit : countArgv argv + countArgv envp + 3 ≤ 1024)
    (hsize : blockSize filename argv envp < 4 * Paging.PAGE_SIZE) :
    ∃ st, (do
      let st ← Scratch.setPtr ⟨pages, argvk, 4 * Paging.PAGE_SIZE, USER_STACK_TOP⟩ (countArgv argv + 1) 0
      let st ← st.setPtr (countArgv argv + 1 + 1 + countArgv envp) 0
      let st ← st.pushStrings (countArgv argv + 1 + 1) (envp.getD [])
      let st ← st.pushStrings 1 (argv.getD [])
      st.pushString 0 filename) = .ok st ∧ Copied filename argv envp st := by
  obtain ⟨hbase, hpages, htop⟩ := base_eq
  have hpage : Paging.PAGE_SIZE = 4096 := rfl
  have hargc := countArgv_length argv
  have henvc := countArgv_length envp
  unfold blockSize at hsize
  -- the two terminators
  obtain ⟨st₀, hst₀⟩ : ∃ st₀ : Scratch, st₀ = ⟨pages, store (store argvk (4 * (countArgv argv + 1)) 4 0)
      (4 * (countArgv argv + 1 + 1 + countArgv envp)) 4 0, 4 * Paging.PAGE_SIZE, USER_STACK_TOP⟩ := ⟨_, rfl⟩
  have hs₀ : InStep st₀ := by
    rw [hst₀]
    exact ⟨Nat.le_refl _, show USER_STACK_TOP = base + 4 * Paging.PAGE_SIZE by decide⟩
  have hk₀ : st₀.ktop = 4 * Paging.PAGE_SIZE := by rw [hst₀]
  have hargs₀ : fetch st₀.argvk (4 * (countArgv argv + 1)) 4 = 0 := by
    rw [hst₀]
    exact (fetch_store_ne (by omega)).trans (fetch_store_of_lt (by decide))
  have henv₀ : fetch st₀.argvk (4 * (countArgv argv + 1 + 1 + countArgv envp)) 4 = 0 := by
    rw [hst₀]
    exact fetch_store_of_lt (by decide)
  -- the strings
  obtain ⟨st₁, h1, hs₁, hk₁, hp₁, hb₁⟩ :=
    pushStrings_spec (i := countArgv argv + 1 + 1) (v := envp.getD []) (by omega) hs₀ (by omega)
  obtain ⟨st₂, h2, hs₂, hk₂, hp₂, hb₂⟩ :=
    pushStrings_spec (i := 1) (v := argv.getD []) (by omega) hs₁ (by omega)
  obtain ⟨st₃, h3, hs₃, hk₃, hp₃, hb₃⟩ :=
    pushString_spec (i := 0) (s := filename) (by omega) hs₂ (by omega)
  have hend {j : Nat} (hj : countArgv argv + 1 ≤ j) : j < 1 ∨ 1 + (argv.getD []).length ≤ j := by omega
  have hkeep (j : Nat) (hj : countArgv argv + 1 ≤ j) :
      fetch st₃.argvk (4 * j) 4 = fetch st₁.argvk (4 * j) 4 :=
    (hb₃.ptr j (by omega)).trans (hb₂.ptr j (hend hj))
  refine ⟨st₃, ?_, ⟨hs₃, by omega, hp₃, fun j hj => ?_, ?_, fun j hj => ?_, ?_⟩⟩
  · have hset : Scratch.setPtr ⟨pages, store argvk (4 * (countArgv argv + 1)) 4 0, 4 * Paging.PAGE_SIZE,
        USER_STACK_TOP⟩ (countArgv argv + 1 + 1 + countArgv envp) 0 = .ok st₀ := by
      rw [setPtr_ok (by omega), hst₀]
    exact bind_of_ok (setPtr_ok (by omega)) (bind_of_ok hset (bind_of_ok h1 (bind_of_ok h2 h3)))
  · exact hb₃.points _ _ (by omega) (hp₂ j hj)
  · rw [hkeep _ (Nat.le_refl _), hb₁.ptr _ (.inl (Nat.lt_succ_self _)), hargs₀]
  · exact hb₃.points _ _ (by omega) (hb₂.points (countArgv argv + 1 + 1 + j) _ (hend (by omega)) (hp₁ j hj))
  · rw [hkeep _ (by omega), hb₁.ptr _ (.inr (by omega)), henv₀]

/-- **The block in the user's stack**: at `k` the count, then the two arrays, then the strings. -/
structure Block (argc envc : Nat) (st : Scratch) (k : Nat) (mem : Bytes) : Prop where
  pos : 0 < k
  ktop : k + 4 + 4 * (argc + 1) + 4 * (envc + 1) = st.ktop
  count : fetch mem (base + k) 4 = argc
  args : ∀ i < argc + 1, fetch mem (base + k + 4 + 4 * i) 4 = fetch st.argvk (4 * i) 4
  env : ∀ i < envc + 1,
    fetch mem (base + k + 4 + 4 * (argc + 1) + 4 * i) 4 = fetch st.argvk (4 * (argc + 1 + i)) 4
  strings : ∀ p, st.ktop ≤ p → p < 4 * Paging.PAGE_SIZE → mem (base + p) = st.pages p

/-- **`copy_argv_envp`, from the copy of the arrays on.** -/
theorem built {st : Scratch} {argc envc : Nat} (hc : argc < 256 ^ 4) (hin : st.ktop ≤ 4 * Paging.PAGE_SIZE)
    (hroom : (envc + 1) * 4 + (argc + 1) * 4 + 4 < st.ktop) : ∃ k mem, (do
      let st ← st.push (fun j => st.argvk (4 * (argc + 1) + j)) ((envc + 1) * 4)
      let st ← st.push st.argvk ((argc + 1) * 4)
      let st ← st.push (store (fun _ => 0) 0 4 argc) 4
      Kernel.assert (0 < st.ktop)
      let len := 4 * Paging.PAGE_SIZE - st.ktop
      let utop := USER_STACK_TOP - len
      return (utop, copyIn user utop (fun j => st.pages (st.ktop + j)) len)) = .ok (base + k, mem) ∧
      Block argc envc st k mem := by
  obtain ⟨hbase, hpages, htop⟩ := base_eq
  obtain ⟨a, ha⟩ : ∃ a, a = st.ktop - (envc + 1) * 4 := ⟨_, rfl⟩
  obtain ⟨b, hb⟩ : ∃ b, b = a - (argc + 1) * 4 := ⟨_, rfl⟩
  obtain ⟨k, hk⟩ : ∃ k, k = b - 4 := ⟨_, rfl⟩
  obtain ⟨p₁, hp₁⟩ : ∃ p₁, p₁ =
    copyIn st.pages a (fun j => st.argvk (4 * (argc + 1) + j)) ((envc + 1) * 4) := ⟨_, rfl⟩
  obtain ⟨p₂, hp₂⟩ : ∃ p₂, p₂ = copyIn p₁ b st.argvk ((argc + 1) * 4) := ⟨_, rfl⟩
  obtain ⟨p₃, hp₃⟩ : ∃ p₃, p₃ = copyIn p₂ k (store (fun _ => 0) 0 4 argc) 4 := ⟨_, rfl⟩
  obtain ⟨mem, hmem⟩ : ∃ mem, mem =
    copyIn user (base + k) (fun j => p₃ (k + j)) (4 * Paging.PAGE_SIZE - k) := ⟨_, rfl⟩
  have hread {p : Nat} (h1 : k ≤ p) (h2 : p < 4 * Paging.PAGE_SIZE) : mem (base + p) = p₃ p := by
    rw [hmem, copyIn_of_mem (by omega) (by omega)]
    exact congrArg p₃ (by omega)
  refine ⟨k, mem, ?_, by omega, by omega, ?_, fun i hi => ?_, fun i hi => ?_, fun p h1 h2 => ?_⟩
  · have h1 : st.push (fun j => st.argvk (4 * (argc + 1) + j)) ((envc + 1) * 4) =
        .ok { st with pages := p₁, ktop := a } := by rw [push_ok (by omega), ← ha, ← hp₁]
    have h2 : Scratch.push { st with pages := p₁, ktop := a } st.argvk ((argc + 1) * 4) =
        .ok { st with pages := p₂, ktop := b } := by
      rw [push_ok (show (argc + 1) * 4 ≤ a by omega), hp₂, hb]
    have h3 : Scratch.push { st with pages := p₂, ktop := b } (store (fun _ => 0) 0 4 argc) 4 =
        .ok { st with pages := p₃, ktop := k } := by
      rw [push_ok (show 4 ≤ b by omega), hp₃, hk]
    have h4 : Kernel.assert (0 < k) = .ok () := if_pos (decide_eq_true (by omega))
    refine bind_of_ok h1 (bind_of_ok h2 (bind_of_ok h3 (bind_of_ok h4 ?_)))
    show Except.ok (USER_STACK_TOP - (4 * Paging.PAGE_SIZE - k),
      copyIn user (USER_STACK_TOP - (4 * Paging.PAGE_SIZE - k)) (fun j => p₃ (k + j)) (4 * Paging.PAGE_SIZE - k)) = _
    rw [show USER_STACK_TOP - (4 * Paging.PAGE_SIZE - k) = base + k by omega, ← hmem]
  · refine (@fetch_shift mem (store (fun _ => 0) 0 4 argc) (base + k) 0 4 fun j hj => ?_).trans
      (fetch_store_of_lt hc)
    rw [Nat.add_assoc, hread (by omega) (by omega), hp₃, copyIn_of_mem (by omega) (by omega)]
    exact congrArg _ (by omega)
  · refine fetch_shift fun j hj => ?_
    rw [show base + k + 4 + 4 * i + j = base + (k + 4 + 4 * i + j) by omega, hread (by omega) (by omega),
      hp₃, copyIn_of_ne (by omega), hp₂, copyIn_of_mem (by omega) (by omega)]
    exact congrArg _ (by omega)
  · refine fetch_shift fun j hj => ?_
    rw [show base + k + 4 + 4 * (argc + 1) + 4 * i + j = base + (k + 4 + 4 * (argc + 1) + 4 * i + j) by omega,
      hread (by omega) (by omega), hp₃, copyIn_of_ne (by omega), hp₂, copyIn_of_ne (by omega), hp₁,
      copyIn_of_mem (by omega) (by omega)]
    exact congrArg _ (by omega)
  · rw [hread (by omega) h2, hp₃, copyIn_of_ne (by omega), hp₂, copyIn_of_ne (by omega), hp₁,
      copyIn_of_ne (by omega)]

end Block

/-! ## 5. The program -/

section Program

variable {c : Cpu} {a n v : Nat}

@[simp] theorem push_esp : (c.push v).esp = c.esp - 4 := rfl

theorem fetch_push_ne (h : a + n ≤ c.esp - 4 ∨ c.esp - 4 + 4 ≤ a) :
    fetch (c.push v).mem a n = fetch c.mem a n := fetch_store_ne h

theorem fetch_push (hv : v < 256 ^ 4) : fetch (c.push v).mem (c.esp - 4) 4 = v := fetch_store_of_lt hv

theorem push_above (h : c.esp ≤ a) (h4 : 4 ≤ c.esp) : (c.push v).mem a = c.mem a :=
  store_of_ne (.inr (by omega))

/-- **`_start` passes the word at the stack pointer and the address above it on**, and writes below that
    address only. -/
theorem start_spec (e : Env) (hlow : 64 ≤ c.esp) (hhigh : c.esp + 4 < 256 ^ 4) :
    (∀ a, c.esp + 4 ≤ a → (start e c).mem a = c.mem a) ∧
      (libcStartMain (start e c)).argc = fetch c.mem c.esp 4 ∧
      (libcStartMain (start e c)).argv = c.esp + 4 := by
  obtain ⟨E, hE⟩ : ∃ E, E = (c.esp + 4) / 16 * 16 := ⟨_, rfl⟩
  obtain ⟨c₀, hc₀⟩ : ∃ c₀ : Cpu, c₀ = ⟨c.mem, E⟩ := ⟨_, rfl⟩
  obtain ⟨c₁, hc₁⟩ : ∃ c₁, c₁ =
    ((((c₀.push e.eax).push (c₀.push e.eax).esp).push e.edx).push e.init).push e.fini := ⟨_, rfl⟩
  have hstart : start e c =
      (((c₁.push (c.esp + 4)).push (fetch c.mem c.esp 4)).push e.main).push e.back := by
    rw [hc₁, hc₀, hE]
    rfl
  have hesp₀ : c₀.esp = E := by rw [hc₀]
  have hesp : c₁.esp = E - 20 := by
    rw [hc₁]
    simp only [push_esp, hesp₀]
    omega
  have h32 : (256 : Nat) ^ 4 = 4294967296 := by decide
  rw [hstart]
  refine ⟨fun a ha => ?_, ?_, ?_⟩
  · have hmem : c₁.mem a = c.mem a := by
      rw [hc₁, push_above, push_above, push_above, push_above, push_above, hc₀]
      all_goals
        simp only [push_esp, hesp₀]
        omega
    rw [push_above, push_above, push_above, push_above, hmem]
    all_goals
      simp only [push_esp, hesp]
      omega
  · show fetch ((((c₁.push (c.esp + 4)).push (fetch c.mem c.esp 4)).push e.main).push e.back).mem
      (c₁.esp - 4 - 4 - 4 - 4 + 8) 4 = _
    rw [show c₁.esp - 4 - 4 - 4 - 4 + 8 = (c₁.push (c.esp + 4)).esp - 4 by
      rw [push_esp]
      omega, fetch_push_ne, fetch_push_ne, fetch_push (fetch_lt _ _ 4)]
    all_goals
      simp only [push_esp]
      omega
  · show fetch ((((c₁.push (c.esp + 4)).push (fetch c.mem c.esp 4)).push e.main).push e.back).mem
      (c₁.esp - 4 - 4 - 4 - 4 + 12) 4 = _
    rw [show c₁.esp - 4 - 4 - 4 - 4 + 12 = c₁.esp - 4 by omega, fetch_push_ne, fetch_push_ne,
      fetch_push_ne, fetch_push hhigh]
    all_goals
      simp only [push_esp]
      omega

end Program

/-! ## 6. The vectors of `main` -/

section Main

variable {pages argvk user : Bytes} {filename : CString} {argv envp : Strings}

/-- A pointer that has been copied names its string. -/
theorem Points.str {st : Scratch} {i a : Nat} {s : CString} {mem : Bytes} (hp : Points st i s)
    (hmem : ∀ p, st.ktop ≤ p → p < 4 * Paging.PAGE_SIZE → mem (base + p) = st.pages p)
    (hptr : fetch mem a 4 = fetch st.argvk (4 * i) 4) :
    fetch mem a 4 ≠ 0 ∧ Str mem (fetch mem a 4) s := by
  obtain ⟨hbase, -, -⟩ := base_eq
  obtain ⟨k, hk, hend, hat, hstr⟩ := hp
  rw [hptr, hat]
  refine ⟨by omega, fun j hj => ?_⟩
  rw [Nat.add_assoc, hmem _ (by omega) (by omega)]
  exact hstr j hj

/-- **For all vectors whose pointers fit one page and whose block is below four pages, `main` receives
    the count with the file name, the file name and the strings of `argv`, and the strings of
    `envp`**, each vector with its `NULL`. -/
theorem stack_image (pages argvk user : Bytes) (filename : CString) (argv envp : Strings)
    (hfit : countArgv argv + countArgv envp + 3 ≤ 1024)
    (hsize : blockSize filename argv envp < 4 * Paging.PAGE_SIZE) :
    ∃ top mem, copyArgvEnvp pages argvk filename argv envp user = .ok (top, mem) ∧
      ∀ e, (libcStartMain (start e ⟨mem, top⟩)).argc = countArgv argv + 1 ∧
        Vec (libcStartMain (start e ⟨mem, top⟩)).mem (libcStartMain (start e ⟨mem, top⟩)).argv
          (filename :: argv.getD []) ∧
        Vec (libcStartMain (start e ⟨mem, top⟩)).mem (libcStartMain (start e ⟨mem, top⟩)).envp
          (envp.getD []) := by
  obtain ⟨hbase, hpages, htop⟩ := base_eq
  have h32 : (256 : Nat) ^ 4 = 4294967296 := by decide
  have hargc := countArgv_length argv
  have henvc := countArgv_length envp
  obtain ⟨st, hrun, hst⟩ := @copied pages argvk filename argv envp hfit hsize
  have hktop := hst.ktop
  have hin := hst.step.inside
  unfold blockSize at hsize
  obtain ⟨k, mem, hbuilt, hb⟩ := @built user st (countArgv argv + 1) (countArgv envp) (by omega) hin
    (by omega)
  have hk := hb.ktop
  refine ⟨base + k, mem, ?_, fun e => ?_⟩
  · obtain ⟨st₁, h1, hrun⟩ := ok_of_bind hrun
    obtain ⟨st₂, h2, hrun⟩ := ok_of_bind hrun
    obtain ⟨st₃, h3, hrun⟩ := ok_of_bind hrun
    obtain ⟨st₄, h4, h5⟩ := ok_of_bind hrun
    exact bind_of_ok h1 (bind_of_ok h2 (bind_of_ok h3 (bind_of_ok h4 (bind_of_ok h5 hbuilt))))
  obtain ⟨hmem, hc, hv⟩ := @start_spec ⟨mem, base + k⟩ e (by show 64 ≤ base + k; omega)
    (by show base + k + 4 < 256 ^ 4; omega)
  rw [show fetch mem (base + k) 4 = countArgv argv + 1 from hb.count] at hc
  have hword (a : Nat) (ha : base + k + 4 ≤ a) :
      fetch (start e ⟨mem, base + k⟩).mem a 4 = fetch mem a 4 :=
    fetch_congr fun i hi _ => hmem i (Nat.le_trans ha hi)
  have hstr (p : Nat) (h1 : st.ktop ≤ p) (h2 : p < 4 * Paging.PAGE_SIZE) :
      (start e ⟨mem, base + k⟩).mem (base + p) = st.pages p :=
    (hmem _ (by show base + k + 4 ≤ base + p; omega)).trans (hb.strings p h1 h2)
  have hargs (i : Nat) (hi : i < countArgv argv + 1 + 1) :
      fetch (start e ⟨mem, base + k⟩).mem (base + k + 4 + 4 * i) 4 = fetch st.argvk (4 * i) 4 :=
    (hword _ (by omega)).trans (hb.args i hi)
  have henv (i : Nat) (hi : i < countArgv envp + 1) :
      fetch (start e ⟨mem, base + k⟩).mem (base + k + 4 + 4 * (countArgv argv + 1 + 1) + 4 * i) 4 =
        fetch st.argvk (4 * (countArgv argv + 1 + 1 + i)) 4 :=
    (hword _ (by omega)).trans (hb.env i hi)
  refine ⟨hc, ?_, ?_⟩
  · rw [hv]
    refine ⟨fun i hi => ?_, ?_⟩
    · rw [List.length_cons] at hi
      cases i with
      | zero => exact hst.name.str hstr (hargs 0 (by omega))
      | succ j =>
        refine (hst.args j (by omega)).str hstr ((hargs (j + 1) (by omega)).trans ?_)
        rw [Nat.add_comm 1 j]
    · rw [List.length_cons, ← hargc]
      exact (hargs _ (by omega)).trans hst.argsEnd
  · rw [show (libcStartMain (start e ⟨mem, base + k⟩)).envp = base + k + 4 + 4 * (countArgv argv + 1 + 1) by
      show (libcStartMain (start e ⟨mem, base + k⟩)).argv + 4 * ((libcStartMain (start e ⟨mem, base + k⟩)).argc + 1) = _
      rw [hc, hv]]
    refine ⟨fun i hi => (hst.env i hi).str hstr (henv i (by omega)), ?_⟩
    rw [← henvc]
    exact (henv _ (by omega)).trans hst.envEnd

/-- `ls -a` without an environment. -/
theorem stack_image_ls : ∃ top mem,
    copyArgvEnvp (fun _ => 0) (fun _ => 0) [108, 115] (some [[45, 97]]) none (fun _ => 0) = .ok (top, mem) ∧
      ∀ e, (libcStartMain (start e ⟨mem, top⟩)).argc = 2 ∧
        Vec (libcStartMain (start e ⟨mem, top⟩)).mem (libcStartMain (start e ⟨mem, top⟩)).argv
          [[108, 115], [45, 97]] ∧
        Vec (libcStartMain (start e ⟨mem, top⟩)).mem (libcStartMain (start e ⟨mem, top⟩)).envp [] :=
  stack_image _ _ _ [108, 115] (some [[45, 97]]) none (by decide) (by decide)

end Main

/-! ## 7. Stores outside the scratch pages -/

section Outside

variable {st : Scratch} {i n m len : Nat} {src : Bytes} {s : CString} {x : Except Stop Scratch}
  {f : Scratch → Except Stop Scratch}

/-- `n` bytes have been taken from the top of the four pages, where there are as many; else a byte
    below them has been written. -/
def Took (st : Scratch) (n : Nat) (r : Except Stop Scratch) : Prop :=
  if n ≤ st.ktop then ∃ st', r = .ok st' ∧ st'.ktop = st.ktop - n else r = .error .outOfBuffer

theorem Took.bind (h : Took st n x) (hf : ∀ st', Took st' m (f st')) : Took st (n + m) (x >>= f) := by
  unfold Took at h ⊢
  by_cases hn : n ≤ st.ktop
  · rw [if_pos hn] at h
    obtain ⟨st₁, rfl, hk⟩ := h
    show if n + m ≤ st.ktop then ∃ st', f st₁ = .ok st' ∧ st'.ktop = st.ktop - (n + m)
      else f st₁ = .error .outOfBuffer
    have h₁ := hf st₁
    unfold Took at h₁
    by_cases hm : m ≤ st₁.ktop
    · rw [if_pos hm] at h₁
      obtain ⟨st₂, h₂, hk₂⟩ := h₁
      rw [if_pos (by omega)]
      exact ⟨st₂, h₂, by omega⟩
    · rw [if_neg hm] at h₁
      rw [if_neg (by omega)]
      exact h₁
  · rw [if_neg hn] at h
    rw [if_neg (by omega), h]
    rfl

theorem push_took (st : Scratch) (src : Bytes) (len : Nat) : Took st len (st.push src len) := by
  unfold Took Scratch.push
  by_cases h : len ≤ st.ktop
  · rw [if_pos h, if_neg (Nat.not_lt.mpr h)]
    exact ⟨_, rfl, rfl⟩
  · rw [if_neg h, if_pos (Nat.lt_of_not_le h)]

theorem pushString_took (hi : 4 * i + 4 ≤ Paging.PAGE_SIZE) (st : Scratch) (s : CString) :
    Took st (s.length + 1) (st.pushString i s) := by
  have hptr : ∀ st' : Scratch, Took st' 0 (st'.setPtr i st'.utop) := fun st' => by
    unfold Took
    rw [if_pos (Nat.zero_le _), setPtr_ok hi]
    exact ⟨_, rfl, rfl⟩
  exact (push_took { st with utop := st.utop - (s.length + 1) } (bytesOf s) (s.length + 1)).bind hptr

theorem pushStrings_took {v : List CString} (hi : 4 * (i + v.length) ≤ Paging.PAGE_SIZE) (st : Scratch) :
    Took st (stringsSize v) (st.pushStrings i v) := by
  induction v generalizing i with
  | nil =>
    unfold Took
    rw [if_pos (show stringsSize [] ≤ st.ktop from Nat.zero_le _)]
    exact ⟨st, rfl, rfl⟩
  | cons s rest ih =>
    rw [List.length_cons] at hi
    have hsum : stringsSize (s :: rest) = stringsSize rest + (s.length + 1) := by
      simp [stringsSize, Nat.add_comm]
    rw [hsum]
    exact (ih (i := i + 1) (by omega)).bind fun st' => pushString_took (by omega) st' s

/-- What comes behind needs `m` bytes. -/
theorem Took.inside_iff {β : Type} (h : Took st n x) {k : Scratch → Except Stop β}
    (hk : ∀ st', k st' ≠ .error .outOfBuffer ↔ m ≤ st'.ktop) :
    x >>= k ≠ .error .outOfBuffer ↔ n + m ≤ st.ktop := by
  unfold Took at h
  by_cases hn : n ≤ st.ktop
  · rw [if_pos hn] at h
    obtain ⟨st₁, rfl, hk₁⟩ := h
    refine (hk st₁).trans ?_
    omega
  · rw [if_neg hn] at h
    rw [h]
    exact iff_of_false (fun hne => hne rfl) (by omega)

theorem setPtr_bind {β : Type} (hi : 4 * i + 4 ≤ Paging.PAGE_SIZE) {k : Scratch → Except Stop β} :
    st.setPtr i n >>= k = k { st with argvk := store st.argvk (4 * i) 4 n } := bind_of_ok (setPtr_ok hi) rfl

theorem not_inside_of_setPtr {β : Type} (hi : Paging.PAGE_SIZE < 4 * i + 4) {k : Scratch → Except Stop β} :
    st.setPtr i n >>= k = .error .outOfBuffer := by
  rw [Scratch.setPtr, if_pos hi]
  rfl

end Outside

/-- Too many pointers: the first that is stored, or the second, lies behind the page. -/
theorem outside_of_pointers {pages argvk user : Bytes} {filename : CString} {argv envp : Strings}
    (h : ¬ countArgv argv + countArgv envp + 3 ≤ 1024) :
    copyArgvEnvp pages argvk filename argv envp user = .error .outOfBuffer := by
  have hpage : Paging.PAGE_SIZE = 4096 := rfl
  unfold copyArgvEnvp
  dsimp only
  by_cases h1 : 4 * (countArgv argv + 1) + 4 ≤ Paging.PAGE_SIZE
  · rw [setPtr_bind h1]
    exact not_inside_of_setPtr (by omega)
  · exact not_inside_of_setPtr (by omega)

/-- **All stores of `copy_argv_envp` stay in the page of pointers and the four pages of strings** exactly
    when the pointers fit the page and the block fits the four pages. -/
theorem copy_inside_iff (pages argvk user : Bytes) (filename : CString) (argv envp : Strings) :
    copyArgvEnvp pages argvk filename argv envp user ≠ .error .outOfBuffer ↔
      countArgv argv + countArgv envp + 3 ≤ 1024 ∧ blockSize filename argv envp ≤ 4 * Paging.PAGE_SIZE := by
  have hpage : Paging.PAGE_SIZE = 4096 := rfl
  have hargc := countArgv_length argv
  have henvc := countArgv_length envp
  by_cases hfit : countArgv argv + countArgv envp + 3 ≤ 1024
  · unfold copyArgvEnvp
    dsimp only
    rw [setPtr_bind (by omega), setPtr_bind (by omega)]
    refine ((pushStrings_took (by omega) _).inside_iff fun st₁ =>
      (pushStrings_took (by omega) st₁).inside_iff fun st₂ =>
      (pushString_took (by omega) st₂ filename).inside_iff fun st₃ =>
      (push_took st₃ _ _).inside_iff fun st₄ => (push_took st₄ _ _).inside_iff fun st₅ =>
      (push_took st₅ _ _).inside_iff (m := 0) fun st₆ => ?_).trans ?_
    -- the check of `ktop` stops with its assertion
    · by_cases h : 0 < st₆.ktop
      · have hassert : Kernel.assert (0 < st₆.ktop) = .ok () := if_pos (decide_eq_true h)
        rw [hassert]
        exact iff_of_true (by simp) (Nat.zero_le _)
      · have hassert : Kernel.assert (0 < st₆.ktop) = .error .assertion := if_neg (by simpa using h)
        rw [hassert]
        exact iff_of_true (by simp) (Nat.zero_le _)
    · unfold blockSize
      dsimp only
      constructor
      · intro h
        exact ⟨hfit, by omega⟩
      · intro h
        omega
  · exact iff_of_false (fun h => h (outside_of_pointers hfit)) fun h => hfit h.1

/-- **1022 empty arguments**: the first pointer of `envp` is stored behind the page. -/
theorem copy_outside : ¬ ∀ (pages argvk user : Bytes) (filename : CString) (argv envp : Strings),
    copyArgvEnvp pages argvk filename argv envp user ≠ .error .outOfBuffer := by
  intro h
  obtain ⟨v, hv⟩ : ∃ v : List CString, v.length = 1022 :=
    ⟨List.replicate 1022 [], List.length_replicate⟩
  have hcount : countArgv (some v) = 1022 := hv
  refine h (fun _ => 0) (fun _ => 0) (fun _ => 0) [47, 97] (some v) none (outside_of_pointers ?_)
  rw [hcount]
  decide

end Yuios.Execve
