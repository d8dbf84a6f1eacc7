import Xv6.UserSafety

/-!
# `exec` is all or nothing

`kexecOp` is `kexec` with what it does besides building an address space: it holds
an operation of the log, a reference to the inode and the inode's lock while it
reads the file, and it sets the name of the process. `sysExec` is `sys_exec` around
it, with the pages of `argv[]` in the state. What `kexec` does to memory is
`kexec_outcome`; here it is put together with the rest. The machine of `UserSys` has
the same calls without files and names: `sysExec_refines`.
-/

namespace Xv6.UserSys

open Function Multiset

open Prog

/-- The process that calls `exec`, and what `exec` uses. -/
structure ExecState where
  kmem : KMem
  /-- `p` -/
  proc : UProc
  /-- `p->name` -/
  name : List UInt8
  /-- `itable.inode[i].ref` -/
  ref : ℕ → ℕ
  /-- is `itable.inode[i].lock` held? -/
  locked : ℕ → Bool
  /-- `log.outstanding` -/
  outstanding : ℕ
  /-- the pages `argv[i]` points to, in `sys_exec` -/
  argv : List ℕ

/-- Kernel code of `exec`. -/
abbrev ES (α : Type) : Type := Prog ExecState α

namespace ES

/-- Run code that works on memory. -/
def vm {α : Type} (x : VM α) : ES α := zoom ExecState.kmem (fun m s => { s with kmem := m }) x

/-- `begin_op`, when there is room in the log -/
def begin_op : ES Unit := modify fun s => { s with outstanding := s.outstanding + 1 }

/-- `end_op` -/
def end_op : ES Unit := modify fun s => { s with outstanding := s.outstanding - 1 }

/-- `iget`, in `namei` -/
def iget (i : ℕ) : ES Unit := modify fun s =>
  { s with ref := update s.ref i (s.ref i + 1) }

/-- `ilock` -/
def ilock (i : ℕ) : ES Unit := do
  if (← get).locked i then
    Prog.wait
  else
    modify fun s => { s with locked := update s.locked i true }

/-- `iunlockput`, and `end_op` after it -/
def release (i : ℕ) : ES Unit := do
  modify fun s => { s with
    locked := update s.locked i false
    ref := update s.ref i (s.ref i - 1) }
  end_op

end ES

/-- The name of the program at `path`, as `safestrcpy(p->name, last, sizeof(p->name))` copies it. -/
def progName (path : List UInt8) : List UInt8 :=
  (path.reverse.takeWhile (· ≠ 47)).reverse.take 15

/-- `kexec`, from where the program has been loaded -/
def kexecStack (path elf : List UInt8) (argv : List (List UInt8)) (pagetable sz : ℕ) : ES ℤ := do
  let p ← get
  let sz := PGROUNDUP sz
  let sz1 ← ES.vm (uvmalloc pagetable sz (sz + (USERSTACK + 1) * PGSIZE) PTE_W)
  if sz1 = 0 then
    ES.vm (proc_freepagetable pagetable sz)
    return -1
  else
    ES.vm (uvmclear pagetable (sz1 - (USERSTACK + 1) * PGSIZE))
    match ← ES.vm (pushArgs p.proc.me pagetable sz1 argv) with
    | none =>
      ES.vm (proc_freepagetable pagetable sz1)
      return -1
    | some (sp, argc) =>
      ES.vm (VM.store (p.proc.trapframe + 120) sp)
      modify fun s => { s with
        name := progName path
        proc := { s.proc with pagetable := pagetable, sz := sz1 } }
      ES.vm (VM.store (p.proc.trapframe + 24) (field elf 8 24))
      ES.vm (VM.store (p.proc.trapframe + 48) sp)
      ES.vm (proc_freepagetable p.proc.pagetable p.proc.sz)
      return argc

/-- `kexec`; `ip` is the inode that `namei` finds under `path`, and what is in the file -/
def kexecOp (path : List UInt8) (ip : Option (ℕ × List UInt8)) (argv : List (List UInt8)) :
    ES ℤ := do
  ES.begin_op
  match ip with
  | none =>
    ES.end_op
    return -1
  | some (i, file) =>
    ES.iget i
    ES.ilock i
    let elf := readi file 0 elfhdrSize
    if elf.length ≠ elfhdrSize then
      ES.release i
      return -1
    else if field elf 4 0 ≠ ELF_MAGIC then
      ES.release i
      return -1
    else
      let pagetable ← ES.vm (proc_pagetable (← get).proc.trapframe)
      if pagetable = 0 then
        ES.release i
        return -1
      else
        let (ok, sz) ← ES.vm
          (loadLoop pagetable file (field elf 2 56) (field elf 8 32 % 2 ^ 32) 0)
        if !ok then
          ES.vm (proc_freepagetable pagetable sz)
          ES.release i
          return -1
        else
          ES.release i
          kexecStack path elf argv pagetable sz

/-- `sys_exec`; `fs` tells what `namei` finds under a path -/
def sysExec (path uargv : ℕ) (fs : List UInt8 → Option (ℕ × List UInt8)) : ES ℤ := do
  let q := (← get).proc
  let (r, bytes) ← ES.vm (copyinstr q.pagetable path MAXPATH)
  if r < 0 then
    return -1
  else
    let (pages, argv) ← ES.vm (argvLoop q uargv MAXARG [] [])
    modify fun s => { s with argv := pages }
    match argv with
    | none =>
      ES.vm (kfreeAll pages)
      return -1
    | some argv =>
      let ret ← kexecOp bytes.dropLast (fs bytes.dropLast) argv
      ES.vm (kfreeAll pages)
      return ret

variable {F : Multiset ℕ} {s s' : ExecState} {path elf : List UInt8} {argv : List (List UInt8)}

/-! ## `kexecOp` does to memory what `kexec` does -/

/-- What is held during `exec` has been given back; the name changes on success only. -/
structure Released (s : ExecState) (r : ℤ) (s' : ExecState) : Prop where
  ref : s'.ref = s.ref
  locked : s'.locked = s.locked
  outstanding : s'.outstanding = s.outstanding
  argv : s'.argv = s.argv
  name : r = -1 → s'.name = s.name
  proc : s'.proc = { s.proc with sz := s'.proc.sz, pagetable := s'.proc.pagetable }

/-- The stack, and the new address space in its place. -/
theorem kexecStack_spec {pagetable sz : ℕ} {Q : ℤ × Me → KMem → Prop}
    (h : Meets (do
      let sz := PGROUNDUP sz
      let sz1 ← uvmalloc pagetable sz (sz + (USERSTACK + 1) * PGSIZE) PTE_W
      if sz1 = 0 then
        return (sz, none)
      else
        uvmclear pagetable (sz1 - (USERSTACK + 1) * PGSIZE)
        return (sz1, ← pushArgs s.proc.me pagetable sz1 argv)) s.kmem
      (fun x k => Meets (match x with
        | (sz, none) => do
          proc_freepagetable pagetable sz
          return (-1, s.proc.me)
        | (sz, some (sp, argc)) => do
          VM.store (s.proc.trapframe + 120) sp
          VM.store (s.proc.trapframe + 24) (field elf 8 24)
          VM.store (s.proc.trapframe + 48) sp
          proc_freepagetable s.proc.me.pagetable s.proc.me.sz
          return ((argc : ℤ), ({ sz := sz, pagetable := pagetable } : Me))) k Q Never) Never) :
    Meets (kexecStack path elf argv pagetable sz) s
      (fun r s' => Q (r, s'.proc.me) s'.kmem ∧ Released s r s') Never := by
  rw [meets_bind] at h
  rw [kexecStack, meets_bind, meets_get, meets_bind, ES.vm, meets_zoom]
  refine h.imp fun sz1 k₁ h₁ => ?_
  by_cases h0 : sz1 = 0
  · rw [if_pos h0, meets_pure] at h₁
    rw [if_pos h0]
    simp only [ES.vm, meets_bind, meets_zoom, meets_pure] at h₁ ⊢
    exact h₁.imp fun _ k₂ h₂ => ⟨h₂, rfl, rfl, rfl, rfl, fun _ => rfl, rfl⟩
  · rw [if_neg h0] at h₁ ⊢
    simp only [ES.vm, meets_bind, meets_zoom, meets_pure] at h₁ ⊢
    generalize sz1 - (USERSTACK + 1) * PGSIZE = guard at h₁ ⊢
    refine h₁.imp fun _ k₂ h₂ => h₂.imp fun r k₃ h₃ => ?_
    rcases r with _ | ⟨sp, argc⟩
    · simp only [meets_bind, meets_zoom, meets_pure] at h₃ ⊢
      exact h₃.imp fun _ k₄ h₄ => ⟨h₄, rfl, rfl, rfl, rfl, fun _ => rfl, rfl⟩
    · simp only [meets_bind, meets_zoom, meets_modify, meets_pure, VM.store] at h₃ ⊢
      exact h₃.imp fun _ k₄ h₄ => ⟨h₄, rfl, rfl, rfl, rfl, fun hr => by omega, rfl⟩

/-- While the file is read: `exec` has an operation, a reference and the lock. -/
def ExecState.held (s : ExecState) (i : ℕ) : ExecState :=
  { s with
    outstanding := s.outstanding + 1
    ref := update s.ref i (s.ref i + 1)
    locked := update s.locked i true }

theorem meets_release {i : ℕ} {k : KMem} {Q : Unit → ExecState → Prop} {E : String → Prop}
    (hfree : s.locked i = false) :
    Meets (ES.release i) { s.held i with kmem := k } Q E ↔ Q () { s with kmem := k } := by
  have hlocked : update s.locked i false = s.locked := by
    rw [← hfree, update_eq_self]
  simp only [ES.release, ES.end_op, meets_bind, meets_modify, ExecState.held,
    update_idem, update_self, Nat.add_sub_cancel, update_eq_self, hlocked]

/-- **`kexecOp`** does to memory what `kexec` does, and gives back what it holds. -/
theorem kexecOp_spec {ip : Option (ℕ × List UInt8)} {Q : ℤ × Me → KMem → Prop}
    (hfree : ∀ x ∈ ip, s.locked x.1 = false)
    (h : Meets (kexec s.proc.me s.proc.trapframe (ip.map Prod.snd) argv) s.kmem Q Never) :
    Meets (kexecOp path ip argv) s (fun r s' => Q (r, s'.proc.me) s'.kmem ∧ Released s r s')
      Never := by
  have hsame : ∀ k r, Released s r { s with kmem := k } := fun k r =>
    ⟨rfl, rfl, rfl, rfl, fun _ => rfl, rfl⟩
  rcases ip with _ | ⟨i, file⟩
  · simp only [kexecOp, ES.begin_op, ES.end_op, meets_bind, meets_modify, meets_pure,
      Nat.add_sub_cancel]
    exact ⟨h, hsame s.kmem (-1)⟩
  have hlock : s.locked i = false := hfree _ rfl
  simp only [Option.map_some] at h
  simp only [kexecOp, ES.begin_op, ES.iget, ES.ilock, meets_bind, meets_modify, meets_get, hlock]
  -- from here on the lock is held
  change Meets _ (s.held i) _ _
  rw [kexec] at h
  -- every way out of this part
  have hout : ∀ k, Q (-1, s.proc.me) k → Meets (do ES.release i; return -1)
      { s.held i with kmem := k } (fun r s' => Q (r, s'.proc.me) s'.kmem ∧ Released s r s')
      Never := fun k hk => by
    rw [meets_bind, meets_release hlock]
    exact ⟨hk, hsame k (-1)⟩
  by_cases h1 : (readi file 0 elfhdrSize).length ≠ elfhdrSize
  · rw [if_pos h1] at h ⊢
    exact hout s.kmem h
  rw [if_neg h1] at h ⊢
  by_cases h2 : field (readi file 0 elfhdrSize) 4 0 ≠ ELF_MAGIC
  · rw [if_pos h2] at h ⊢
    exact hout s.kmem h
  rw [if_neg h2] at h ⊢
  rw [meets_bind] at h
  simp only [meets_bind, meets_get, ES.vm, meets_zoom]
  refine h.imp fun pagetable k₁ h₁ => ?_
  by_cases h3 : pagetable = 0
  · rw [if_pos h3] at h₁ ⊢
    exact hout k₁ h₁
  rw [if_neg h3] at h₁ ⊢
  simp only [buildImage, meets_bind] at h₁
  simp only [meets_bind, meets_zoom]
  refine h₁.imp fun x k₂ h₂ => ?_
  rcases x with ⟨ok, sz⟩
  cases ok with
  | false =>
    simp only [Bool.not_false, if_true, meets_pure, meets_bind] at h₂ ⊢
    rw [meets_zoom]
    refine h₂.imp fun _ k₃ h₃ => ?_
    exact hout k₃ h₃
  | true =>
    simp only [Bool.not_true, Bool.false_eq_true, if_false] at h₂ ⊢
    rw [meets_bind, meets_release hlock]
    refine (kexecStack_spec (s := { s with kmem := k₂ }) h₂).imp ?_
    rintro r s' ⟨hq, hr⟩
    exact ⟨hq, hr.ref, hr.locked, hr.outstanding, hr.argv, hr.name, hr.proc⟩

/-- **`sysExec`** does to memory what `sys_exec` of `UserSys` does. -/
theorem sysExec_refines {σ : UState} {p path uargv : ℕ} {Q : ℤ → UState → Prop}
    {fs : List UInt8 → Option (ℕ × List UInt8)} (hkmem : s.kmem = σ.kmem) (hproc : s.proc = σ.proc p)
    (hfree : ∀ path, ∀ x ∈ fs path, s.locked x.1 = false)
    (h : Meets (sys_exec p path uargv fun path => (fs path).map Prod.snd) σ Q Never) :
    Meets (sysExec path uargv fs) s
      (fun r s' => Q r { σ with kmem := s'.kmem, proc := update σ.proc p s'.proc }) Never := by
  obtain ⟨kmem, proc, name, ref, locked, outstanding, argv⟩ := s
  obtain rfl : kmem = σ.kmem := hkmem
  obtain rfl : proc = σ.proc p := hproc
  simp only [sys_exec, kexecBy, US.proc, US.setProc, US.vm, meets_bind, meets_get, meets_pure,
    meets_zoom] at h
  simp only [sysExec, meets_bind, meets_get, ES.vm, meets_zoom]
  refine h.imp fun x k h => ?_
  split
  · rw [if_pos ‹_›, meets_pure] at h
    simpa only [meets_pure, update_eq_self] using h
  rw [if_neg ‹_›] at h
  simp only [meets_bind, meets_zoom, meets_modify] at h ⊢
  refine h.imp ?_
  rintro ⟨pages, argv⟩ k₁ h₁
  rcases argv with _ | argv
  · simpa only [meets_bind, meets_zoom, meets_pure, update_eq_self] using h₁
  simp only [meets_bind, meets_get, meets_zoom, meets_modify, meets_pure] at h₁ ⊢
  refine (kexecOp_spec (s := ⟨k₁, σ.proc p, name, ref, locked, outstanding, pages⟩) (hfree _)
    h₁).imp ?_
  rintro r s' ⟨h₂, hrel⟩
  refine h₂.imp fun _ k₂ h₃ => ?_
  rw [hrel.proc]
  exact h₃

/-! ## All or nothing -/

attribute [local irreducible] leaf

/-- The process that calls `exec` has an address space of its own, and `F` are the free pages. -/
structure Caller (F : Multiset ℕ) (s : ExecState) : Prop where
  chain : Chain s.kmem F
  sep : Sep s.kmem.kend (s.proc.trapframe ::ₘ (F + asPages s.kmem.mem s.proc.pagetable))
  space : AddrSpace s.kmem s.proc.pagetable s.proc.trapframe s.proc.sz
  trampoline : s.kmem.trampoline < WORD

/-- The process is as before, with its memory, and the same pages are free. -/
structure Unharmed (F : Multiset ℕ) (s s' : ExecState) : Prop where
  me : s'.proc.me = s.proc.me
  trapframe : SamePage s.kmem.mem s'.kmem.mem s.proc.trapframe s.proc.trapframe
  leaf_eq : ∀ v < 512 ^ 3,
    leaf s'.kmem.mem s.proc.pagetable v = leaf s.kmem.mem s.proc.pagetable v
  content : ∀ v < UPAGES, ∀ e, leaf s.kmem.mem s.proc.pagetable v = some e →
    SamePage s.kmem.mem s'.kmem.mem (PTE2PA e) (PTE2PA e)
  chain : Chain s'.kmem F

theorem Caller.unharmed (h : Caller F s) (hme : s'.proc.me = s.proc.me) (hc : Chain s'.kmem F)
    (ht : Touches F s.kmem s'.kmem) : Unharmed F s s' := by
  have hsep := h.sep.mono (le_cons_self _ _)
  refine ⟨hme, ht.samePage (h.sep.page _ (mem_cons_self _ _)).1 fun hF => ?_, ?_,
    fun v hv e hl => ?_, hc⟩
  · exact (nodup_cons.mp h.sep.nodup).1 (mem_add.mpr (.inl hF))
  · refine (ht.tree _ fun x hx => ?_).2.2.1
    have hx' : x ∈ asPages s.kmem.mem s.proc.pagetable := mem_add.mpr (.inl hx)
    exact ⟨(hsep.right.page x hx').1, fun hF => hsep.not_mem hF hx'⟩
  · exact frame_samePage hsep hv hl ht fun q hq => mem_add.mpr (.inl hq)

/-- What `kexec` has done: nothing, or the free pages have changed with the address space. -/
theorem kexecOp_outcome {ip : Option (ℕ × List UInt8)} (h : Caller F s)
    (hargv : ∀ arg ∈ argv, arg.length < PGSIZE) (hfree : ∀ x ∈ ip, s.locked x.1 = false) :
    Meets (kexecOp path ip argv) s (fun r s' => Released s r s' ∧
      (r = -1 ∧ Unharmed F s s' ∧ Touches F s.kmem s'.kmem ∨
        0 ≤ r ∧ ∃ F', Replaces s.proc.trapframe s.proc.me s'.proc.me F F' s.kmem s'.kmem))
      Never := by
  refine (kexecOp_spec hfree (kexec_outcome h.chain h.sep h.space h.trampoline hargv)).imp ?_
  rintro r s' ⟨⟨rfl, hme, hc, ht⟩ | ⟨hr, F', hrep, -⟩, hrel⟩
  · exact ⟨hrel, .inl ⟨rfl, h.unharmed hme hc ht, ht⟩⟩
  · exact ⟨hrel, .inr ⟨hr, F', hrep⟩⟩

/-- The pages of `argv[]` are free, each of them once, and the free pages and those of the address
space are `P` together: none is lost. -/
def ArgvFreed (P : Multiset ℕ) (s : ExecState) : Prop :=
  ∃ F, Chain s.kmem F ∧ F.Nodup ∧ (s.argv : Multiset ℕ) ≤ F ∧
    F + asPages s.kmem.mem s.proc.pagetable = P

/-- They are freed at the end. -/
theorem kfreeAll_frees {pages : List ℕ} {tf : ℕ} (hpages : s.argv = pages) (hc : Chain s.kmem F)
    (hsep : Sep s.kmem.kend (F + pages + asPages s.kmem.mem s.proc.pagetable))
    (hspace : AddrSpace s.kmem s.proc.pagetable tf s.proc.sz) :
    Meets (ES.vm (kfreeAll pages)) s (fun _ s' =>
      ArgvFreed (F + pages + asPages s.kmem.mem s.proc.pagetable) s') Never := by
  rw [ES.vm, meets_zoom]
  refine (kfreeAll_spec hc hsep.left).imp ?_
  rintro _ k' ⟨hc', ht⟩
  obtain ⟨-, hpages'⟩ := hspace.frame ht fun x hx => by
    have hx' : x ∈ asPages s.kmem.mem s.proc.pagetable := mem_add.mpr (.inl hx)
    exact ⟨(hsep.right.page x hx').1, fun hF => hsep.not_mem hF hx'⟩
  subst hpages
  exact ⟨_, hc', hsep.left.nodup, le_add_left _ _, by rw [hpages']⟩

/-- **`sys_exec`** frees the pages of its arguments, each of them once, however it ends. -/
theorem sysExec_frees {p uargv : ℕ} {fs : List UInt8 → Option (ℕ × List UInt8)} (h : Caller F s)
    (hargv : s.argv = []) (hfree : ∀ path, ∀ x ∈ fs path, s.locked x.1 = false) :
    Meets (sysExec p uargv fs) s
      (fun _ s' => ArgvFreed (F + asPages s.kmem.mem s.proc.pagetable) s') Never := by
  have hsep := h.sep.mono (le_cons_self _ _)
  simp only [sysExec, meets_bind, meets_get, ES.vm, meets_zoom]
  refine (copyinstr_spec hsep.tables.right.page).imp ?_
  rintro ⟨r, bytes⟩ k ⟨rfl, -⟩
  split
  · rw [meets_pure]
    exact ⟨F, h.chain, hsep.left.nodup, by rw [hargv]; exact Multiset.zero_le _, rfl⟩
  simp only [meets_bind, meets_zoom]
  have hloop : Meets (argvLoop s.proc uargv MAXARG [] []) s.kmem _ Never :=
    argvLoop_spec h.chain (by simpa using hsep) h.space (by simp)
  refine hloop.imp ?_
  rintro ⟨pages, argv⟩ k₁ ⟨F₁, hf, hlen⟩
  have hsum : F₁ + (pages : Multiset ℕ) + asPages k₁.mem s.proc.pagetable =
      F + asPages s.kmem.mem s.proc.pagetable := by simpa using hf.sum
  have hsep₁ : Sep k₁.kend (s.proc.trapframe ::ₘ
      (F₁ + (pages : Multiset ℕ) + asPages k₁.mem s.proc.pagetable)) := by
    rw [hsum, hf.touches.kend]
    exact h.sep
  rw [meets_modify, ← hsum]
  rcases argv with _ | argv
  · dsimp only
    rw [meets_bind]
    exact (kfreeAll_frees (s := { s with kmem := k₁, argv := pages }) rfl hf.chain
      (hsep₁.mono (le_cons_self _ _)) hf.space).imp fun _ s' h => h
  set s₁ : ExecState := { s with kmem := k₁, argv := pages } with hs₁
  rw [add_right_comm] at hsep₁ ⊢
  have hsepA := hsep₁.mono (le_cons_self _ _)
  rw [← cons_add] at hsep₁
  have h₁ : Caller F₁ s₁ := ⟨hf.chain, hsep₁.left, hf.space, by
    rw [hs₁, hf.touches.trampoline]
    exact h.trampoline⟩
  rw [meets_bind]
  refine (kexecOp_outcome h₁ (hlen argv rfl) (hfree _)).imp ?_
  rintro ret s₂ ⟨hrel, hr⟩
  obtain ⟨F₂, hrep⟩ : ∃ F₂, Replaces s.proc.trapframe s.proc.me s₂.proc.me F₁ F₂ k₁ s₂.kmem := by
    rcases hr with ⟨-, hun, ht⟩ | ⟨-, hrep⟩
    · rw [hun.me]
      exact ⟨F₁, .of_free hsep₁.left hf.space hun.chain ht⟩
    · exact hrep
  have hsum₂ : F₂ + asPages s₂.kmem.mem s₂.proc.pagetable =
    F₁ + asPages k₁.mem s.proc.pagetable := hrep.sum
  rw [meets_bind, ← hsum₂, add_right_comm]
  refine (kfreeAll_frees hrel.argv hrep.chain ?_ hrep.space).imp fun _ s' h => h
  rw [add_right_comm, hsum₂, hrep.touches.kend]
  exact hsepA

/-- **`exec` is safe, and all or nothing.** Whatever is in the file, `kexec` ends without a panic
and holds nothing any more; if it fails, the process is as before and the same pages are free. The
pages that `sys_exec` takes for its arguments are free when it returns, each of them once, and no
other page is lost. -/
theorem exec_atomic (h : Caller F s) :
    (∀ path ip argv, argv.length < MAXARG → (∀ arg ∈ argv, arg.length < PGSIZE) →
      (∀ x ∈ ip, s.locked x.1 = false) →
      Meets (kexecOp path ip argv) s (fun r s' => s'.ref = s.ref ∧ s'.locked = s.locked ∧
        s'.outstanding = s.outstanding ∧
        (r = -1 → s'.name = s.name ∧ s'.proc.trapframe = s.proc.trapframe ∧ Unharmed F s s'))
        Never) ∧
    (∀ path uargv fs, s.argv = [] → (∀ path, ∀ x ∈ fs path, s.locked x.1 = false) →
      Meets (sysExec path uargv fs) s
        (fun _ s' => ArgvFreed (F + asPages s.kmem.mem s.proc.pagetable) s') Never) := by
  refine ⟨fun path ip argv _ hargv hfree => ?_, fun path uargv fs hargv hfree =>
    sysExec_frees h hargv hfree⟩
  refine (kexecOp_outcome h hargv hfree).imp ?_
  rintro r s' ⟨hrel, hr⟩
  refine ⟨hrel.ref, hrel.locked, hrel.outstanding, fun hneg => ⟨hrel.name hneg, ?_, ?_⟩⟩
  · rw [hrel.proc]
  · rcases hr with ⟨-, hun, -⟩ | ⟨hpos, -⟩
    · exact hun
    · omega

/-- The process `p` calls `exec`. -/
def UState.caller (σ : UState) (p : ℕ) : ExecState where
  kmem := σ.kmem
  proc := σ.proc p
  name := []
  ref := fun _ => 0
  locked := fun _ => false
  outstanding := 0
  argv := []

theorem UInv.caller {b : Bool × ℕ} {K R : Multiset ℕ} {σ : UState} {p : ℕ} (h : UInv b K R σ)
    (hrun : (σ.proc p).state = .RUNNABLE) : ∃ F, Caller F (σ.caller p) := by
  obtain ⟨F, hc, hsep, hspace, htr, -⟩ := h.atExec (h.runnable hrun)
  exact ⟨F, hc, hsep, hspace, htr⟩

/-- The first process of a small machine runs `/init` once more, when there is no page left; and
with the arguments that are on its stack. -/
theorem exec_atomic_init :
    (∃ F s, Caller F s ∧ Meets (kexecOp initPath (some (0, emptyProgram)) [initPath]) s
      (fun r s' => r = -1 ∧ s'.ref = s.ref ∧ s'.locked = s.locked ∧ s'.name = s.name ∧
        Unharmed F s s') Never) ∧
    ∃ F s path uargv, Caller F s ∧
      HasBytes s.kmem.mem s.proc.pagetable path (initPath ++ [0]) ∧
      HasBytes s.kmem.mem s.proc.pagetable uargv (words [path, 0]) ∧
      Meets (sysExec path uargv fun _ => some (0, emptyProgram)) s
        (fun _ s' => ArgvFreed (F + asPages s.kmem.mem s.proc.pagetable) s') Never := by
  obtain ⟨-, σ, -, -, hstarted⟩ := exists_started
  constructor
  · obtain ⟨F, h⟩ := (hstarted.inv.setFails [true]).caller hstarted.running
    refine ⟨F, _, h, ?_⟩
    have hspec := (exec_atomic h).1 initPath (some (0, emptyProgram)) [initPath] (by decide)
      (by decide) fun _ _ => rfl
    have hfail : Meets (kexecOp initPath (some (0, emptyProgram)) [initPath])
        (UState.caller { σ with kmem := { σ.kmem with fails := [true] } } initproc)
        (fun r _ => r = -1) Never := rfl
    refine (hspec.and hfail).mono ?_ fun _ h => h.1
    rintro r s' ⟨⟨href, hlocked, -, hun⟩, rfl⟩
    exact ⟨rfl, href, hlocked, (hun rfl).1, (hun rfl).2.2⟩
  · obtain ⟨F, h⟩ := hstarted.inv.caller hstarted.running
    obtain ⟨sp, addrs, bot, hstacked, -, -, -, hwords⟩ := hstarted.args
    cases hstacked with
    | cons _ _ hpath hrest =>
      cases hrest
      exact ⟨F, _, _, sp, h, hpath, hwords, (exec_atomic h).2 _ sp _ rfl fun _ _ _ => rfl⟩

end Xv6.UserSys
