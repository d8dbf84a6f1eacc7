import Xv6.ExecAtomic

/-!
# `exec` builds the image that the file describes

The parts are put together here: the segments that `kexec` loads
(`loadLoop_loads`), and the stack it fills (`kexec_builds`). The strings on the
stack are given by their addresses, which are also what the array below them
has.
-/

namespace Xv6

open Prog

variable {s s' : KMem} {F : Multiset ℕ} {m : Bytes} {root tf top bot : ℕ} {ip : List UInt8}
  {argv : List (List UInt8)} {addrs : List ℕ}

/-- The program headers of a file. -/
def headers (ip : List UInt8) : List Proghdr :=
  headersFrom ip (field (readi ip 0 elfhdrSize) 2 56) (field (readi ip 0 elfhdrSize) 8 32)

/-- **An ELF file that is in order:** the headers are in the file, and so are the bytes of the
segments; a segment is above those before it. -/
structure Elf (ip : List UInt8) : Prop where
  length_lt : ip.length < 2 ^ 32
  headers_le : field (readi ip 0 elfhdrSize) 8 32 +
    field (readi ip 0 elfhdrSize) 2 56 * proghdrSize ≤ ip.length
  segments : Segments ip (headers ip)

/-! ## The stack -/

/-- Where the strings are, with their length. -/
def stringRanges (addrs : List ℕ) (argv : List (List UInt8)) : List (ℕ × ℕ) :=
  List.zipWith (fun a arg => (a, arg.length + 1)) addrs argv

/-- One range is before the other. -/
def RangesApart (r q : ℕ × ℕ) : Prop := r.1 + r.2 ≤ q.1 ∨ q.1 + q.2 ≤ r.1

theorem Stacked.bot_le (h : Stacked m root top argv addrs bot) : bot ≤ top := by
  induction h with
  | nil => exact le_rfl
  | cons _ hle _ _ ih => omega

theorem Stacked.strings (h : Stacked m root top argv addrs bot) :
    List.Forall₂ (fun a arg => HasBytes m root a (arg ++ [0])) addrs argv := by
  induction h with
  | nil => exact .nil
  | cons _ _ hhas _ ih => exact .cons hhas ih

theorem Stacked.within (h : Stacked m root top argv addrs bot) :
    ∀ r ∈ stringRanges addrs argv, bot ≤ r.1 ∧ r.1 + r.2 ≤ top := by
  induction h with
  | nil => exact nofun
  | cons _ hle _ hrest ih =>
    intro r hr
    rcases List.mem_cons.mp hr with rfl | hr
    · exact ⟨hrest.bot_le, hle⟩
    · have := ih r hr
      omega

/-- Strings are below those before them. -/
theorem Stacked.apart (h : Stacked m root top argv addrs bot) :
    (stringRanges addrs argv).Pairwise RangesApart := by
  induction h with
  | nil => exact .nil
  | cons _ _ _ hrest ih =>
    exact .cons (fun r hr => .inr (hrest.within r hr).2) ih

/-! ## The image -/

/-- **The image of a program** with its arguments. -/
structure ExecImage (ip : List UInt8) (argv : List (List UInt8)) (tf : ℕ) (me : Me)
    (s : KMem) : Prop where
  /-- the segments -/
  segments : ∀ ph ∈ headers ip, ph.type = ELF_PROG_LOAD → Segment s.mem me.pagetable ip ph
  /-- page `g` is between them and the stack, and nothing else is -/
  stack : ∃ g, me.sz = (g + 2) * 4096 ∧
    (∀ ph ∈ headers ip, ph.type = ELF_PROG_LOAD → npages (ph.vaddr + ph.memsz) ≤ g) ∧
    (g = 0 ∨ ∃ ph ∈ headers ip, ph.type = ELF_PROG_LOAD ∧ g = npages (ph.vaddr + ph.memsz)) ∧
    (∃ e, leaf s.mem me.pagetable g = some e ∧ e &&& PTE_U = 0) ∧
    (∃ e, leaf s.mem me.pagetable (g + 1) = some e ∧
      e % 2 ^ 10 = PTE_R ||| PTE_U ||| PTE_W ||| PTE_V) ∧
    -- the arguments
    ∃ sp addrs, getLE 8 s.mem (tf + 48) = sp ∧ getLE 8 s.mem (tf + 120) = sp ∧ sp % 16 = 0 ∧
      HasBytes s.mem me.pagetable sp (words (addrs ++ [0])) ∧
      List.Forall₂ (fun a arg => HasBytes s.mem me.pagetable a (arg ++ [0])) addrs argv ∧
      ((sp, 8 * (argv.length + 1)) :: stringRanges addrs argv).Pairwise RangesApart ∧
      ∀ r ∈ (sp, 8 * (argv.length + 1)) :: stringRanges addrs argv,
        (g + 1) * 4096 ≤ r.1 ∧ r.1 + r.2 ≤ (g + 2) * 4096

/-- **`exec` builds the image that the file describes,** if it succeeds, and returns `argc`. -/
theorem exec_image {me : Me} (hc : Chain s F)
    (hsep : Sep s.kend (tf ::ₘ (F + asPages s.mem me.pagetable)))
    (h : AddrSpace s me.pagetable tf me.sz) (htr : s.trampoline < WORD) (hip : Elf ip)
    (hargv : ∀ arg ∈ argv, arg.length < PGSIZE) :
    Meets (kexec me tf (some ip) argv) s (fun r s' => r.1 = -1 ∧ r.2 = me ∨
      r.1 = argv.length ∧ ExecImage ip argv tf r.2 s') Never := by
  have hphoff : field (readi ip 0 elfhdrSize) 8 32 % 2 ^ 32 = field (readi ip 0 elfhdrSize) 8 32 :=
    Nat.mod_eq_of_lt (((Nat.le_add_right _ _).trans hip.headers_le).trans_lt hip.length_lt)
  refine (kexec_builds (P := fun root sz s₁ => (sz = 0 ∨ ∃ ph ∈ headers ip,
      ph.type = ELF_PROG_LOAD ∧ sz = ph.vaddr + ph.memsz) ∧
    ∀ ph ∈ headers ip, ph.type = ELF_PROG_LOAD → ph.filesz ≤ ph.memsz ∧
      ph.vaddr + ph.memsz ≤ sz ∧ Segment s₁.mem root ip ph) hc hsep h htr
    (fun root s₁ F₁ hc₁ hsep₁ h₁ => ?_) hargv).imp ?_
  · rw [hphoff]
    refine (loadLoop_loads hc₁ hsep₁ h₁ hip.length_lt hip.headers_le hip.segments
      fun _ _ _ => Nat.zero_le _).imp ?_
    rintro r s' ⟨F', hstep, h', hload⟩
    exact ⟨F', hstep, h', fun hok => (hload hok).2.2⟩
  rintro r s' (⟨hr, hme, -⟩ | ⟨-, F', -, -, sz₁, s₁, sp, argc, hr, ⟨hlast, hsegs⟩, hkept, hstack,
    ha1, hsp⟩)
  · exact .inl ⟨hr, hme⟩
  obtain ⟨addrs, bot, hstacked, halign, hlo, hbot, hwords⟩ := hstack.args
  have hwithin := hstacked.within
  have hbot' := hstacked.bot_le
  refine .inr ⟨by rw [hr, hstack.argc_eq], fun ph hph htype => ?_, npages sz₁, hstack.size,
    fun ph hph htype => ?_, ?_, hstack.guard, hstack.user, sp, addrs, hsp, ha1, halign, hwords,
    hstacked.strings, .cons (fun r hr => .inl ?_) hstacked.apart, fun r hr => ?_⟩
  · obtain ⟨hfile, hend, hseg⟩ := hsegs ph hph htype
    exact hseg.kept hkept hfile hend
  · have hend := (hsegs ph hph htype).2.1
    unfold npages
    omega
  · rcases hlast with rfl | ⟨ph, hph, htype, rfl⟩
    · exact .inl rfl
    · exact .inr ⟨ph, hph, htype, rfl⟩
  · exact hbot.trans (hwithin r hr).1
  · rcases List.mem_cons.mp hr with rfl | hr
    · exact ⟨hlo, hbot.trans hbot'⟩
    · have := hwithin r hr
      omega

/-- A program of one segment, with four bytes of the file. -/
def smallProgram : List UInt8 :=
  [0x7f, 0x45, 0x4c, 0x46] ++ List.replicate 28 0 ++ [64, 0, 0, 0, 0, 0, 0, 0] ++
    List.replicate 16 0 ++ [1, 0] ++ List.replicate 6 0 ++
    [1, 0, 0, 0, 5, 0, 0, 0] ++ List.replicate 24 0 ++ [4, 0, 0, 0, 0, 0, 0, 0] ++
    [16, 0, 0, 0, 0, 0, 0, 0] ++ List.replicate 8 0

theorem elf_smallProgram : Elf smallProgram where
  length_lt := by decide
  headers_le := by decide +kernel
  segments := ⟨by decide +kernel, by decide +kernel⟩

theorem imageSize_smallProgram : UserSys.imageSize smallProgram [[97]] = some 12288 := by
  decide +kernel

-- the program is not to be run where it is mentioned
attribute [local irreducible] smallProgram

/-- The first process of a small machine runs it, with the argument "a". -/
theorem exec_image_small : ∃ s F tf me, Chain s F ∧ AddrSpace s me.pagetable tf me.sz ∧
    Meets (kexec me tf (some smallProgram) [[97]]) s (fun r s' =>
      r.1 = 1 ∧ r.2.sz = 12288 ∧ ExecImage smallProgram [[97]] tf r.2 s') Never := by
  obtain ⟨σ, -, h, hrun, -, hexec⟩ := UserSys.exists_booted imageSize_smallProgram
    (by decide +kernel) (by decide +kernel)
  obtain ⟨F, h⟩ := (h.setFails []).caller hrun
  have hargv : ∀ arg ∈ ([[97]] : List (List UInt8)), arg.length < PGSIZE := by decide
  refine ⟨_, F, _, (σ.proc 0).me, h.chain, h.space, ?_⟩
  refine (hexec _ (exec_image h.chain h.sep h.space h.trampoline elf_smallProgram hargv)).imp ?_
  rintro r s' ⟨⟨hneg, -⟩ | ⟨hr, himage⟩, hne, hsz⟩
  · exact absurd hneg hne
  · exact ⟨hr, hsz, himage⟩

end Xv6
