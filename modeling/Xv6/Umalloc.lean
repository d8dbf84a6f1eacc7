import Mathlib.Data.Int.Notation
import Mathlib.Logic.Function.Basic
import Xv6.Machine
import Xv6.Riscv

/-!
# The user allocator (`user/umalloc.c`)

Memory is a sequence of units of `sizeof(Header)` bytes; a pointer to a header
is the number of its unit, and 0 is the null pointer. `base` is in the data of
the program, below what `sbrk` returns, and where exactly does not matter: its
size is 0. The first unit of a block is its header, and the pointer that
`malloc` returns is to the unit after it.

`sbrk` is `sys_sbrk` with `SBRK_EAGER`: it converts the number of bytes to an
`int`, and a number that is not positive gives memory back. `uvmalloc` allocates
every page at once, so that all that `morecore` gets is memory of the machine, of
which there is no more than `PHYSTOP - KERNBASE`. The program may call `sbrk`,
too, so that blocks from two calls of `morecore` need not be adjacent.
-/

namespace Xv6.Umalloc

open Function

/-- `sizeof(Header)` -/
def headerSize : ℕ := 16

/-- `&base` -/
def base : ℕ := 1

/-- The headers, and `freep` -/
structure Heap where
  ptr : ℕ → ℕ
  size : ℕ → BitVec 32
  freep : ℕ

/-- The process, as far as the allocator is concerned. -/
structure State extends Heap where
  /-- the end of memory, `p->sz`, in units -/
  brk : ℕ
  /-- what `morecore` has got from `sbrk`: first unit and number of units -/
  regions : List (ℕ × ℕ)
  /-- what `malloc` has returned and has not been freed: the header, and the number of bytes asked
  for -/
  live : List (ℕ × BitVec 32)

/-! ## `free` -/

/-- The loop of `free`: where the block belongs; `none` if `fuel` is not enough. -/
def freeLoop (h : Heap) (bp : ℕ) : ℕ → ℕ → Option ℕ
  | 0, _ => none
  | fuel + 1, p =>
    if p < bp ∧ bp < h.ptr p then some p
    else if h.ptr p ≤ p ∧ (p < bp ∨ bp < h.ptr p) then some p
    else freeLoop h bp fuel (h.ptr p)

/-- `free` joins the block with the one after it. -/
def joinNext (h : Heap) (bp p : ℕ) : Heap :=
  if bp + (h.size bp).toNat = h.ptr p then
    { h with
      size := update h.size bp (h.size bp + h.size (h.ptr p))
      ptr := update h.ptr bp (h.ptr (h.ptr p)) }
  else { h with ptr := update h.ptr bp (h.ptr p) }

/-- `free` joins the block with the one before it. -/
def joinPrev (h : Heap) (bp p : ℕ) : Heap :=
  if p + (h.size p).toNat = bp then
    { h with
      size := update h.size p (h.size p + h.size bp)
      ptr := update h.ptr p (h.ptr bp) }
  else { h with ptr := update h.ptr p bp }

/-- `free`, of the block with this header -/
def free (fuel : ℕ) (h : Heap) (bp : ℕ) : Option Heap :=
  (freeLoop h bp fuel h.freep).map fun p => { joinPrev (joinNext h bp p) bp p with freep := p }

/-! ## `sbrk` and `morecore` -/

/-- The pages that `uvmalloc` allocates for a region. -/
def pages (r : ℕ × ℕ) : ℕ := (r.1 + r.2 + 255) / 256 - (r.1 + 255) / 256

/-- The pages that the process has got for its regions. -/
def held (regions : List (ℕ × ℕ)) : ℕ := (regions.map pages).sum

/-- The pages of the machine. -/
def memory : ℕ := (PHYSTOP - KERNBASE) / PGSIZE

/-- `sbrk(n)`, for a multiple of `headerSize`; `kalloc` has the pages if `ok`, which it cannot have
beyond the memory of the machine. What `sbrk` returns is the old `brk`. -/
def sbrk (s : State) (n : ℤ) (ok : Bool) : Option State :=
  let units := (n / headerSize)
  if 0 < n then
    if ok ∧ held s.regions + pages (s.brk, units.toNat) ≤ memory then
      some { s with
        brk := s.brk + units.toNat
        regions := s.regions ++ [(s.brk, units.toNat)] }
    else none
  -- `uvmdealloc` does nothing if `sz + n` wraps around
  else if (s.brk : ℤ) + units < 0 then some s
  else
    let brk := ((s.brk : ℤ) + units).toNat
    some { s with brk := brk, regions := s.regions.map fun r => (r.1, min r.2 (brk - r.1)) }

/-- Is the unit on a page that the process has? -/
def mapped (s : State) (u : ℕ) : Bool := u < (s.brk + 255) / 256 * 256

/-- `morecore`; `none` if there is no more memory -/
def morecore (fuel : ℕ) (s : State) (nu : BitVec 32) (ok : Bool) : Outcome (Option State) :=
  let nu : BitVec 32 := if nu.toNat < 4096 then 4096 else nu
  match sbrk s (BitVec.ofNat 32 (nu.toNat * headerSize)).toInt ok with
  | none => .ok none
  | some s' =>
    let hp := s.brk
    if mapped s' hp then
      match free fuel { s'.toHeap with size := update s'.size hp nu } hp with
      | none => .panic "loop"
      | some h => .ok (some { s' with toHeap := h })
    else .panic "page fault"

/-! ## `malloc` -/

/-- The number of units for a request. It is computed with 64 bits, so that it cannot overflow. -/
def nunits (nbytes : BitVec 32) : BitVec 32 :=
  BitVec.ofNat 32 ((nbytes.toNat + headerSize - 1) / headerSize + 1)

/-- `malloc` takes the block `p`, which comes after `prevp`, or the end of it. -/
def take (h : Heap) (nunits : BitVec 32) (prevp p : ℕ) : Heap × ℕ :=
  if h.size p = nunits then
    ({ h with ptr := update h.ptr prevp (h.ptr p), freep := prevp }, p)
  else
    let h := { h with size := update h.size p (h.size p - nunits) }
    let p := p + (h.size p).toNat
    ({ h with size := update h.size p nunits, freep := prevp }, p)

/-- The loop of `malloc`; `sbrk` has more memory, or not. -/
def mallocLoop (nunits : BitVec 32) (ok : Bool) (freeFuel : ℕ) :
    ℕ → State → ℕ → ℕ → Outcome (State × Option ℕ)
  | 0, _, _, _ => .panic "loop"
  | fuel + 1, s, prevp, p =>
    if nunits.toNat ≤ (s.size p).toNat then
      let (h, p) := take s.toHeap nunits prevp p
      .ok ({ s with toHeap := h }, some p)
    else if p = s.freep then
      match morecore freeFuel s nunits ok with
      | .ok none => .ok (s, none)
      | .ok (some s) => mallocLoop nunits ok freeFuel fuel s s.freep (s.ptr s.freep)
      | .blocked => .blocked
      | .panic msg => .panic msg
    else mallocLoop nunits ok freeFuel fuel s p (s.ptr p)

/-- `malloc` makes a list of its own when it is called for the first time. -/
def start (h : Heap) : Heap :=
  if h.freep = 0 then
    { ptr := update h.ptr base base
      size := update h.size base 0
      freep := base }
  else h

/-- `malloc`: the header of the block -/
def malloc (fuel : ℕ) (s : State) (nbytes : BitVec 32) (ok : Bool) : Outcome (State × Option ℕ) :=
  let s := { s with toHeap := start s.toHeap }
  mallocLoop (nunits nbytes) ok fuel fuel s s.freep (s.ptr s.freep)

/-! ## The machine -/

inductive Event : Type where
  /-- `malloc(nbytes)`, where `sbrk` has more memory or not -/
  | malloc (nbytes : BitVec 32) (ok : Bool)
  /-- `free`, of the block with this header -/
  | free (bp : ℕ)
  /-- the program gets memory from `sbrk` itself -/
  | sbrk (units : ℕ)

def init (brk : ℕ) : State where
  ptr := fun _ => 0
  size := fun _ => 0
  freep := 0
  brk := brk
  regions := []
  live := []

/-- One call. Only what is live is freed. A loop that goes round more than `fuel` times is a
panic. -/
def step (fuel : ℕ) (s : State) : Event → Outcome State
  | .malloc nbytes ok =>
    match malloc fuel s nbytes ok with
    | .ok (s, none) => .ok s
    | .ok (s, some bp) => .ok { s with live := s.live ++ [(bp, nbytes)] }
    | .blocked => .blocked
    | .panic msg => .panic msg
  | .free bp =>
    match s.live.find? fun e => e.1 = bp with
    | none => .blocked
    | some e =>
      match free fuel s.toHeap bp with
      | none => .panic "loop"
      | some h => .ok { s with toHeap := h, live := s.live.erase e }
  | .sbrk units => .ok { s with brk := s.brk + units }

end Xv6.Umalloc
