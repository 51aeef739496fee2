import SchoolStuff.Lib.Loop
import SchoolStuff.Xv6.Vm

/-!
# Xv6 — page tables in physical memory (`vm.c`, `kalloc.c`)

The same functions as over the map of the user pages, now with the frames.
Physical memory is a word at each index of each frame, and a pointer to a page
is the number of its frame: the kernel sees all of physical memory at
`KERNBASE`. The list of free frames stands for the links in their first words.
Other processors may take frames at any time, so `kalloc` may fail
(`fails`, by the number of its call) although a frame is left here.
A panic is `none`; so is a loop that takes more turns than an address space
has pages.
-/

namespace SchoolStuff.Xv6.Phys

open Vm (PGSIZE KERNBASE PDX PTX PGADDR PGROUNDUP)

/-! ## `mmu.h`, `memlayout.h` -/

def EXTMEM : Nat := 0x100000
def PHYSTOP : Nat := 0xE000000
def DEVSPACE : Nat := 0xFE000000
def KERNLINK : Nat := KERNBASE + EXTMEM

def V2P (a : Nat) : Nat := (a + 2 ^ 32 - KERNBASE) % 2 ^ 32

def NPDENTRIES : Nat := 1024

def PTE_P : Nat := 0x001
def PTE_W : Nat := 0x002
def PTE_U : Nat := 0x004

def PGROUNDDOWN (a : Nat) : Nat := a / PGSIZE * PGSIZE

/-- `PTE_ADDR`, and `PTE_FLAGS` below. Masking with `~0xFFF` takes the
remainder away. -/
def PTE_ADDR (pte : Nat) : Nat := pte / PGSIZE * PGSIZE

def PTE_FLAGS (pte : Nat) : Nat := pte % PGSIZE

/-- `pte & PTE_P`. -/
def present (pte : Nat) : Bool := pte &&& PTE_P != 0

/-- What `kernel.ld` defines: `data`, and `end`. -/
structure Linker where
  data : Nat
  kend : Nat

/-- More turns than any loop over an address space takes. -/
def TURNS : Nat := 2 ^ 20

/-! ## `kalloc.c` -/

structure State where
  mem : Nat → Nat → Nat
  freelist : List Nat
  kallocs : Nat

variable (l : Linker) (fails : Nat → Bool)

def State.kalloc (s : State) : Option Nat × State :=
  let s' := { s with kallocs := s.kallocs + 1 }
  if fails s.kallocs then (none, s')
  else
    match s.freelist with
    | [] => (none, s')
    | r :: next => (some r, { s' with freelist := next })

/-- `kfree`, of the page in frame `f`. The page is filled with junk. -/
def State.kfree (s : State) (f : Nat) : Option State :=
  if KERNBASE + f * PGSIZE < l.kend ∨ f * PGSIZE ≥ PHYSTOP then none
  else some
    { s with
      mem := Function.update s.mem f fun _ => 0x01010101
      freelist := f :: s.freelist }

/-- `memset(page, 0, PGSIZE)`. -/
def State.clear (s : State) (f : Nat) : State :=
  { s with mem := Function.update s.mem f fun _ => 0 }

/-- `memmove(to, from, PGSIZE)`. -/
def State.copy (s : State) (dst src : Nat) : State :=
  { s with mem := Function.update s.mem dst (s.mem src) }

/-- An assignment to a word of a page. -/
def State.store (s : State) (f i w : Nat) : State :=
  { s with mem := Function.update s.mem f (Function.update (s.mem f) i w) }

/-! ## `vm.c` -/

/-- `walkpgdir`: the page table and the index of the entry in it. -/
def walkpgdir (s : State) (pgdir va : Nat) (alloc : Bool) :
    Option (Nat × Nat) × State :=
  let pde := s.mem pgdir (PDX va)
  if present pde then (some (PTE_ADDR pde / PGSIZE, PTX va), s)
  else if !alloc then (none, s)
  else
    match s.kalloc fails with
    | (none, s) => (none, s)
    | (some pgtab, s) =>
        (some (pgtab, PTX va),
          (s.clear pgtab).store pgdir (PDX va)
            (pgtab * PGSIZE ||| PTE_P ||| PTE_W ||| PTE_U))

/-- The variables of the loop of `mappages`, and whether it has returned
0. -/
structure MapSt where
  a : Nat
  pa : Nat
  state : State
  ret : Option Bool

def mapBody (pgdir last perm : Nat) (st : MapSt) : Option MapSt :=
  match walkpgdir fails st.state pgdir st.a true with
  | (none, s) => some { st with state := s, ret := some false }
  | (some (pgtab, i), s) =>
      if present (s.mem pgtab i) then none -- remap
      else
        let s := s.store pgtab i (st.pa ||| perm ||| PTE_P)
        if st.a = last then some { st with state := s, ret := some true }
        else some
          { st with
            a := (st.a + PGSIZE) % 2 ^ 32
            pa := (st.pa + PGSIZE) % 2 ^ 32
            state := s }

/-- `mappages`, and whether it returned 0. -/
def mappages (s : State) (pgdir va size pa perm : Nat) : Option (Bool × State) := do
  let a := PGROUNDDOWN va
  let last := PGROUNDDOWN ((va + size + 2 ^ 32 - 1) % 2 ^ 32)
  let st ← Loop.run (fun st : MapSt => st.ret.isNone) (mapBody fails pgdir last perm)
    TURNS ⟨a, pa, s, none⟩
  some (st.ret.getD true, st.state)

structure Kmap where
  virt : Nat
  phys_start : Nat
  phys_end : Nat
  perm : Nat

def kmap : List Kmap :=
  [⟨KERNBASE, 0, EXTMEM, PTE_W⟩,
    ⟨KERNLINK, V2P KERNLINK, V2P l.data, 0⟩,
    ⟨l.data, V2P l.data, PHYSTOP, PTE_W⟩,
    ⟨DEVSPACE, DEVSPACE, 0, PTE_W⟩]

/-- A turn of the loop of `deallocuvm`. -/
def deallocBody (pgdir : Nat) (st : Nat × State) : Option (Nat × State) :=
  let (a, s) := st
  match walkpgdir fails s pgdir a false with
  | (none, s) =>
      let a := (PGADDR (PDX a + 1) 0 0 + 2 ^ 32 - PGSIZE) % 2 ^ 32
      some ((a + PGSIZE) % 2 ^ 32, s)
  | (some (pgtab, i), s) =>
      let pte := s.mem pgtab i
      if present pte then do
        let pa := PTE_ADDR pte
        if pa = 0 then none
        else
          let s ← s.kfree l (pa / PGSIZE)
          some ((a + PGSIZE) % 2 ^ 32, s.store pgtab i 0)
      else some ((a + PGSIZE) % 2 ^ 32, s)

def deallocuvm (s : State) (pgdir oldsz newsz : Nat) : Option (Nat × State) :=
  if newsz ≥ oldsz then some (oldsz, s)
  else do
    let (_, s) ← Loop.run (fun st => decide (st.1 < oldsz))
      (deallocBody l fails pgdir) TURNS (PGROUNDUP newsz, s)
    some (newsz, s)

/-- A turn of the loop of `freevm`. -/
def freeTable (pgdir : Nat) (s : State) (i : Nat) : Option State :=
  if present (s.mem pgdir i) then s.kfree l (PTE_ADDR (s.mem pgdir i) / PGSIZE)
  else some s

def freevm (s : State) (pgdir : Nat) : Option State := do
  let (_, s) ← deallocuvm l fails s pgdir KERNBASE 0
  let s ← (List.range NPDENTRIES).foldlM (freeTable l pgdir) s
  s.kfree l pgdir

/-- The loop of `setupkvm`. -/
def kmapLoop (pgdir : Nat) : List Kmap → State → Option (Option Nat × State)
  | [], s => some (some pgdir, s)
  | k :: ks, s => do
      let (mapped, s) ← mappages fails s pgdir k.virt
        ((k.phys_end + 2 ^ 32 - k.phys_start) % 2 ^ 32) k.phys_start k.perm
      if mapped then kmapLoop pgdir ks s
      else do
        let s ← freevm l fails s pgdir
        some (none, s)

def setupkvm (s : State) : Option (Option Nat × State) :=
  match s.kalloc fails with
  | (none, s) => some (none, s)
  | (some pgdir, s) =>
      let s := s.clear pgdir
      if KERNBASE + PHYSTOP > DEVSPACE then none
      else kmapLoop l fails pgdir (kmap l) s

/-- The variables of the loop of `copyuvm`, and what it returned. -/
structure CopySt where
  i : Nat
  state : State
  ret : Option (Option Nat)

/-- `bad:`. -/
def CopySt.bad (st : CopySt) (d : Nat) (s : State) : Option CopySt := do
  let s ← freevm l fails s d
  some { st with state := s, ret := some none }

def copyBody (pgdir d : Nat) (st : CopySt) : Option CopySt :=
  match walkpgdir fails st.state pgdir st.i false with
  | (none, _) => none
  | (some (pgtab, j), s) =>
      let pte := s.mem pgtab j
      if !present pte then none
      else
        let pa := PTE_ADDR pte
        let flags := PTE_FLAGS pte
        match s.kalloc fails with
        | (none, s) => st.bad l fails d s
        | (some mem, s) => do
            let s := s.copy mem (pa / PGSIZE)
            let (mapped, s) ← mappages fails s d st.i PGSIZE (mem * PGSIZE) flags
            if mapped then some { st with i := (st.i + PGSIZE) % 2 ^ 32, state := s }
            else st.bad l fails d s

def copyuvm (s : State) (pgdir sz : Nat) : Option (Option Nat × State) := do
  match ← setupkvm l fails s with
  | (none, s) => some (none, s)
  | (some d, s) =>
      let st ← Loop.run (fun st : CopySt => st.ret.isNone && decide (st.i < sz))
        (copyBody l fails pgdir d) TURNS ⟨0, s, none⟩
      some (st.ret.getD (some d), st.state)

end SchoolStuff.Xv6.Phys
