import Kurios.Base.Bytes
import Kurios.Pmm.Defs

/-!
The ELF loader: `kernel/loader/elf.h` and `kernel/loader/elf_loader.c`.

The file is in a kernel buffer; what lies behind its end, or before its start, is
whatever memory is there, so a file is a function on all offsets and a size. Offsets are
added in 64 bits. The address space that is filled is the function from page numbers to
pages with their contents: every page of a segment is a new frame, which nothing else
maps. Allocations succeed here; when one fails, `elf_load` fails.

`elf_process_relocations` does not switch to the new address space: its stores go to the
one that is active, at any address. `elfLoad` gives them as a list beside the pages. They
reach the new pages only through kernel addresses at which the frames are mapped
(`Image.stored`).
-/

namespace Kurios.Loader

open Base Pmm List

/-! ### Headers -/

/-- A file in memory. -/
structure ElfFile where
  bytes : Buffer
  size : Nat

/-- The fields of `Elf64_Ehdr` that are read. -/
structure Ehdr where
  type : Nat
  machine : Nat
  entry : Nat
  phoff : Nat
  phnum : Nat
deriving DecidableEq, Repr

/-- The fields of `Elf64_Phdr` that are read. -/
structure Phdr where
  type : Nat
  flags : Nat
  offset : Nat
  vaddr : Nat
  filesz : Nat
  memsz : Nat
deriving DecidableEq, Repr

/-- `sizeof(Elf64_Ehdr)` and `sizeof(Elf64_Phdr)`. -/
def ehdrSize : Nat := 64
def phdrSize : Nat := 56

def ptLoad : Nat := 1
def ptDynamic : Nat := 2
def ptInterp : Nat := 3

def pfW : Nat := 2

variable (f : ElfFile)

def ehdr : Ehdr :=
  { type := load f.bytes 16 2
    machine := load f.bytes 18 2
    entry := load f.bytes 24 8
    phoff := load f.bytes 32 8
    phnum := load f.bytes 56 2 }

/-- Program header number `i`. -/
def phdr (i : Nat) : Phdr :=
  let base := u64 ((ehdr f).phoff + i * phdrSize)
  { type := load f.bytes base 4
    flags := load f.bytes (base + 4) 4
    offset := load f.bytes (base + 8) 8
    vaddr := load f.bytes (base + 16) 8
    filesz := load f.bytes (base + 32) 8
    memsz := load f.bytes (base + 40) 8 }

def phdrs : List Phdr := (range (ehdr f).phnum).map (phdr f)

/-- The `PT_LOAD` headers, in the order of the table. -/
def loads : List Phdr := (phdrs f).filter (·.type = ptLoad)

/-- `elf64_validate`. -/
def elf64Validate : Bool :=
  (f.bytes 0 == 0x7F && f.bytes 1 == 0x45 && f.bytes 2 == 0x4C && f.bytes 3 == 0x46) &&
    f.bytes 4 == 2 && f.bytes 5 == 1 && (ehdr f).machine == 62 &&
    ((ehdr f).type == 2 || (ehdr f).type == 3)

/-- The checks of `elf_load` before the segments. -/
def headersOk : Bool :=
  ehdrSize ≤ f.size && elf64Validate f && (ehdr f).phoff != 0 && (ehdr f).phnum != 0 &&
    decide (u64 ((ehdr f).phoff + (ehdr f).phnum * phdrSize) ≤ f.size)

/-- `as_is_user_addr`. -/
def isUserAddr (virt : Nat) : Bool := virt < 0x0000800000000000

/-- `p_vaddr` and `p_vaddr + p_memsz - 1` are in user space. -/
def Phdr.inUserSpace (p : Phdr) : Bool :=
  isUserAddr p.vaddr && isUserAddr (u64 (p.vaddr + p.memsz + (2 ^ 64 - 1)))

/-! ### Segments -/

structure UserPage where
  bytes : Buffer
  writable : Bool

/-- The user half of the new address space, by page number. -/
abbrev Image := Nat → Option UserPage

/-- `elf_flags_to_pte`: the flags are present and user, and this one. -/
def Phdr.writable (p : Phdr) : Bool := p.flags &&& pfW != 0

def Phdr.pageStart (p : Phdr) : Nat := alignDown p.vaddr pageSize
def Phdr.pageEnd (p : Phdr) : Nat := alignUp (u64 (p.vaddr + p.memsz)) pageSize

/-- The contents of the page at `vaddr` of a segment. `none`: the copy has no end. -/
def loadPage (p : Phdr) (vaddr : Nat) : Option UserPage :=
  let fileEnd := u64 (p.vaddr + p.filesz)
  if vaddr < fileEnd then
    let copyStart := if vaddr < p.vaddr then p.vaddr else vaddr
    let copyEnd := if fileEnd < u64 (vaddr + pageSize) then fileEnd else u64 (vaddr + pageSize)
    if copyEnd < copyStart then none else
    let filePos := u64 (p.offset + (copyStart - p.vaddr))
    some
      { bytes := copy (fun _ => 0) (copyStart - vaddr) (copyEnd - copyStart)
          fun i => f.bytes (filePos + i)
        writable := p.writable }
  else some { bytes := fun _ => 0, writable := p.writable }

/-- `load_segment`: a page that is mapped already gets a new frame. -/
def loadSegment (p : Phdr) (image : Image) : Option Image :=
  (range ((p.pageEnd - p.pageStart) / pageSize)).foldlM (fun image i =>
    let vaddr := p.pageStart + i * pageSize
    (loadPage f p vaddr).map fun page => Function.update image (vaddr / pageSize) (some page))
    image

/-- What is done for one program header. -/
def loadPhdr (image : Image) (p : Phdr) : Option Image :=
  if p.type = ptLoad then
    if p.inUserSpace then loadSegment f p image else none
  else some image

/-! ### Relocations -/

/-- `sizeof(Elf64_Dyn)` and `sizeof(Elf64_Rela)`. -/
def dynSize : Nat := 16
def relaSize : Nat := 24

def etDyn : Nat := 3
def dtNull : Nat := 0
def dtRela : Nat := 7
def dtRelasz : Nat := 8
def rX8664Relative : Nat := 8

/-- `result->base_addr`. -/
def baseAddr : Nat :=
  (loads f).foldl (fun base p => if p.vaddr < base then p.vaddr else base) (2 ^ 64 - 1)

/-- The loop over the dynamic section, with `n` entries left from offset `pos` on: `rela_addr`
and `rela_size`. -/
def findRela : Nat → Nat → Nat × Nat → Nat × Nat
  | 0, _, rela => rela
  | n + 1, pos, (addr, size) =>
    let tag := load f.bytes (u64 pos) 8
    let value := load f.bytes (u64 pos + 8) 8
    if tag = dtRela then findRela n (pos + dynSize) (value, size)
    else if tag = dtRelasz then findRela n (pos + dynSize) (addr, value)
    else if tag = dtNull then (addr, size)
    else findRela n (pos + dynSize) (addr, size)

/-- The store of eight bytes for the entry at offset `pos`, as an address and a value. -/
def relocate (pos : Nat) : Option (Nat × Nat) :=
  if load f.bytes (pos + 8) 8 % 2 ^ 32 = rX8664Relative then
    some (u64 (baseAddr f + load f.bytes pos 8), u64 (baseAddr f + load f.bytes (pos + 16) 8))
  else none

/-- The stores of `elf_process_relocations`. `none`: the table is not in a segment. -/
def elfProcessRelocations : Option (List (Nat × Nat)) :=
  match (phdrs f).find? (·.type = ptDynamic) with
  | none => some []
  | some d =>
    let (addr, size) := findRela f (d.filesz / dynSize) d.offset (0, 0)
    if addr = 0 ∨ size = 0 then some []
    else
      ((loads f).find? fun p => p.vaddr ≤ addr && addr < u64 (p.vaddr + p.filesz)).map fun p =>
        (range (size / relaSize)).filterMap fun i =>
          relocate f (u64 (addr - p.vaddr + p.offset + i * relaSize))

/-- `elf_load` into an address space: its pages, and the stores to the active one. -/
def elfLoad (image : Image) : Option (Image × List (Nat × Nat)) :=
  if headersOk f then
    ((phdrs f).foldlM (loadPhdr f) image).bind fun image =>
      (if (ehdr f).type = etDyn then elfProcessRelocations f else some []).map fun stores =>
        (image, stores)
  else none

/-- A store of eight bytes in the user half. -/
def UserStore (st : Nat × Nat) : Prop := st.1 + 8 ≤ 0x0000800000000000
deriving Decidable

/-- The kernel addresses at which bytes of the new pages are: page numbers and offsets. -/
abbrev Window := Nat → Option (Nat × Nat)

/-- The bytes of a store of eight bytes. -/
def storeBytes (st : Nat × Nat) : List (Nat × UInt8) :=
  (range 8).map fun i => (u64 (st.1 + i), UInt8.ofNat (st.2 / 256 ^ i))

/-- The last byte that is stored to offset `k` of page number `v`. -/
def lastStored (window : Window) (stores : List (Nat × Nat)) (v k : Nat) : Option UInt8 :=
  ((stores.flatMap storeBytes).reverse.find? fun b => window b.1 = some (v, k)).map (·.2)

/-- The pages after the stores. -/
def Image.stored (image : Image) (window : Window) (stores : List (Nat × Nat)) : Image := fun v =>
  (image v).map fun page =>
    { page with bytes := fun k => (lastStored window stores v k).getD (page.bytes k) }

/-! ### Programs -/

/-- A usable `PT_INTERP` header: the path fits into `interp_path`. -/
def hasInterp : Bool :=
  (phdrs f).any fun p => p.type == ptInterp && decide (0 < p.filesz) && decide (p.filesz < 256)

/-- `elf_load` into an empty address space and `elf_load_interpreter`, with the file that the
interpreter's path leads to. -/
def loadProgram (interp : Option ElfFile) : Option Image :=
  (elfLoad f fun _ => none).bind fun l =>
    if hasInterp f then (interp.bind fun g => elfLoad g l.1).map (·.1) else some l.1

/-- The stores of both, also where the program is not loaded in the end. -/
def programStores (interp : Option ElfFile) : List (Nat × Nat) :=
  (elfLoad f fun _ => none).elim [] fun l =>
    if hasInterp f then l.2 ++ (interp.bind fun g => elfLoad g l.1).elim [] (·.2) else l.2

/-- `result->entry_point` of a program that is loaded. -/
def entryPoint (interp : Option ElfFile) : Option Nat :=
  (loadProgram f interp).bind fun _ =>
    if hasInterp f then interp.map fun g => (ehdr g).entry else some (ehdr f).entry

end Kurios.Loader
