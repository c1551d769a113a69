import Kurios.Areas.Mmap
import Kurios.Loader.Image

/-!
Where mappings go in the memory of a program: `sys_execve` and `sys_mmap`
(`kernel/syscall/syscall.c`) and the faults of user code (`kernel/mm/fault.c`).

The same memory has two records. `execve` puts the segments and the stack into new page
tables and makes no areas for them, and a stack that grows gets pages without areas too;
`sys_mmap` looks at the areas alone and makes no pages. Every present page belongs to a
segment, to the stack or to an area (`UserSpace.Inv`), so a mapping that avoids the first
two is of unused pages.

`execve` does not replace `proc->as`: it destroys the tables that `proc->as` names and loads
others. `handle_demand_fault` maps into the tables of `proc->as`, so from then on no page of
an area appears in the tables that are loaded (`linked` is false), and the access faults again.

Each page has a frame of its own here, and a page of a file is writable at once where the
kernel copies it first. The contents of pages of files are the environment's. The stores of
the relocations of a program go to the memory of the process that calls `execve`, which
keeps them if the call fails.
-/

namespace Kurios.Proc.Placement

open Base Pmm Areas Loader Function Option List

variable {a : Area} {page : UserPage} {f : ElfFile} {interp : Option ElfFile}

/-! ### Programs -/

/-- `USER_STACK_TOP`, the end of the 16 pages of `execve`, and the end of the growth. -/
def stackTop : Nat := 0x7FFFFFF00000
def stackStart : Nat := stackTop - 16 * pageSize
def stackLimit : Nat := stackTop - 256 * pageSize

/-- The segments that are loaded. -/
def programSegments (f : ElfFile) (interp : Option ElfFile) : List Phdr :=
  loads f ++ if hasInterp f then interp.elim [] loads else []

/-- The image with the pages of the stack. -/
def withStack (image : Image) (stack : Nat → Buffer) : Image := fun v =>
  if stackStart ≤ v * pageSize ∧ v * pageSize < stackTop then some ⟨stack v, true⟩ else image v

/-! ### A process -/

/-- The memory of a process: the areas of `proc->as`, the tables of `proc->cr3`, whether
`proc->as` has these tables, and the segments of the program. -/
structure UserSpace where
  areas : VmaHistory
  tables : Image
  linked : Bool
  segments : List Phdr

/-- What the rest of the kernel answers in a fault: whether there is memory, and the page of
the page cache. -/
structure FaultEnv where
  memory : Bool
  data : Option Buffer

namespace UserSpace

section

variable (s : UserSpace)

def areaAt (x : Nat) : Option Area := s.areas.state.areaAt x

def setPage (v : Nat) (page : UserPage) : UserSpace :=
  { s with tables := update s.tables v (some page) }

/-- The page that `handle_demand_fault` maps, `none` where it returns -1. -/
def demandPage (x : Nat) (env : FaultEnv) : Option UserPage :=
  match s.areaAt x with
  | none => none
  | some a =>
    if a.flags &&& 1 = 0 then none
    else if a.file.isSome ∧ a.flags &&& 0x10 = 0 then
      env.data.map fun bytes => ⟨bytes, a.flags &&& 2 != 0⟩
    else if env.memory then some ⟨fun _ => 0, a.flags &&& 2 != 0⟩
    else none

/-- `page_fault_handler` for an address without a page. `none`: the access does not complete. -/
def pageFault (x : Nat) (env : FaultEnv) : Option UserSpace :=
  match s.demandPage x env with
  | some page => if s.linked then some (s.setPage (x / pageSize) page) else none
  | none =>
    if stackLimit ≤ x ∧ x < stackTop ∧ env.memory then
      some (s.setPage (x / pageSize) ⟨fun _ => 0, true⟩)
    else none

/-- The page of an access is made present. -/
def touch (x : Nat) (env : FaultEnv) : Option UserSpace :=
  match s.tables (x / pageSize) with
  | some _ => some s
  | none => s.pageFault x env

def readByte (x : Nat) (env : FaultEnv) : Option UInt8 :=
  (s.touch x env).bind fun s => (s.tables (x / pageSize)).map fun page => page.bytes (x % pageSize)

/-- A store by user code or by the kernel, for which `CR0.WP` is not set. -/
def writeByte (x : Nat) (value : UInt8) (kernel : Bool) (env : FaultEnv) : Option UserSpace :=
  (s.touch x env).bind fun s => (s.tables (x / pageSize)).bind fun page =>
    if page.writable || kernel then
      some (s.setPage (x / pageSize) { page with bytes := update page.bytes (x % pageSize) value })
    else none

/-- The stores of relocations. -/
def relocate (stores : List (Nat × Nat)) (env : FaultEnv) : Option UserSpace :=
  run (fun s b => writeByte s b.1 b.2 true env) s (stores.flatMap storeBytes)

end

end UserSpace

/-- What happens to the memory. `execve` is one that succeeds, `execveFails` one that has made
the first `made` stores of the relocations when it fails. -/
inductive Event where
  | mmap (c : MmapCall)
  | execve (f : ElfFile) (interp : Option ElfFile) (stack : Nat → Buffer)
  | execveFails (f : ElfFile) (interp : Option ElfFile) (made : Nat) (env : FaultEnv)
  | read (x : Nat) (env : FaultEnv)
  | write (x : Nat) (value : UInt8) (env : FaultEnv)
  | file (v : Nat) (bytes : Buffer)

namespace UserSpace

def step (s : UserSpace) : Event → Option UserSpace
  | .mmap c =>
    if s.areas.Fresh c.alloc then (sysMmap s.areas c).map fun r => { s with areas := r.2 } else none
  | .execve f interp stack =>
    (loadProgram f interp).map fun image =>
      ⟨s.areas, withStack image stack, false, programSegments f interp⟩
  | .execveFails f interp made env => s.relocate ((programStores f interp).take made) env
  | .read x env => s.touch x env
  | .write x value env => s.writeByte x value false env
  -- a page of a file changes
  | .file v bytes =>
    (s.tables v).bind fun page =>
      if (s.areaAt (v * pageSize)).any fun a => a.file.isSome then
        some (s.setPage v { page with bytes := bytes })
      else none

/-- A process of `process_create`. -/
def start (vmas : Nat → Vma) : UserSpace :=
  ⟨⟨vmaListCreate vmas, []⟩, fun _ => none, true, []⟩

/-- A mapping at an address that is asked for, and the relocations of a program, are in the user
half. -/
def Careful (_ : UserSpace) : Event → Prop
  | .mmap c => c.InUserHalf
  | .execve f interp _ => ∀ st ∈ programStores f interp, UserStore st
  | .execveFails f interp _ _ => ∀ st ∈ programStores f interp, UserStore st
  | _ => True

/-- The call asks for a range without areas. -/
def Asks (s : UserSpace) (c : MmapCall) : Prop :=
  c.addr ≠ 0 ∧ ∀ y, alignDown c.addr.toNat pageSize ≤ y →
    y < alignDown c.addr.toNat pageSize + c.size → s.areaAt y = none

/-- The addresses that a mapping may be given: the one that is asked for if there are no areas,
otherwise the start of the space and the ends of the areas. -/
def Candidate (s : UserSpace) (c : MmapCall) (addr : Nat) : Prop :=
  (s.Asks c ∧ addr = alignDown c.addr.toNat pageSize) ∨
    (¬ s.Asks c ∧ (addr = spaceStart ∨ ∃ y a, s.areaAt y = some a ∧ addr = a.stop))

/-- A mapping is apart from the segments and the region of the stack wherever it may be. -/
def Avoids (s : UserSpace) (c : MmapCall) : Prop :=
  ∀ addr, s.Candidate c addr →
    (∀ p ∈ s.segments, addr + c.size ≤ p.pageStart ∨ p.pageEnd ≤ addr) ∧
      (addr + c.size ≤ stackLimit ∨ stackTop ≤ addr)

end UserSpace

/-- The program goes on, and nothing is stored to `x`. -/
def Event.Keeps (x : Nat) : Event → Prop
  | .execve .. => False
  | .execveFails f interp made _ =>
    ∀ st ∈ (programStores f interp).take made, x < st.1 ∨ st.1 + 8 ≤ x
  | .write y _ _ => y ≠ x
  | _ => True

variable {s s' : UserSpace} {c : MmapCall} {x y v addr : Nat} {env : FaultEnv} {xs : List Nat}

/-! ### Areas and pages -/

theorem areaAt_page {s} (h : VmaInv s xs) (ha : s.areaAt x = some a)
    (hy : y / pageSize = x / pageSize) : s.areaAt y = some a := by
  obtain ⟨p, hp, rfl, hlo, hhi⟩ := h.areaAt_eq_some_iff.mp ha
  have hval := h.valid p hp
  have hstart := hval.start_aligned
  have hstop := hval.stop_aligned
  apply h.areaAt_eq_some_iff.mpr
  unfold pageSize at *
  exact ⟨p, hp, rfl, by omega, by omega⟩

/-- Every area is in the user half, and every page belongs to a segment, to the stack or to
an area. -/
structure UserSpace.Inv (s : UserSpace) (xs : List Nat) : Prop where
  areas : s.areas.Inv xs
  half : ∀ q ∈ xs, (s.areas.state.area q).stop ≤ userEnd
  pages : ∀ v page, s.tables v = some page → (∃ p ∈ s.segments, p.covers v = true) ∨
    (stackLimit ≤ v * pageSize ∧ v * pageSize < stackTop) ∨
    ∀ y, y / pageSize = v → s.areaAt y ≠ none

/-- A mapping is given a candidate. -/
theorem UserSpace.Inv.candidate (h : s.Inv xs) (hc : c.InUserHalf) (hpos : 0 < c.size)
    (hmap : c.mapAddr s.areas.state = some (some addr))
    (hfree : ∀ y, addr ≤ y → y < addr + c.size → s.areaAt y = none) : s.Candidate c addr := by
  rcases h.areas.list.mapAddr_cases hc hmap with ⟨haddr, heq⟩ | ⟨hwhy, hplace⟩
  · exact .inl ⟨⟨haddr, heq ▸ hfree⟩, heq⟩
  refine .inr ⟨fun hasks => ?_, hplace.imp_right fun ⟨q, hq, heq⟩ => ?_⟩
  · rcases hwhy with hzero | ⟨q, hq, hlow, hhigh⟩
    · exact hasks.1 hzero
    -- an address of the area in the way
    have hlt := (h.areas.list.valid q hq).nonempty
    have hnone := hasks.2 (max (alignDown c.addr.toNat pageSize) (s.areas.state.area q).start)
      (le_max_left _ _) (by omega)
    exact h.areas.list.areaAt_eq_none_iff.mp hnone q hq ⟨le_max_right _ _, by omega⟩
  · have hlt := (h.areas.list.valid q hq).nonempty
    exact ⟨_, _, h.areas.list.areaAt_eq_some_iff.mpr ⟨q, hq, rfl, le_rfl, hlt⟩, heq⟩

/-- What a mapping does to the areas. -/
theorem UserSpace.Inv.sysMmap (h : s.Inv xs) (hc : c.InUserHalf) (hfresh : s.areas.Fresh c.alloc)
    {r areas'} (hcall : sysMmap s.areas c = some (r, areas')) :
    ∃ ys, UserSpace.Inv { s with areas := areas' } ys ∧
      (∀ y a, s.areaAt y = some a → areas'.state.areaAt y = some a) ∧
      ∀ addr, r = .ok addr → pageSize ∣ addr ∧ s.Candidate c addr ∧
        ∃ file, c.backing = .ok file ∧ ∀ y, addr ≤ y → y < addr + c.size →
          s.areaAt y = none ∧ areas'.state.areaAt y = some (c.area addr file) := by
  rcases h.areas.sysMmap hfresh with
    ⟨e, heq⟩ | ⟨addr, file, vma, after, l, rest, heq, hbacking, hmap, hxs, hinv, harea, hsame⟩ <;>
    obtain ⟨rfl, rfl⟩ := Prod.mk.inj (some.inj (hcall.symm.trans heq))
  · refine ⟨xs, h, fun _ _ => id, fun addr haddr => ?_⟩
    cases haddr
  have hnew : vma ∈ l ++ vma :: rest := mem_append_right _ mem_cons_self
  have hold : ∀ q ∈ xs, q ∈ l ++ vma :: rest := by
    intro q hq
    rw [hxs] at hq
    exact mem_append.mpr ((mem_append.mp hq).imp_right (mem_cons_of_mem vma))
  have hvma : vma ∉ xs := by
    have hnd := hinv.list.links.nodup
    rw [nodup_middle, nodup_cons, ← hxs] at hnd
    exact hnd.1
  have hval := hinv.list.valid vma hnew
  rw [harea] at hval
  obtain ⟨halign, hlt, hend⟩ := h.areas.list.mapAddr_spec h.half hc hmap
  obtain ⟨hstart, hstop, hin⟩ := MmapCall.area_bounds halign hlt hend hval
  have hkept : ∀ y a, s.areaAt y = some a → areas'.state.areaAt y = some a := by
    intro y a ha
    obtain ⟨p, hp, harea, hbounds⟩ := h.areas.list.areaAt_eq_some_iff.mp ha
    exact hinv.list.areaAt_eq_some_iff.mpr ⟨p, hold p hp, (hsame p hp).trans harea, hbounds⟩
  refine ⟨l ++ vma :: rest, ⟨hinv, ?_, ?_⟩, hkept, ?_⟩
  · intro q hq
    rcases mem_cons.mp (perm_middle.mem_iff.mp hq) with rfl | hq
    · rw [harea, hstop]
      exact hin
    · rw [← hxs] at hq
      rw [hsame q hq]
      exact h.half q hq
  · intro v page hpage
    refine (h.pages v page hpage).imp_right (Or.imp_right fun harea y hy => ?_)
    obtain ⟨a, ha⟩ := ne_none_iff_exists'.mp (harea y hy)
    exact fun hnone => nomatch hnone.symm.trans (hkept y a ha)
  intro addr' haddr
  cases haddr
  have hrange : ∀ y, addr ≤ y → y < addr + c.size →
      s.areaAt y = none ∧ areas'.state.areaAt y = some (c.area addr file) := by
    intro y hlo hhi
    have hcont : (areas'.state.area vma).start ≤ y ∧ y < (areas'.state.area vma).stop := by
      rw [harea, hstart, hstop]
      exact ⟨hlo, hhi⟩
    constructor
    · apply h.areas.list.areaAt_eq_none_iff.mpr
      intro q hq hq'
      rw [← hsame q hq] at hq'
      exact hvma (hinv.list.eq_of_contains (hold q hq) hnew hq' hcont ▸ hq)
    · exact hinv.list.areaAt_eq_some_iff.mpr ⟨vma, hnew, harea, harea ▸ hcont⟩
  have hpos : 0 < c.size := by
    have hnonempty := hval.nonempty
    omega
  exact ⟨halign, h.candidate hc hpos hmap fun y hlo hhi => (hrange y hlo hhi).1, file, hbacking,
    hrange⟩

theorem UserSpace.Inv.start (vmas : Nat → Vma) : (UserSpace.start vmas).Inv [] where
  areas := ⟨VmaInv.empty vmas, List.Perm.nil⟩
  half _ hq := absurd hq not_mem_nil
  pages _ _ hpage := nomatch hpage

theorem UserSpace.Inv.setPage (h : s.Inv xs)
    (hpage : (∃ old, s.tables v = some old) ∨
      (stackLimit ≤ v * pageSize ∧ v * pageSize < stackTop) ∨
      ∀ y, y / pageSize = v → s.areaAt y ≠ none) : (s.setPage v page).Inv xs where
  __ := h
  pages w new hnew := by
    by_cases hw : w = v
    case pos =>
      subst hw
      rcases hpage with ⟨old, hold⟩ | hstack
      · exact h.pages w old hold
      · exact .inr hstack
    case neg =>
    have hsame : s.tables w = some new := by
      rw [← hnew]
      exact (update_of_ne hw _ _).symm
    exact h.pages w new hsame

/-- A fault that is resolved adds one page. -/
theorem UserSpace.touch_cases (h : s.touch x env = some s') :
    s' = s ∨ ∃ page, s' = s.setPage (x / pageSize) page ∧
      ((s.linked = true ∧ s.demandPage x env = some page) ∨ (stackLimit ≤ x ∧ x < stackTop)) := by
  unfold UserSpace.touch at h
  split at h
  · exact .inl (some.inj h).symm
  right
  unfold UserSpace.pageFault at h
  split at h
  case h_1 page hpage =>
    obtain ⟨hlinked, rfl⟩ := ite_eq_some h
    exact ⟨page, rfl, .inl ⟨hlinked, hpage⟩⟩
  · obtain ⟨⟨hlo, hhi, -⟩, rfl⟩ := ite_eq_some h
    exact ⟨_, rfl, .inr ⟨hlo, hhi⟩⟩

theorem UserSpace.Inv.touch (h : s.Inv xs) (hstep : s.touch x env = some s') : s'.Inv xs := by
  obtain rfl | ⟨page, rfl, hfrom⟩ := touch_cases hstep
  · exact h
  apply h.setPage
  rcases hfrom with ⟨-, hdemand⟩ | ⟨hlo, hhi⟩
  · right
    right
    intro y hy
    unfold UserSpace.demandPage at hdemand
    split at hdemand
    · cases hdemand
    case h_2 a ha =>
    have hsome : s.areaAt y = some a := areaAt_page h.areas.list ha hy
    rw [hsome]
    exact some_ne_none a
  · unfold stackLimit stackTop pageSize at *
    omega

theorem elfLoad_covers {image image' : Image} {stores} (h : elfLoad f image = some (image', stores))
    (hv : image' v = some page) : (∃ p ∈ loads f, p.covers v = true) ∨ image v = some page := by
  rw [(elfLoad_spec h).2 v] at hv
  cases hq : lastLoader (loads f) v with
  | some q => exact .inl ⟨q, mem_of_lastLoader hq⟩
  | none =>
    rw [hq] at hv
    exact .inr hv

/-- The segments are what a new program has in its tables. -/
theorem loadProgram_covers {image} (h : loadProgram f interp = some image)
    (hv : image v = some page) : ∃ p ∈ programSegments f interp, p.covers v = true := by
  obtain ⟨⟨base, stores⟩, hbase, hrest⟩ := bind_eq_some_iff.mp h
  have hloads : base v = some page → ∃ p ∈ loads f, p.covers v = true :=
    fun hpage => (elfLoad_covers hbase hpage).resolve_right (by simp)
  unfold programSegments
  simp only [mem_append]
  split at hrest
  case isTrue hinterp =>
    obtain ⟨⟨_, stores'⟩, hg, rfl⟩ := map_eq_some_iff.mp hrest
    obtain ⟨g, rfl, hg⟩ := bind_eq_some_iff.mp hg
    rw [if_pos hinterp]
    rcases elfLoad_covers hg hv with ⟨p, hp, hcovers⟩ | hold
    · exact ⟨p, .inr hp, hcovers⟩
    · obtain ⟨p, hp, hcovers⟩ := hloads hold
      exact ⟨p, .inl hp, hcovers⟩
  · obtain rfl : base = image := some.inj hrest
    obtain ⟨p, hp, hcovers⟩ := hloads hv
    exact ⟨p, .inl hp, hcovers⟩

theorem UserSpace.Inv.execve (h : s.Inv xs) {stack}
    (hstep : s.step (.execve f interp stack) = some s') : s'.Inv xs := by
  obtain ⟨image, himage, rfl⟩ := map_eq_some_iff.mp hstep
  refine ⟨h.areas, h.half, fun v page hpage => ?_⟩
  dsimp only [withStack] at hpage
  split at hpage
  case isTrue hin =>
    have hlow : stackLimit ≤ stackStart := by decide
    exact .inr (.inl ⟨hlow.trans hin.1, hin.2⟩)
  · exact .inl (loadProgram_covers himage hpage)

theorem UserSpace.Inv.write (h : s.Inv xs) {value kernel}
    (hstep : s.writeByte x value kernel env = some s') : s'.Inv xs := by
  obtain ⟨t, htouch, hrest⟩ := bind_eq_some_iff.mp hstep
  obtain ⟨page, hpage, hrest⟩ := bind_eq_some_iff.mp hrest
  obtain ⟨-, rfl⟩ := ite_eq_some hrest
  exact (h.touch htouch).setPage (.inl ⟨page, hpage⟩)

variable {e : Event}

theorem UserSpace.Inv.step (h : s.Inv xs) (hcare : s.Careful e) (hstep : s.step e = some s') :
    ∃ ys, s'.Inv ys := by
  cases e with
  | mmap c =>
    obtain ⟨hfresh, ⟨r, areas'⟩, hcall, rfl⟩ := ite_map_eq_some hstep
    obtain ⟨ys, hinv, -⟩ := h.sysMmap hcare hfresh hcall
    exact ⟨ys, hinv⟩
  | execve f interp stack => exact ⟨xs, h.execve hstep⟩
  | execveFails f interp made env =>
    exact ⟨xs, run_inv (fun s => s.Inv xs) (fun _ _ _ h hstep => h.write hstep) h hstep⟩
  | read x env => exact ⟨xs, h.touch hstep⟩
  | write x value env => exact ⟨xs, h.write hstep⟩
  | file v bytes =>
    obtain ⟨page, hpage, hrest⟩ := bind_eq_some_iff.mp hstep
    obtain ⟨-, rfl⟩ := ite_eq_some hrest
    exact ⟨xs, h.setPage (.inl ⟨page, hpage⟩)⟩

/-! ### Fresh bytes -/

/-- `PROT_READ`. -/
def readable (c : MmapCall) : Prop := c.prot &&& 1 ≠ 0
deriving Decidable

theorem vmaFlags_read (c : MmapCall) (file : Option Nat) :
    c.vmaFlags file &&& 1 ≠ 0 ↔ readable c := by
  unfold MmapCall.vmaFlags readable
  by_cases hread : c.prot &&& 1 = 0
  case pos =>
    simp only [hread, bne_self_eq_false, Bool.false_eq_true, if_false, ne_eq, not_true_eq_false,
      iff_false, not_not]
    split <;> split <;> split <;> split <;> split <;> rfl
  case neg =>
  have hbit : (c.prot &&& 1 != 0) = true := by simpa using hread
  simp only [hbit, if_true, ne_eq, hread, not_false_eq_true, iff_true]
  split <;> split <;> split <;> split <;> split <;> decide

/-- `x` is in the area of the call `c` and has not been written to. -/
structure Untouched (c : MmapCall) (x : Nat) (linked : Bool) (s : UserSpace) : Prop where
  area : ∃ a, s.areaAt x = some a ∧ a.file = none ∧ (a.flags &&& 1 ≠ 0 ↔ readable c)
  same : s.linked = linked
  page : ∀ page, s.tables (x / pageSize) = some page →
    page.bytes (x % pageSize) = 0 ∧ linked = true ∧ readable c

section Untouched

variable {linked : Bool}

section

variable (h : Untouched c x linked s)
include h

theorem Untouched.demandPage (hinv : s.Inv xs) (hy : y / pageSize = x / pageSize)
    (hpage : s.demandPage y env = some page) : page.bytes = (fun _ => 0) ∧ readable c := by
  obtain ⟨a, ha, hfile, hread⟩ := h.area
  have hya : s.areaAt y = some a := areaAt_page hinv.areas.list ha hy
  unfold UserSpace.demandPage at hpage
  simp only [hya, hfile, isSome_none, Bool.false_eq_true, false_and, if_false] at hpage
  obtain ⟨hflag, hpage⟩ := ite_none_left_eq_some.mp hpage
  obtain ⟨-, rfl⟩ := ite_eq_some hpage
  exact ⟨rfl, hread.mp hflag⟩

/-- A page elsewhere, or one that has the byte unwritten, is added. -/
theorem Untouched.setPage
    (hpage : v = x / pageSize → page.bytes (x % pageSize) = 0 ∧ linked = true ∧ readable c) :
    Untouched c x linked (s.setPage v page) := by
  refine ⟨h.area, h.same, fun new hnew => ?_⟩
  by_cases hv : x / pageSize = v
  case pos =>
    have heq : some page = some new := by
      rw [← hnew, hv]
      exact (update_self v (some page) s.tables).symm
    cases heq
    exact hpage hv.symm
  case neg =>
  apply h.page new
  rw [← hnew]
  exact (update_of_ne hv _ _).symm

section

variable (hinv : s.Inv xs) (hstack : ¬ (stackLimit ≤ x ∧ x < stackTop))
include hinv hstack

theorem Untouched.touch (hstep : s.touch y env = some s') : Untouched c x linked s' := by
  obtain rfl | ⟨page, rfl, hfrom⟩ := UserSpace.touch_cases hstep
  · exact h
  apply h.setPage
  intro hy
  rcases hfrom with ⟨hlinked, hdemand⟩ | ⟨hlo, hhi⟩
  · obtain ⟨hzero, hread⟩ := h.demandPage hinv hy hdemand
    exact ⟨congrFun hzero _, h.same ▸ hlinked, hread⟩
  · unfold stackLimit stackTop pageSize at *
    omega

theorem Untouched.write {value kernel} (hne : y ≠ x)
    (hstep : s.writeByte y value kernel env = some s') : Untouched c x linked s' := by
  obtain ⟨t, htouch, hrest⟩ := bind_eq_some_iff.mp hstep
  obtain ⟨page, hpage, hrest⟩ := bind_eq_some_iff.mp hrest
  obtain ⟨-, rfl⟩ := ite_eq_some hrest
  have ht := h.touch hinv hstack htouch
  apply ht.setPage
  intro hy
  obtain ⟨hzero, hrest⟩ := ht.page page (hy ▸ hpage)
  have hother : x % pageSize ≠ y % pageSize := by
    intro heq
    apply hne
    rw [← Nat.div_add_mod y pageSize, hy, ← heq, Nat.div_add_mod]
  exact ⟨(update_of_ne hother _ _).trans hzero, hrest⟩

theorem Untouched.relocate {bytes : List (Nat × UInt8)} (hne : ∀ b ∈ bytes, b.1 ≠ x)
    (hrun : run (fun s b => UserSpace.writeByte s b.1 b.2 true env) s bytes = some s') :
    Untouched c x linked s' := by
  induction bytes generalizing s with
  | nil => exact some.inj hrun ▸ h
  | cons b bytes ih =>
    obtain ⟨t, hfirst, hrest⟩ := run_cons.mp hrun
    exact ih (h.write hinv hstack (hne b mem_cons_self) hfirst) (hinv.write hfirst)
      (fun b hb => hne b (mem_cons_of_mem _ hb)) hrest

theorem Untouched.step (hcare : s.Careful e) (hkeeps : e.Keeps x) (hstep : s.step e = some s') :
    Untouched c x linked s' := by
  cases e with
  | mmap d =>
    obtain ⟨hfresh, ⟨r, areas'⟩, hcall, rfl⟩ := ite_map_eq_some hstep
    obtain ⟨ys, -, hold, -⟩ := hinv.sysMmap hcare hfresh hcall
    obtain ⟨a, ha, hrest⟩ := h.area
    exact ⟨⟨a, hold x a ha, hrest⟩, h.same, h.page⟩
  | execve => exact hkeeps.elim
  | execveFails f interp made env =>
    refine h.relocate hinv hstack (fun b hb => ?_) hstep
    obtain ⟨st, hst, hb⟩ := mem_flatMap.mp hb
    obtain ⟨i, hi, rfl⟩ := mem_map.mp hb
    have hstore : st.1 + 8 ≤ 0x0000800000000000 := hcare st (mem_of_mem_take hst)
    have hmiss := hkeeps st hst
    rw [mem_range] at hi
    show u64 (st.1 + i) ≠ x
    rw [u64_of_lt (by omega)]
    omega
  | read y env => exact h.touch hinv hstack hstep
  | write y value env => exact h.write hinv hstack hkeeps hstep
  | file v bytes =>
    obtain ⟨page, hpage, hrest⟩ := bind_eq_some_iff.mp hstep
    obtain ⟨hfile, rfl⟩ := ite_eq_some hrest
    apply h.setPage
    intro hv
    obtain ⟨a, ha, hnone, -⟩ := h.area
    have hsame : s.areaAt (v * pageSize) = some a :=
      areaAt_page hinv.areas.list ha (by rw [hv, Nat.mul_div_cancel _ (by decide)])
    rw [hsame, any_some, hnone] at hfile
    cases hfile

end

/-- What a load from such a byte gives. -/
theorem Untouched.readByte (hstack : ¬ (stackLimit ≤ x ∧ x < stackTop)) (hmem : env.memory = true) :
    s.readByte x env = if linked = true ∧ readable c then some 0 else none := by
  unfold UserSpace.readByte UserSpace.touch
  cases htable : s.tables (x / pageSize) with
  | some page =>
    obtain ⟨hzero, hboth⟩ := h.page page htable
    rw [if_pos hboth]
    simp [htable, hzero]
  | none =>
    obtain ⟨a, ha, hfile, hread⟩ := h.area
    simp only [UserSpace.pageFault, UserSpace.demandPage, ha, hfile, hmem, h.same]
    by_cases hflag : a.flags &&& 1 = 0
    case pos =>
      have hnot : ¬ readable c := fun hr => hread.mpr hr hflag
      simp [hflag, hnot, hstack]
    case neg =>
    have hr : readable c := hread.mp hflag
    rw [if_neg hflag]
    cases linked with
    | false => simp
    | true => simp [hr, UserSpace.setPage]

end

end Untouched

/-! ### Placement -/

/-- A program of one page at `vaddr`. -/
def programAt (vaddr : Nat) : ElfFile := elfOf [⟨ptLoad, 5, 120, vaddr, 2, 2⟩] [0x90, 0x91]

def execProgram (vaddr : Nat) : Event := .execve (programAt vaddr) none fun _ _ => 0

/-- Two readable and writable pages of anonymous memory at `addr`. -/
def anonymousPages (addr : BitVec 64) (fixed : Bool) : MmapCall where
  addr := addr
  length := 0x2000
  prot := 3
  flags := if fixed then 0x32 else 0x22
  fd := -1
  offset := 0
  limit := -1
  file := .error (-9)
  alloc := some Heap.kheapStart

def noVmas : Nat → Vma := fun _ => ⟨0, 0, 0, 0, none, none, none, 0⟩

/-- The address of a mapping, where it is one. -/
def placedAt (s : UserSpace) (c : MmapCall) : Option Nat :=
  (sysMmap s.areas c).bind fun r => r.1.toOption

theorem sysMmap_of_placedAt (h : placedAt s c = some addr) :
    ∃ areas', sysMmap s.areas c = some (.ok addr, areas') := by
  obtain ⟨⟨r, areas'⟩, hcall, hr⟩ := bind_eq_some_iff.mp h
  cases r with
  | error e => cases hr
  | ok a =>
    cases hr
    exact ⟨areas', hcall⟩

/-- Without areas, a mapping goes to the start of the space. -/
theorem UserSpace.Inv.avoids (h : s.Inv []) (hc : c.addr = 0)
    (hsegments : ∀ p ∈ s.segments, spaceStart + c.size ≤ p.pageStart ∨ p.pageEnd ≤ spaceStart)
    (hstack : spaceStart + c.size ≤ stackLimit) : s.Avoids c := by
  rintro addr (⟨⟨haddr, -⟩, -⟩ | ⟨-, rfl | ⟨y, a, harea, -⟩⟩)
  · exact absurd hc haddr
  · exact ⟨hsegments, .inl hstack⟩
  · obtain ⟨q, hq, -⟩ := h.areas.list.areaAt_eq_some_iff.mp harea
    exact absurd hq not_mem_nil

end Kurios.Proc.Placement
