import Kurios.Base.Assoc
import Kurios.Ext2.Dir

/-!
Directory blocks as chains of records.

`Chain buf off stop offs` says that the records at the offsets `offs` fill the bytes from
`off` to `stop`. The names in a block are the entries at those offsets (`entriesAt`). The
three scans of the driver are described on chains: `findEntry` finds the first entry with a
name, `placeEntry` adds one entry, and `dropEntry` takes one away, provided that the record
it merges with is the one just before (`dropEntry_spec`).
-/

namespace Kurios.Ext2

open Base List

variable {fuel m n o p recLen bs num : Nat} {prev : Option Nat}

/-! ### Records -/

/-- Records from one offset to another, each a multiple of four bytes and with room for its
name. -/
inductive Chain (buf : Buffer) : Nat → Nat → List Nat → Prop
  | nil (off : Nat) : Chain buf off off []
  | cons {off stop : Nat} {offs : List Nat} (haligned : 4 ∣ deRecLen buf off)
    (hroom : entrySize (deNameLen buf off) ≤ deRecLen buf off)
    (hrest : Chain buf (off + deRecLen buf off) stop offs) : Chain buf off stop (off :: offs)

/-- The name and the inode number of a record in use. -/
def entryAt (buf : Buffer) (off : Nat) : Option (List UInt8 × Nat) :=
  if deInode buf off = 0 then none else some (deName buf off, deInode buf off)

def entriesAt (buf : Buffer) (offs : List Nat) : List (List UInt8 × Nat) :=
  offs.filterMap (entryAt buf)

variable {buf buf' : Buffer} {off stop mid : Nat} {offs offs' xs ys : List Nat} {name : List UInt8}

theorem entriesAt_append (buf : Buffer) (xs ys : List Nat) :
    entriesAt buf (xs ++ ys) = entriesAt buf xs ++ entriesAt buf ys := filterMap_append

theorem entriesAt_cons_some {e} (h : entryAt buf off = some e)
    (offs : List Nat) : entriesAt buf (off :: offs) = e :: entriesAt buf offs :=
  filterMap_cons_some h

theorem entriesAt_cons_none (h : entryAt buf off = none) (offs : List Nat) :
    entriesAt buf (off :: offs) = entriesAt buf offs :=
  filterMap_cons_none h

theorem le_entrySize (n : Nat) : headerSize + n ≤ entrySize n := by
  unfold entrySize
  omega

theorem entrySize_mono (h : n ≤ m) : entrySize n ≤ entrySize m := by
  unfold entrySize
  omega

theorem entrySize_lt (h : n ≤ 255) : entrySize n < 2 ^ 16 := by
  unfold entrySize headerSize
  omega

/-- The bytes of a record. -/
structure SameRecord (buf buf' : Buffer) (off : Nat) : Prop where
  inode : deInode buf' off = deInode buf off
  recLen : deRecLen buf' off = deRecLen buf off
  nameLen : deNameLen buf' off = deNameLen buf off
  name : deName buf' off = deName buf off

theorem deName_congr (hlen : deNameLen buf' off = deNameLen buf off)
    (h : ∀ i, off + headerSize ≤ i → i < off + entrySize (deNameLen buf off) → buf' i = buf i) :
    deName buf' off = deName buf off := by
  have hsize := le_entrySize (deNameLen buf off)
  unfold deName
  rw [hlen]
  refine map_congr_left fun i hi => ?_
  have hi := mem_range.mp hi
  exact h _ (by omega) (by omega)

theorem sameRecord_of_bytes
    (h : ∀ i, off ≤ i → i < off + entrySize (deNameLen buf off) → buf' i = buf i) :
    SameRecord buf buf' off := by
  have hsize := le_entrySize (deNameLen buf off)
  unfold headerSize at hsize
  have hlen : deNameLen buf' off = deNameLen buf off :=
    load_congr fun i hlo hhi => h i (by omega) (by omega)
  refine ⟨load_congr fun i hlo hhi => h i (by omega) (by omega),
    load_congr fun i hlo hhi => h i (by omega) (by omega), hlen, ?_⟩
  exact deName_congr hlen fun i hlo => h i (by omega)

theorem SameRecord.entryAt (h : SameRecord buf buf' off) : entryAt buf' off = entryAt buf off := by
  rw [Ext2.entryAt, Ext2.entryAt, h.inode, h.name]

/-! ### Chains -/

namespace Chain

theorem le (h : Chain buf off stop offs) : off ≤ stop := by
  induction h with
  | nil => exact le_rfl
  | cons _ _ _ ih => omega

/-- A record of which the length and the length of the name are known. -/
theorem record {r} (hrec : deRecLen buf off = r) (hlen : deNameLen buf off = n)
    (halign : 4 ∣ r) (hroom : entrySize n ≤ r) (hrest : Chain buf (off + r) stop offs) :
    Chain buf off stop (off :: offs) := by
  subst hrec hlen
  exact .cons halign hroom hrest

theorem append (h : Chain buf off mid xs) (h' : Chain buf mid stop ys) :
    Chain buf off stop (xs ++ ys) := by
  induction h with
  | nil => exact h'
  | cons halign hroom _ ih => exact .cons halign hroom (ih h')

theorem split (h : Chain buf off stop (xs ++ ys)) :
    ∃ mid, Chain buf off mid xs ∧ Chain buf mid stop ys := by
  induction xs generalizing off with
  | nil => exact ⟨off, .nil off, h⟩
  | cons x xs ih =>
    cases h with
    | cons halign hroom hrest =>
      obtain ⟨mid, hfirst, hlast⟩ := ih hrest
      exact ⟨mid, .cons halign hroom hfirst, hlast⟩

/-- A chain around one of its records. -/
theorem split_at (h : Chain buf off stop (xs ++ o :: ys)) :
    Chain buf off o xs ∧ 4 ∣ deRecLen buf o ∧ entrySize (deNameLen buf o) ≤ deRecLen buf o ∧
      Chain buf (o + deRecLen buf o) stop ys := by
  obtain ⟨mid, hfirst, hlast⟩ := h.split
  cases hlast with
  | cons halign hroom hrest => exact ⟨hfirst, halign, hroom, hrest⟩

theorem mem_bounds (h : Chain buf off stop offs) (ho : o ∈ offs) :
    off ≤ o ∧ o + deRecLen buf o ≤ stop := by
  obtain ⟨xs, ys, rfl⟩ := append_of_mem ho
  obtain ⟨hfirst, -, -, hlast⟩ := h.split_at
  exact ⟨hfirst.le, hlast.le⟩

/-- Only the bytes of the chain matter. -/
theorem congr (h : Chain buf off stop offs) (hsame : ∀ i, off ≤ i → i < stop → buf' i = buf i) :
    Chain buf' off stop offs ∧ entriesAt buf' offs = entriesAt buf offs := by
  induction h with
  | nil off => exact ⟨.nil off, rfl⟩
  | @cons off stop offs halign hroom hrest ih =>
    have hle := hrest.le
    have hrecord : SameRecord buf buf' off :=
      sameRecord_of_bytes fun i hlo hhi => hsame i hlo (by omega)
    obtain ⟨hchain, hentries⟩ := ih fun i hlo => hsame i (by omega)
    refine ⟨.record hrecord.recLen hrecord.nameLen halign hroom hchain, ?_⟩
    unfold entriesAt at hentries ⊢
    rw [filterMap_cons, filterMap_cons, hrecord.entryAt, hentries]

/-- A record has a header at least. -/
theorem pos_recLen (h : entrySize n ≤ m) : 8 ≤ m :=
  le_trans (le_trans (Nat.le_add_right _ _) (le_entrySize n)) h

theorem eq_nil (h : Chain buf off stop offs) (hle : stop ≤ off) : offs = [] := by
  cases h with
  | nil => rfl
  | cons halign hroom hrest =>
    have hpos := pos_recLen hroom
    have hstop := hrest.le
    omega

end Chain

/-! ### Finding an entry -/

/-- The last record in use before the one that is found. -/
def lastUsed (buf : Buffer) (offs : List Nat) (prev : Option Nat) : Option Nat :=
  offs.foldl (fun prev off => if deInode buf off ≠ 0 then some off else prev) prev

theorem mem_of_lastUsed (h : lastUsed buf offs prev = some p) : p ∈ offs ∨ prev = some p := by
  induction offs generalizing prev with
  | nil => exact .inr h
  | cons off offs ih =>
    rcases ih h with hmem | hprev
    · exact .inl (mem_cons_of_mem _ hmem)
    simp only at hprev
    split at hprev
    · cases hprev
      exact .inl mem_cons_self
    · exact .inr hprev

/-- What `findEntry` finds: the first entry with the name. -/
inductive Found (buf : Buffer) (name : List UInt8) (offs : List Nat) (prev : Option Nat) :
    Option (Nat × Option Nat) → Prop
  | none (h : ∀ o ∈ offs, isEntry buf o name = false) : Found buf name offs prev none
  | some {xs ys : List Nat} {o : Nat} (hoffs : offs = xs ++ o :: ys)
    (hbefore : ∀ x ∈ xs, isEntry buf x name = false) (hentry : isEntry buf o name = true) :
    Found buf name offs prev (some (o, lastUsed buf xs prev))

theorem findEntry_spec (h : Chain buf off bs offs) (hfuel : bs - off ≤ fuel) (name : List UInt8)
    (prev : Option Nat) : Found buf name offs prev (findEntry bs buf name fuel off prev) := by
  induction fuel generalizing off offs prev with
  | zero =>
    rw [h.eq_nil (Nat.le_of_sub_eq_zero (Nat.le_zero.mp hfuel))]
    exact .none fun o ho => by cases ho
  | succ fuel ih =>
    rw [findEntry]
    cases h with
    | nil =>
      rw [if_pos le_rfl]
      exact .none fun o ho => by cases ho
    | @cons _ _ offs halign hroom hrest =>
      have hpos := Chain.pos_recLen hroom
      have hle := hrest.le
      rw [if_neg (by omega), if_neg (by omega)]
      split
      case isTrue hent =>
        have hoffs : off :: offs = [] ++ off :: offs := rfl
        exact .some hoffs (fun x hx => by cases hx) hent
      case isFalse hent =>
      have hent := Bool.eq_false_iff.mpr hent
      have hrec := ih hrest (by omega) (if deInode buf off ≠ 0 then some off else prev)
      generalize findEntry bs buf name fuel (off + deRecLen buf off)
        (if deInode buf off ≠ 0 then some off else prev) = r at hrec
      cases hrec with
      | none hnot => exact .none (forall_mem_cons.mpr ⟨hent, hnot⟩)
      | @some xs ys o hoffs hbef hfirst =>
        have hcons : off :: offs = (off :: xs) ++ o :: ys := by
          rw [hoffs, cons_append]
        exact .some hcons (forall_mem_cons.mpr ⟨hent, hbef⟩) hfirst

theorem isEntry_iff : isEntry buf o name = true ↔ entryAt buf o = some (name, deInode buf o) := by
  unfold isEntry entryAt
  split <;> simp_all

theorem not_mem_keys_of_not_isEntry (h : ∀ o ∈ offs, isEntry buf o name = false) :
    name ∉ keys (entriesAt buf offs) := by
  intro hmem
  obtain ⟨⟨name', num⟩, hent, rfl⟩ := mem_map.mp hmem
  obtain ⟨o, ho, hat⟩ := mem_filterMap.mp hent
  have hnum : num = deInode buf o := by
    unfold entryAt at hat
    split at hat <;> cases hat
    · rfl
  subst hnum
  have hnot := h o ho
  rw [isEntry_iff.mpr hat] at hnot
  cases hnot

/-- A lookup in a block. -/
theorem Found.lookup {r} (h : Found buf name offs prev r) :
    (r.map fun r => deInode buf r.1) = toMap (entriesAt buf offs) name := by
  cases h with
  | none hnot => exact (toMap_eq_none_iff.mpr (not_mem_keys_of_not_isEntry hnot)).symm
  | some hoffs hbef hent =>
    subst hoffs
    rw [entriesAt_append, entriesAt_cons_some (isEntry_iff.mp hent), toMap_append,
      toMap_cons_self, toMap_eq_none_iff.mpr (not_mem_keys_of_not_isEntry hbef)]
    rfl

/-! ### Adding an entry -/

theorem putEntry_of_outside {type i} (h : i < off ∨ off + headerSize + name.length ≤ i) :
    putEntry buf off num recLen name type i = buf i := by
  unfold headerSize at h
  unfold putEntry
  rw [copy_of_outside (by unfold headerSize; omega), store_of_outside (by omega),
    store_of_outside (by omega), store_of_outside (by omega), store_of_outside (by omega)]

/-- The record that was put. -/
theorem putEntry_spec (buf : Buffer) (off : Nat) (type : Nat) (hnum : num < 2 ^ 32)
    (hrec : recLen < 2 ^ 16)
    (hname : name.length ≤ 255) : deInode (putEntry buf off num recLen name type) off = num ∧
      deRecLen (putEntry buf off num recLen name type) off = recLen ∧
      deNameLen (putEntry buf off num recLen name type) off = name.length ∧
      deName (putEntry buf off num recLen name type) off = name := by
  have hlen : deNameLen (putEntry buf off num recLen name type) off = name.length := by
    unfold deNameLen putEntry
    rw [load_copy_of_disjoint (by unfold headerSize; omega), load_store_of_disjoint (by omega),
      load_store_of_lt (by omega)]
  refine ⟨?_, ?_, hlen, ?_⟩
  · unfold deInode putEntry
    rw [load_copy_of_disjoint (by unfold headerSize; omega), load_store_of_disjoint (by omega),
      load_store_of_disjoint (by omega), load_store_of_disjoint (by omega),
      load_store_of_lt (by omega)]
  · unfold deRecLen putEntry
    rw [load_copy_of_disjoint (by unfold headerSize; omega), load_store_of_disjoint (by omega),
      load_store_of_disjoint (by omega), load_store_of_lt (by omega)]
  unfold deName
  rw [hlen]
  refine ext_getElem (by simp) fun i hi hi' => ?_
  rw [getElem_map, getElem_range]
  unfold putEntry
  rw [copy_add hi', getD_eq_getElem _ _ hi']

/-- What an addition leaves from some offset on. -/
structure Placed (bs : Nat) (buf : Buffer) (off : Nat) (offs : List Nat) (name : List UInt8)
    (num : Nat) (buf' : Buffer) (offs' : List Nat) : Prop where
  chain : Chain buf' off bs offs'
  entries : (entriesAt buf' offs').Perm ((name, num) :: entriesAt buf offs)
  before : ∀ i, i < off → buf' i = buf i

/-- The record before the place of a new name stays. -/
theorem Placed.cons (h : Placed bs buf (off + deRecLen buf off) offs name num buf' offs')
    (halign : 4 ∣ deRecLen buf off) (hroom : entrySize (deNameLen buf off) ≤ deRecLen buf off) :
    Placed bs buf off (off :: offs) name num buf' (off :: offs') := by
  have hrecord : SameRecord buf buf' off := sameRecord_of_bytes fun i _ hhi => h.before i (by omega)
  refine ⟨.record hrecord.recLen hrecord.nameLen halign hroom h.chain, ?_,
    fun i hi => h.before i (by omega)⟩
  cases hat : entryAt buf off with
  | none =>
    rw [entriesAt_cons_none (hrecord.entryAt.trans hat), entriesAt_cons_none hat]
    exact h.entries
  | some e =>
    rw [entriesAt_cons_some (hrecord.entryAt.trans hat), entriesAt_cons_some hat]
    exact (h.entries.cons e).trans (List.Perm.swap _ _ _)

section Place

variable {bs num type : Nat} (hbs : bs < 2 ^ 16) (hnum : 0 < num) (hnum32 : num < 2 ^ 32)
  (hname : name.length ≤ 255)

include hbs hnum hnum32 hname

/-- An unused record takes the new name. -/
theorem placed_unused (hzero : deInode buf off = 0) (halign : 4 ∣ deRecLen buf off)
    (hroom : entrySize name.length ≤ deRecLen buf off)
    (hrest : Chain buf (off + deRecLen buf off) bs offs) : Placed bs buf off (off :: offs) name num
      (putEntry (store buf off 4 num) off num (deRecLen buf off) name type) (off :: offs) := by
  have hle := hrest.le
  have hsize := le_entrySize name.length
  obtain ⟨hinode, hrec, hlen, hput⟩ := putEntry_spec (store buf off 4 num) off type hnum32
    (show deRecLen buf off < 2 ^ 16 by omega) hname
  have hsame : ∀ i, (i < off ∨ off + deRecLen buf off ≤ i) →
      putEntry (store buf off 4 num) off num (deRecLen buf off) name type i = buf i := by
    intro i hi
    rw [putEntry_of_outside (by omega), store_of_outside]
    unfold headerSize at hsize
    omega
  obtain ⟨hchain, hentries⟩ := hrest.congr fun i hlo _ => hsame i (.inr hlo)
  refine ⟨.record hrec hlen halign hroom hchain, ?_, fun i hi => hsame i (.inl hi)⟩
  have hat : entryAt (putEntry (store buf off 4 num) off num (deRecLen buf off) name type) off =
      some (name, num) := by
    rw [entryAt, hinode, hput, if_neg (ne_of_gt hnum)]
  rw [entriesAt_cons_some hat, hentries, entriesAt_cons_none (if_pos hzero)]

/-- A record in use is cut to its size, and the new one gets the rest. -/
theorem placed_used (hused : deInode buf off ≠ 0) (halign : 4 ∣ deRecLen buf off)
    (hroom : entrySize (deNameLen buf off) + entrySize name.length ≤ deRecLen buf off)
    (hrest : Chain buf (off + deRecLen buf off) bs offs) : Placed bs buf off (off :: offs) name num
      (putEntry (store (store buf (off + 4) 2 (entrySize (deNameLen buf off)))
          (off + entrySize (deNameLen buf off)) 4 num) (off + entrySize (deNameLen buf off)) num
        (deRecLen buf off - entrySize (deNameLen buf off)) name type)
      (off :: (off + entrySize (deNameLen buf off)) :: offs) := by
  have hle := hrest.le
  have hsize := le_entrySize name.length
  have hsize' := le_entrySize (deNameLen buf off)
  have hheader : headerSize = 8 := rfl
  generalize hactual : entrySize (deNameLen buf off) = actual at *
  generalize hbuf' : putEntry (store (store buf (off + 4) 2 actual) (off + actual) 4 num)
    (off + actual) num (deRecLen buf off - actual) name type = buf'
  have hput := putEntry_spec (store (store buf (off + 4) 2 actual) (off + actual) 4 num)
    (off + actual) type hnum32 (show deRecLen buf off - actual < 2 ^ 16 by omega) hname
  rw [hbuf'] at hput
  obtain ⟨hinode, hrec, hlen, hput⟩ := hput
  -- What lies before the new record, up to the length of the old one.
  have hbef : ∀ i, i < off + actual → buf' i = store buf (off + 4) 2 actual i := by
    intro i hi
    rw [← hbuf', putEntry_of_outside (by omega), store_of_outside (by omega)]
  have hsame : ∀ i, (i < off ∨ off + deRecLen buf off ≤ i) → buf' i = buf i := by
    intro i hi
    rw [← hbuf', putEntry_of_outside (by omega), store_of_outside (by omega),
      store_of_outside (by omega)]
  have holdInode : deInode buf' off = deInode buf off := by
    refine load_congr fun i hlo hhi => ?_
    rw [hbef i (by omega), store_of_outside (by omega)]
  have holdRec : deRecLen buf' off = actual := by
    rw [deRecLen, load_congr fun i hlo hhi => hbef i (by omega)]
    exact load_store_of_lt (by omega)
  have holdLen : deNameLen buf' off = deNameLen buf off := by
    refine load_congr fun i hlo hhi => ?_
    rw [hbef i (by omega), store_of_outside (by omega)]
  have holdName : deName buf' off = deName buf off := by
    refine deName_congr holdLen fun i hlo hhi => ?_
    rw [hactual] at hhi
    rw [hbef i hhi, store_of_outside (by omega)]
  have hend : off + actual + (deRecLen buf off - actual) = off + deRecLen buf off := by omega
  obtain ⟨hchain, hentries⟩ := hrest.congr fun i hlo _ => hsame i (.inr hlo)
  have hfour : 4 ∣ actual := hactual ▸ dvd_mul_left 4 _
  have hnew : Chain buf' (off + actual) bs ((off + actual) :: offs) :=
    .record hrec hlen (Nat.dvd_sub halign hfour) (by omega) (hend ▸ hchain)
  have hat : entryAt buf' (off + actual) = some (name, num) := by
    rw [entryAt, hinode, hput, if_neg (ne_of_gt hnum)]
  have hatOld : entryAt buf' off = some (deName buf off, deInode buf off) := by
    rw [entryAt, holdInode, holdName, if_neg hused]
  refine ⟨.record holdRec holdLen hfour (le_of_eq hactual) hnew, ?_, fun i hi => hsame i (.inl hi)⟩
  rw [entriesAt_cons_some hatOld, entriesAt_cons_some hat, hentries,
    entriesAt_cons_some (if_neg hused)]
  exact List.Perm.swap _ _ _

omit hbs in
/-- One round of the scan, at an unused record. -/
theorem placeEntry_unused (hoff : off < bs) (hrec : deRecLen buf off ≠ 0)
    (hzero : deInode buf off = 0) :
    placeEntry bs buf num name type (fuel + 1) off =
      if entrySize name.length ≤ deRecLen buf off then
        some (putEntry (store buf off 4 num) off num (deRecLen buf off) name type)
      else placeEntry bs buf num name type fuel (off + deRecLen buf off) := by
  have hstored : deInode (store buf off 4 num) off ≠ 0 := by
    rw [deInode, load_store_of_lt (by omega)]
    exact ne_of_gt hnum
  have hsub : sub16 (deRecLen buf off) 0 = deRecLen buf off := by simp [sub16]
  rw [placeEntry, if_neg (Nat.not_le_of_lt hoff), if_neg hrec]
  simp only [hzero, if_true, ne_eq, not_true_eq_false, if_false, hsub, hstored,
    Nat.mod_eq_of_lt (entrySize_lt hname), ge_iff_le]

omit hnum hnum32 in
/-- One round of the scan, at a record in use. -/
theorem placeEntry_used (hoff : off + deRecLen buf off ≤ bs)
    (hroom : entrySize (deNameLen buf off) ≤ deRecLen buf off) (hused : deInode buf off ≠ 0) :
    placeEntry bs buf num name type (fuel + 1) off =
      if entrySize (deNameLen buf off) + entrySize name.length ≤ deRecLen buf off then
        some (putEntry (store (store buf (off + 4) 2 (entrySize (deNameLen buf off)))
            (off + entrySize (deNameLen buf off)) 4 num) (off + entrySize (deNameLen buf off)) num
          (deRecLen buf off - entrySize (deNameLen buf off)) name type)
      else placeEntry bs buf num name type fuel (off + deRecLen buf off) := by
  have hsize := le_entrySize (deNameLen buf off)
  unfold headerSize at hsize
  have hstored : deInode (store (store buf (off + 4) 2 (entrySize (deNameLen buf off)))
      (off + entrySize (deNameLen buf off)) 4 num) off ≠ 0 := by
    rw [deInode, load_store_of_disjoint (by omega), load_store_of_disjoint (by omega)]
    exact hused
  have hsub : sub16 (deRecLen buf off) (entrySize (deNameLen buf off)) =
      deRecLen buf off - entrySize (deNameLen buf off) := if_pos hroom
  have hfits : (entrySize name.length ≤ deRecLen buf off - entrySize (deNameLen buf off)) ↔
      entrySize (deNameLen buf off) + entrySize name.length ≤ deRecLen buf off := by omega
  rw [placeEntry, if_neg (by omega), if_neg (by omega)]
  simp only [hused, if_false, ne_eq, not_false_eq_true, if_true, hsub, hstored, hfits,
    Nat.mod_eq_of_lt (entrySize_lt hname),
    Nat.mod_eq_of_lt (show entrySize (deNameLen buf off) < 2 ^ 16 by omega)]

/-- `ext2_add_dir_entry` adds the name to a block that has room for it. -/
theorem placeEntry_spec (h : Chain buf off bs offs)
    (hplace : placeEntry bs buf num name type fuel off = some buf') :
    ∃ offs', Placed bs buf off offs name num buf' offs' := by
  induction fuel generalizing off offs with
  | zero => cases hplace
  | succ fuel ih =>
    cases h with
    | nil =>
      rw [placeEntry, if_pos le_rfl] at hplace
      cases hplace
    | @cons _ _ offs halign hroom hrest =>
      have hle := hrest.le
      have hpos := Chain.pos_recLen hroom
      by_cases hzero : deInode buf off = 0
      · rw [placeEntry_unused hnum hnum32 hname (by omega) (by omega) hzero] at hplace
        split at hplace
        case isTrue hfits =>
          cases hplace
          exact ⟨_, placed_unused hbs hnum hnum32 hname hzero halign hfits hrest⟩
        · obtain ⟨offs', hpl⟩ := ih hrest hplace
          exact ⟨_, hpl.cons halign hroom⟩
      rw [placeEntry_used hbs hname hle hroom hzero] at hplace
      split at hplace
      case isTrue hfits =>
        cases hplace
        exact ⟨_, placed_used hbs hnum hnum32 hname hzero halign hfits hrest⟩
      · obtain ⟨offs', hpl⟩ := ih hrest hplace
        exact ⟨_, hpl.cons halign hroom⟩

end Place

/-- A block with one record, for a name that did not fit elsewhere. -/
theorem freshDirBlock_spec (fs : Layout) (type : Nat) (hbs : fs.blockSize < 2 ^ 16)
    (hfour : 4 ∣ fs.blockSize) (hroom : entrySize name.length ≤ fs.blockSize) (hnum : 0 < num)
    (hnum32 : num < 2 ^ 32) (hname : name.length ≤ 255) :
    Chain (freshDirBlock fs num name type) 0 fs.blockSize [0] ∧
      entriesAt (freshDirBlock fs num name type) [0] = [(name, num)] := by
  unfold freshDirBlock
  rw [Nat.mod_eq_of_lt hbs]
  obtain ⟨hinode, hrec, hlen, hput⟩ := putEntry_spec (fun _ => 0) 0 type hnum32 hbs hname
  refine ⟨.record hrec hlen hfour hroom (by rw [zero_add]; exact .nil _), ?_⟩
  have hat : entryAt (putEntry (fun _ => 0) 0 num fs.blockSize name type) 0 = some (name, num) := by
    rw [entryAt, hinode, hput, if_neg (ne_of_gt hnum)]
  rw [entriesAt_cons_some hat]
  rfl

/-! ### Removing an entry -/

/-- The records before and after stay when the bytes of one change. -/
theorem Chain.replace {mids} (h : Chain buf 0 bs (xs ++ o :: ys))
    (hsame : ∀ i, (i < o ∨ o + deRecLen buf o ≤ i) → buf' i = buf i)
    (hmids : Chain buf' o (o + deRecLen buf o) mids) : Chain buf' 0 bs (xs ++ (mids ++ ys)) ∧
      entriesAt buf' (xs ++ (mids ++ ys)) =
        entriesAt buf xs ++ (entriesAt buf' mids ++ entriesAt buf ys) := by
  obtain ⟨hfirst, -, -, hlast⟩ := h.split_at
  obtain ⟨hfirst', hentries⟩ := hfirst.congr fun i _ hhi => hsame i (.inl hhi)
  obtain ⟨hlast', hentries'⟩ := hlast.congr fun i hlo _ => hsame i (.inr hlo)
  exact ⟨hfirst'.append (hmids.append hlast'), by
    rw [entriesAt_append, entriesAt_append, hentries, hentries']⟩

/-- What a removal leaves. -/
structure Dropped (bs : Nat) (buf : Buffer) (offs : List Nat) (name : List UInt8) (num : Nat)
    (buf' : Buffer) (offs' : List Nat) : Prop where
  chain : Chain buf' 0 bs offs'
  entries : (entriesAt buf offs).Perm ((name, num) :: entriesAt buf' offs')

/-- The record is marked as unused. -/
theorem dropped_first (h : Chain buf 0 bs (xs ++ o :: ys)) (hent : isEntry buf o name = true) :
    Dropped bs buf (xs ++ o :: ys) name (deInode buf o) (dropEntry buf o none)
      (xs ++ ([o] ++ ys)) := by
  obtain ⟨-, halign, hroom, -⟩ := h.split_at
  have hpos := Chain.pos_recLen hroom
  have hsame : ∀ i, (i < o ∨ o + 4 ≤ i) → dropEntry buf o none i = buf i :=
    fun i => store_of_outside
  have hrec : deRecLen (dropEntry buf o none) o = deRecLen buf o :=
    load_congr fun i hlo _ => hsame i (by omega)
  have hlen : deNameLen (dropEntry buf o none) o = deNameLen buf o :=
    load_congr fun i hlo _ => hsame i (by omega)
  have hzero : deInode (dropEntry buf o none) o = 0 := load_store_of_lt (by omega)
  have hmid : Chain (dropEntry buf o none) o (o + deRecLen buf o) [o] :=
    .record hrec hlen halign hroom (.nil _)
  obtain ⟨hchain, hentries⟩ := h.replace (fun i hi => hsame i (by omega)) hmid
  refine ⟨hchain, ?_⟩
  rw [hentries, entriesAt_cons_none (if_pos hzero), entriesAt_append,
    entriesAt_cons_some (isEntry_iff.mp hent)]
  exact perm_middle

/-- The record just before takes the space. -/
theorem dropped_merge (hbs : bs < 2 ^ 16) (h : Chain buf 0 bs (xs ++ p :: o :: ys))
    (hent : isEntry buf o name = true) :
    Dropped bs buf (xs ++ p :: o :: ys) name (deInode buf o) (dropEntry buf o (some p))
      (xs ++ p :: ys) := by
  obtain ⟨hfirst, halign, hroom, hlast⟩ := h.split_at
  have hpos := Chain.pos_recLen hroom
  obtain ⟨ho, haligned', hrest⟩ : o = p + deRecLen buf p ∧ 4 ∣ deRecLen buf o ∧
      Chain buf (o + deRecLen buf o) bs ys := by
    cases hlast with
    | cons haligned' _ hrest => exact ⟨rfl, haligned', hrest⟩
  have hle := hrest.le
  generalize hbuf' : dropEntry buf o (some p) = buf'
  have hsame : ∀ i, (i < p + 4 ∨ p + 6 ≤ i) → buf' i = buf i :=
    fun i hi => hbuf' ▸ store_of_outside (by omega)
  have hrec : deRecLen buf' p = deRecLen buf p + deRecLen buf o := by
    have hlt : deRecLen buf p + deRecLen buf o < 2 ^ 16 := by omega
    rw [← hbuf', dropEntry, Nat.mod_eq_of_lt hlt]
    exact load_store_of_lt hlt
  have hinode : deInode buf' p = deInode buf p := load_congr fun i _ hhi => hsame i (by omega)
  have hlen : deNameLen buf' p = deNameLen buf p := load_congr fun i hlo _ => hsame i (by omega)
  have hname : deName buf' p = deName buf p :=
    deName_congr hlen fun i hlo _ => hsame i (by unfold headerSize at hlo; omega)
  have hat : entryAt buf' p = entryAt buf p := by rw [entryAt, entryAt, hinode, hname]
  obtain ⟨hfirst', hentries⟩ := hfirst.congr fun i _ hhi => hsame i (by omega)
  obtain ⟨hrest', hentries'⟩ := hrest.congr fun i hlo _ => hsame i (by omega)
  refine ⟨hfirst'.append (.record hrec hlen (dvd_add halign haligned') (by omega) ?_), ?_⟩
  · rw [← add_assoc, ← ho]
    exact hrest'
  have hmerged : entriesAt buf' (xs ++ p :: ys) =
      entriesAt buf (xs ++ [p]) ++ entriesAt buf ys := by
    unfold entriesAt at hentries hentries' ⊢
    rw [filterMap_append, filterMap_append, filterMap_cons, filterMap_cons,
      filterMap_nil, hat, hentries, hentries']
    cases entryAt buf p <;> simp
  have hsplit : xs ++ p :: o :: ys = (xs ++ [p]) ++ o :: ys := by simp
  rw [hmerged, hsplit, entriesAt_append, entriesAt_cons_some (isEntry_iff.mp hent)]
  exact perm_middle

/-- The record that leads to `o` is the one just before it. -/
theorem Chain.eq_append_of_adjacent (h : Chain buf 0 bs (xs ++ o :: ys)) (hp : p ∈ xs)
    (hadjacent : p + deRecLen buf p = o) : ∃ xs', xs = xs' ++ [p] := by
  obtain ⟨xs', rest, rfl⟩ := append_of_mem hp
  rw [append_assoc, cons_append] at h
  obtain ⟨-, -, -, hlast⟩ := h.split_at
  cases rest with
  | nil => exact ⟨xs', rfl⟩
  | cons r rest =>
    -- The next record would be at `o` already, and `o` would be found again after it.
    cases hlast with
    | cons halign hroom hrest =>
      have hpos := Chain.pos_recLen hroom
      have hbounds := hrest.mem_bounds (mem_append_right rest mem_cons_self)
      omega

/-- `ext2_remove_dir_entry` takes the name away, if the record it merges with is the one just
before. -/
theorem dropEntry_spec (hbs : bs < 2 ^ 16) (h : Chain buf 0 bs (xs ++ o :: ys))
    (hent : isEntry buf o name = true) (hmem : ∀ p, prev = some p → p ∈ xs)
    (hadjacent : ∀ p, prev = some p → p + deRecLen buf p = o) :
    ∃ offs', Dropped bs buf (xs ++ o :: ys) name (deInode buf o) (dropEntry buf o prev) offs' := by
  cases prev with
  | none => exact ⟨_, dropped_first h hent⟩
  | some p =>
    obtain ⟨xs', rfl⟩ := h.eq_append_of_adjacent (hmem p rfl) (hadjacent p rfl)
    rw [append_assoc, singleton_append] at h ⊢
    exact ⟨_, dropped_merge hbs h hent⟩

end Kurios.Ext2
