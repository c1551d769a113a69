import Kurios.Fat32.LongNames

/-!
Long names written and read back.

The entries with the last characters come first. The callbacks put them together
(`collect_lfnEntries`). `fat32_parse_lfn` stops at the terminating zero, which is in the first
entry that it reads, so that it gives back only names of one entry and names without a zero.
-/

namespace Kurios.Fat32

open List Function

variable {name : List Nat} {buf : LongName} {len checksum k : Nat}

/-- `order & ~FAT_LFN_LAST`. -/
def lfnOrder (order : Nat) : Nat := if order.testBit 6 then order - lfnLast else order

/-- The loop of `fat32_parse_lfn` over the characters of an entry: the buffer, the length and
whether a zero was read. -/
def parseChars (buf : LongName) (len : Nat) : Nat → List Nat → LongName × Nat × Bool
  | _, [] => (buf, len, false)
  | pos, c :: cs =>
    if pos < nameMax then
      if c = 0 then (update buf pos c, pos, true)
      else parseChars (update buf pos c) (if pos ≥ len then pos + 1 else len) (pos + 1) cs
    else (buf, len, false)

/-- The loop over the entries, from the one numbered `order` down: the buffer, the length and the
number of entries read. -/
def parseEntries (checksum : Nat) (buf : LongName) (len : Nat) :
    Nat → List Dirent → LongName × Nat × Nat
  | order + 1, .long order' checksum' chars :: ds =>
    if lfnOrder order' = order + 1 ∧ checksum' = checksum then
      match parseChars buf len (order * lfnChars) chars with
      | (buf, len, true) => (buf, len, 1)
      | (buf, len, false) =>
        let (buf, len, n) := parseEntries checksum buf len order ds
        (buf, len, n + 1)
    else (buf, len, 0)
  | _, _ => (buf, len, 0)

/-- The first 11 bytes of an entry. -/
def rawName : Dirent → List Nat
  | .short name .. => name
  | .long order _ chars => order :: (chars.take 5).flatMap fun c => [c % 256, c / 256]

/-- The buffer read as a string. -/
def unitString (buf : LongName) (len : Nat) : List Nat :=
  (((range len).map buf).takeWhile fun c => c ≠ 0 ∧ c ≠ 0xFFFF).map
    fun c => if c < 128 then c else 63

/-- `fat32_parse_lfn`: the number of entries and the name, or `none` for 0. The buffer is not
initialised. -/
def parseLfn (buf : LongName) (entries : List Dirent) : Option (Nat × List Nat) :=
  match entries with
  | .long order checksum _ :: _ =>
    let (buf, len, n) := parseEntries checksum buf 0 (lfnOrder order) entries
    if n = 0 ∨ ∃ d ∈ entries[n]?, lfnChecksum (rawName d) ≠ checksum then none
    else some (n, unitString buf (min len nameMax))
  | _ => none

/-- The entries numbered `k` to 1. -/
def lfnEntries (name : List Nat) (checksum k : Nat) : List Dirent :=
  (range k).map fun i => lfnEntry name checksum (k - i)

theorem lfnEntries_succ (name : List Nat) (checksum k : Nat) :
    lfnEntries name checksum (k + 1) = lfnEntry name checksum (k + 1) ::
      lfnEntries name checksum k := by
  unfold lfnEntries
  rw [range_succ_eq_map, map_cons, map_map]
  congr 1
  apply map_congr_left
  intro i _
  rw [comp_apply, Nat.succ_sub_succ]

/-- The characters of an entry are read up to the zero. -/
theorem parseChars_lfnUnit (hascii : IsAscii name) (hlength : name.length < nameMax) {pos n}
    (hpos : pos ≤ name.length) (hn : n = 0 → pos ≤ len) :
    parseChars buf len pos ((range' pos n).map (lfnUnit name)) =
      (fun i => if pos ≤ i ∧ i < pos + n ∧ i ≤ name.length then lfnUnit name i else buf i,
        if name.length < pos + n then name.length else max len (pos + n),
        decide (name.length < pos + n)) := by
  induction n generalizing pos buf len with
  | zero =>
    have hle := hn rfl
    rw [range'_zero, map_nil, parseChars, if_neg (by omega), decide_eq_false (by omega),
      Nat.add_zero, Nat.max_eq_left hle]
    congr 1
    funext i
    rw [if_neg (by omega)]
  | succ n ih =>
    rw [range'_succ, map_cons, parseChars, if_pos (by omega)]
    obtain heq | hlt := Nat.eq_or_lt_of_le hpos
    · have hzero : lfnUnit name pos = 0 := by
        rw [lfnUnit, if_neg (by omega), if_pos heq]
      rw [if_pos hzero, if_pos (by omega), decide_eq_true (by omega), heq]
      congr 1
      funext i
      by_cases hi : i = name.length
      · rw [hi, update_self, if_pos (by omega)]
      · rw [update_of_ne hi, if_neg (by omega)]
    have hne := (getD_ascii hascii hlt).1
    rw [← lfnUnit_of_lt hlt] at hne
    rw [if_neg (by omega), ih hlt (fun _ => by split <;> omega)]
    refine Prod.ext (funext fun i => ?_) (Prod.ext ?_ ?_)
    · dsimp only
      by_cases hi : i = pos
      · rw [hi, update_self, if_neg (by omega), if_pos (by omega)]
      · rw [update_of_ne hi]
        exact if_congr (by omega) rfl rfl
    · dsimp only
      split_ifs <;> omega
    · exact decide_eq_decide.mpr (by omega)

theorem lfnOrder_lfnEntry (hk : k < 64) :
    lfnOrder (if k = lfnCount name then k + lfnLast else k) = k := by
  have hall : ∀ n < 64, lfnOrder n = n ∧ lfnOrder (n + lfnLast) = n := by decide
  split
  · exact (hall k hk).2
  · exact (hall k hk).1

section

variable (hascii : IsAscii name) (hlength : name.length ≤ 247)
include hascii hlength

/-- One entry: a zero in it ends the reading. -/
theorem parseEntries_lfnEntry (hk : k < lfnCount name) (ds : List Dirent) :
    parseEntries checksum buf len (k + 1) (lfnEntry name checksum (k + 1) :: ds) =
      (let buf' := fun i => if k * lfnChars ≤ i ∧ i < k * lfnChars + lfnChars ∧ i ≤ name.length then
          lfnUnit name i else buf i
       if name.length < k * lfnChars + lfnChars then (buf', name.length, 1)
       else
        let r := parseEntries checksum buf' (max len (k * lfnChars + lfnChars)) k ds
        (r.1, r.2.1, r.2.2 + 1)) := by
  have hcnt : k * lfnChars ≤ name.length ∧ k + 1 < 64 := by
    unfold lfnCount lfnChars at *
    omega
  rw [lfnEntry, parseEntries, if_pos ⟨lfnOrder_lfnEntry hcnt.2, rfl⟩, Nat.add_sub_cancel,
    map_lfnUnit,
    parseChars_lfnUnit hascii (by unfold nameMax; omega) hcnt.1 (fun h => absurd h (by decide))]
  by_cases hzero : name.length < k * lfnChars + lfnChars
  · simp [decide_eq_true hzero, if_pos hzero]
  · simp [decide_eq_false hzero, if_neg hzero]

/-- Entries without a zero are all read. -/
theorem parseEntries_full (hfull : k * lfnChars ≤ name.length) :
    parseEntries checksum buf len k (lfnEntries name checksum k) =
      (fun i => if i < k * lfnChars then lfnUnit name i else buf i, max len (k * lfnChars), k) := by
  induction k generalizing buf len with
  | zero => simp [parseEntries]
  | succ k ih =>
    rw [Nat.succ_mul] at hfull ⊢
    have hk : k < lfnCount name := by
      unfold lfnCount lfnChars at *
      omega
    rw [lfnEntries_succ, parseEntries_lfnEntry hascii hlength hk]
    rw [if_neg (by omega), ih (by omega)]
    refine Prod.ext (funext fun i => ?_) (Prod.ext ?_ rfl) <;> dsimp only
    · split_ifs <;> first | rfl | omega
    · omega

/-- A name of one entry, or one that fills its entries, is read to its end. -/
theorem parseEntries_all (hwhole : name.length ≤ lfnChars ∨ lfnChars ∣ name.length) :
    ∃ buf', parseEntries checksum buf 0 (lfnCount name) (lfnEntries name checksum (lfnCount name)) =
      (buf', name.length, lfnCount name) ∧ ∀ i < name.length, buf' i = lfnUnit name i := by
  by_cases hfull : lfnCount name * lfnChars = name.length
  · rw [parseEntries_full hascii hlength hfull.le, hfull, Nat.zero_max]
    exact ⟨_, rfl, fun i hi => if_pos hi⟩
  have hone : lfnCount name = 1 ∧ name.length < 0 * lfnChars + lfnChars := by
    unfold lfnCount lfnChars at *
    omega
  rw [hone.1, lfnEntries_succ, parseEntries_lfnEntry hascii hlength (by omega)]
  exact ⟨_, if_pos hone.2, fun i hi => if_pos (by omega)⟩

end

theorem parseLfn_lfnEntries (hcnt : lfnCount name < 64) (hpos : 0 < lfnCount name) :
    let ds := lfnEntries name checksum (lfnCount name)
    let r := parseEntries checksum buf 0 (lfnCount name) ds
    parseLfn buf ds = if r.2.2 = 0 ∨ ∃ d ∈ ds[r.2.2]?, lfnChecksum (rawName d) ≠ checksum then none
      else some (r.2.2, unitString r.1 (min r.2.1 nameMax)) := by
  obtain ⟨k, hk⟩ : ∃ k, lfnCount name = k + 1 := Nat.exists_eq_succ_of_ne_zero hpos.ne'
  rw [hk] at hcnt ⊢
  dsimp only
  rw [lfnEntries_succ, lfnEntry, parseLfn, lfnOrder_lfnEntry hcnt]

theorem unitString_of_zero (hzero : buf 0 = 0) (len : Nat) : unitString buf len = [] := by
  cases len with
  | zero => rfl
  | succ len => simp [unitString, range_succ_eq_map, hzero]

/-- The units of the name read as a string. -/
theorem unitString_name (hascii : IsAscii name)
    (hunits : ∀ i < name.length, buf i = lfnUnit name i) : unitString buf name.length = name := by
  have hname : (range name.length).map buf = name := by
    apply ext_getElem
    · rw [length_map, length_range]
    · intro i hi hi'
      rw [getElem_map, getElem_range, hunits i hi', lfnUnit_of_lt hi', getD_eq_getElem _ _ hi']
  rw [unitString, hname, takeWhile_eq_self_iff.mpr, map_congr_left, map_id] <;> intro c hc
  · exact if_pos (hascii c hc).2
  · have := hascii c hc
    exact decide_eq_true (by omega)

/-- **Long names.** The entries of a name are made within the buffer and give back the name, through
the callbacks and through `fat32_parse_lfn`, exactly for names of at most 247 characters that take
one entry or fill their entries. -/
theorem lfn_round_trip_iff (hascii : IsAscii name) (hne : name ≠ []) (hmax : name.length ≤ nameMax)
    (checksum : Nat) :
    (∃ ds, createLfn name checksum = some ds ∧
      (∀ buf, collect buf ds 0 ≠ 0 ∧ longString (collect buf ds) = name) ∧
      ∀ buf, ∃ n, parseLfn buf ds = some (n, name)) ↔
    name.length ≤ 247 ∧ (name.length ≤ lfnChars ∨ lfnChars ∣ name.length) := by
  have hpos : 0 < name.length := length_pos_of_ne_nil hne
  have hcount : 0 < lfnCount name ∧
      (name.length ≤ 247 ↔ ¬ lfnCount name * lfnChars > nameMax + 1) := by
    unfold lfnCount lfnChars nameMax at *
    omega
  have hcount64 : lfnCount name < 64 := by
    unfold lfnCount lfnChars nameMax at *
    omega
  constructor
  · rintro ⟨ds, hds, -, hparse⟩
    obtain ⟨hfits, ⟨⟩⟩ := Option.ite_none_left_eq_some.mp hds
    have hlength := hcount.2.mpr hfits
    by_contra hnot
    -- The reading stops in the first of several entries, and the rest of the buffer is as it was.
    obtain ⟨k, hk⟩ : ∃ k, lfnCount name = k + 2 :=
      ⟨lfnCount name - 2, by unfold lfnCount lfnChars at *; omega⟩
    have hshort : name.length < (k + 1) * lfnChars + lfnChars := by
      unfold lfnCount lfnChars at *
      omega
    obtain ⟨buf, hread, hzero⟩ : ∃ buf, parseEntries checksum (fun _ => 0) 0 (lfnCount name)
        (lfnEntries name checksum (lfnCount name)) = (buf, name.length, 1) ∧ buf 0 = 0 := by
      rw [hk, lfnEntries_succ, parseEntries_lfnEntry hascii hlength (by omega)]
      exact ⟨_, if_pos hshort, if_neg (by unfold lfnChars; omega)⟩
    obtain ⟨n, hn⟩ := hparse fun _ => 0
    rw [← lfnEntries, parseLfn_lfnEntries hcount64 hcount.1, hread] at hn
    obtain ⟨-, heq⟩ := Option.ite_none_left_eq_some.mp hn
    obtain ⟨-, hname⟩ := Prod.mk.inj (Option.some.inj heq)
    exact hne (hname.symm.trans (unitString_of_zero hzero _))
  rintro ⟨hlength, hwhole⟩
  have hfits := hcount.2.mp hlength
  have hmade : createLfn name checksum = some (lfnEntries name checksum (lfnCount name)) :=
    if_neg hfits
  refine ⟨_, hmade, collect_lfnEntries hascii hne hmade, fun buf => ⟨lfnCount name, ?_⟩⟩
  obtain ⟨buf', hread, hunits⟩ := parseEntries_all hascii hlength hwhole
  rw [parseLfn_lfnEntries hcount64 hcount.1, hread, if_neg, Nat.min_eq_left hmax,
    unitString_name hascii hunits]
  simp [lfnEntries, hcount.1.ne']

/-- A name of 13 characters is read back. -/
theorem lfn_round_trip_one_entry :
    ∃ ds, createLfn (replicate 13 97) 0 = some ds ∧
      (∀ buf, collect buf ds 0 ≠ 0 ∧ longString (collect buf ds) = replicate 13 97) ∧
      ∀ buf, ∃ n, parseLfn buf ds = some (n, replicate 13 97) :=
  (lfn_round_trip_iff (by decide) (by decide) (by decide) 0).mpr (by decide)

/-- A name of 14 characters is lost: the second entry is taken for the short one. A name of 248
characters overflows the buffer of the encoder. -/
theorem lfn_lost :
    (∃ ds, createLfn (replicate 14 97) 0 = some ds ∧ parseLfn (fun _ => 0) ds = none) ∧
    createLfn (replicate 248 97) 0 = none := by
  decide +kernel

end Kurios.Fat32
