import Kurios.Fat32.Entries

/-!
Names of FAT32 entries read back.

The entries of a long name give back the name (`collect_lfnEntries`), and a short name that
loses nothing is the name, up to the case of its letters (`shortToName_generate`).
-/

namespace Kurios.Fat32

open List

variable {i n : Nat} {cs : List Nat} {name : List Nat}

/-! ### Long names -/

/-- Characters of a name that can be stored: ASCII, and no zero. -/
def IsAscii (name : List Nat) : Prop := ∀ c ∈ name, 0 < c ∧ c < 128
deriving Decidable

/-- The buffer holds the characters of a name from index `from'` on. -/
def holds (name : List Nat) (from' i : Nat) : Nat :=
  if from' ≤ i ∧ i < name.length then name.getD i 0 else 0

theorem lfnUnit_of_lt (h : i < name.length) : lfnUnit name i = name.getD i 0 := if_pos h

theorem map_lfnUnit (name : List Nat) (pos : Nat) :
    (range n).map (fun j => lfnUnit name (pos + j)) = (range' pos n).map (lfnUnit name) := by
  rw [range'_eq_map_range, map_map]
  rfl

theorem getD_ascii (h : IsAscii name) (hi : i < name.length) :
    0 < name.getD i 0 ∧ name.getD i 0 < 128 := by
  rw [getD_eq_getElem _ _ hi]
  exact h _ (getElem_mem hi)

/-- What the characters of one entry do to the buffer. -/
theorem putChars_lfnUnit (hascii : IsAscii name) (hlen : name.length ≤ nameMax) (buf : LongName)
    (pos n i : Nat) :
    putChars buf pos ((range' pos n).map (lfnUnit name)) i =
      if pos ≤ i ∧ i < pos + n ∧ i < name.length then name.getD i 0 else buf i := by
  induction n generalizing pos buf with
  | zero =>
    rw [range'_zero, map_nil, putChars, if_neg]
    omega
  | succ n ih =>
    rw [range'_succ, map_cons, putChars]
    by_cases hpos : pos < name.length
    · obtain ⟨hne, hlow⟩ := getD_ascii hascii hpos
      rw [lfnUnit_of_lt hpos, if_pos ⟨by omega, by omega, by omega⟩, if_pos hlow, ih]
      by_cases hi : i = pos
      · subst hi
        rw [if_neg (by omega), Function.update_self, if_pos ⟨by omega, by omega, hpos⟩]
      · rw [Function.update_of_ne hi]
        refine if_congr ?_ rfl rfl
        omega
    -- A zero or padding ends the entry.
    rw [if_neg, if_neg]
    · omega
    rintro ⟨-, hzero, hpad⟩
    unfold lfnUnit at hzero hpad
    rw [if_neg hpos] at hzero hpad
    split at hzero
    · exact hzero rfl
    · rename_i hne
      rw [if_neg hne] at hpad
      exact hpad rfl

/-- The buffer after the entries of a list. -/
def collect (buf : LongName) (entries : List Dirent) : LongName :=
  entries.foldl (fun buf d => match d with
    | .long order _ chars => addLong buf order chars
    | .short .. => buf) buf

theorem collect_append (buf : LongName) (ds ds' : List Dirent) :
    collect buf (ds ++ ds') = collect (collect buf ds) ds' := foldl_append

section

variable (hascii : IsAscii name)
include hascii

/-- One entry of a long name. -/
theorem collect_lfnEntry (hlen : name.length ≤ nameMax) (buf : LongName) (checksum : Nat) {order}
    (hpos : 0 < order) (hle : order ≤ lfnCount name) (hcnt : lfnCount name < lfnLast) (i : Nat) :
    collect buf [lfnEntry name checksum order] i =
      if (order - 1) * lfnChars ≤ i ∧ i < (order - 1) * lfnChars + lfnChars ∧ i < name.length then
        name.getD i 0 else if order = lfnCount name then 0 else buf i := by
  have hlow : ∀ n < 64, n.testBit 6 = false := by decide
  have hhigh : ∀ n < 64, (n + 64).testBit 6 = true := by decide
  have hlt : order < 64 := lt_of_le_of_lt hle hcnt
  simp only [collect, foldl_cons, foldl_nil, lfnEntry, addLong, map_lfnUnit]
  by_cases hlast : order = lfnCount name
  · rw [if_pos hlast, lfnLast, hhigh order hlt]
    simp only [if_true, Nat.add_sub_cancel]
    rw [if_neg (by omega), putChars_lfnUnit hascii hlen, if_pos hlast]
  · rw [if_neg hlast, hlow order hlt]
    simp only [Bool.false_eq_true, if_false]
    rw [if_neg (by omega), putChars_lfnUnit hascii hlen, if_neg hlast]

/-- The entries of a long name down to number `k + 1` fill the buffer from `13 k` on. -/
theorem collect_lfnEntries_from (hlen : name.length ≤ nameMax) (buf : LongName) (checksum : Nat)
    (hcnt : lfnCount name < lfnLast) (hpos : 0 < n) (hn : n ≤ lfnCount name) :
    collect buf ((range n).map fun i => lfnEntry name checksum (lfnCount name - i)) =
      holds name ((lfnCount name - n) * lfnChars) := by
  have hcover : name.length ≤ lfnCount name * lfnChars := by
    unfold lfnCount lfnChars
    omega
  induction n with
  | zero => exact absurd hpos (lt_irrefl 0)
  | succ n ih =>
    rw [range_succ, map_append, collect_append]
    funext i
    rw [map_singleton, collect_lfnEntry hascii hlen _ checksum (by omega) (by omega) hcnt, holds]
    have hmul : (lfnCount name - n) * lfnChars =
        (lfnCount name - (n + 1)) * lfnChars + lfnChars := by
      rw [← Nat.succ_mul]
      congr 1
      omega
    have hpred : lfnCount name - n - 1 = lfnCount name - (n + 1) := by omega
    rw [hpred]
    cases n with
    | zero =>
      -- The first entry clears the buffer.
      rw [if_pos (Nat.sub_zero _)]
      refine if_congr ?_ rfl rfl
      rw [Nat.sub_zero] at hmul
      omega
    | succ n =>
      have hnot : ¬ lfnCount name - (n + 1) = lfnCount name := by omega
      rw [if_neg hnot, ih (Nat.succ_pos n) (by omega), holds, hmul]
      generalize (lfnCount name - (n + 1 + 1)) * lfnChars = k
      by_cases hk : k ≤ i ∧ i < k + lfnChars ∧ i < name.length
      · rw [if_pos hk, if_pos ⟨hk.1, hk.2.2⟩]
      · rw [if_neg hk]
        refine if_congr ?_ rfl rfl
        omega

theorem longString_holds (hlen : name.length ≤ nameMax) : longString (holds name 0) = name := by
  have hmap : (range (nameMax + 1)).map (holds name 0) =
      name ++ replicate (nameMax + 1 - name.length) 0 := by
    apply ext_getElem
    · rw [length_map, length_range, length_append, length_replicate]
      omega
    intro i hi hi'
    rw [getElem_map, getElem_range, holds, getElem_append]
    split
    case isTrue hcond => rw [dif_pos hcond.2, getD_eq_getElem _ _ hcond.2]
    case isFalse hcond => rw [dif_neg (by omega), getElem_replicate]
  have hall : name.takeWhile (fun c => decide (c ≠ 0)) = name := by
    rw [takeWhile_eq_self_iff]
    intro c hc
    have := (hascii c hc).1
    exact decide_eq_true (by omega)
  rw [longString, hmap, takeWhile_append, hall, if_pos rfl]
  have hnil : (replicate (nameMax + 1 - name.length) 0).takeWhile (fun c => decide (c ≠ 0)) =
      [] := by
    cases nameMax + 1 - name.length with
    | zero => rfl
    | succ n => rfl
  rw [hnil, append_nil]

/-- The entries of a long name give back the name. -/
theorem collect_lfnEntries (hne : name ≠ []) {checksum ds} (hds : createLfn name checksum = some ds)
    (buf : LongName) : collect buf ds 0 ≠ 0 ∧ longString (collect buf ds) = name := by
  unfold createLfn at hds
  split at hds
  · cases hds
  case isFalse hfits =>
  cases hds
  have hpos : 0 < name.length := length_pos_of_ne_nil hne
  have hcnt : lfnCount name < lfnLast := by
    unfold lfnChars nameMax at hfits
    unfold lfnLast
    omega
  have hcover : name.length ≤ lfnCount name * lfnChars ∧ 0 < lfnCount name := by
    unfold lfnCount lfnChars
    omega
  have hlen : name.length ≤ nameMax := by
    unfold lfnCount lfnChars nameMax at *
    omega
  rw [collect_lfnEntries_from hascii hlen buf checksum hcnt hcover.2 le_rfl,
    Nat.sub_self, Nat.zero_mul]
  refine ⟨?_, longString_holds hascii hlen⟩
  rw [holds, if_pos ⟨le_refl 0, hpos⟩]
  have := (getD_ascii hascii hpos).1
  omega

end

/-! ### Short names -/

theorem toLower_toLower_toUpper (c : Nat) : toLower (toLower (toUpper c)) = toLower c := by
  unfold toLower toUpper
  split_ifs <;> omega

/-- A base name that keeps all characters. -/
theorem baseChars_of_lossless {room} (hlen : cs.length ≤ room) (h : (baseChars room cs).2 = false) :
    (baseChars room cs).1 = cs.map toUpper ∧ ∀ c ∈ cs, ShortCode (toUpper c) := by
  induction cs generalizing room with
  | nil => cases room <;> exact ⟨rfl, fun c hc => by cases hc⟩
  | cons c cs ih =>
    cases room with
    | zero => exact absurd hlen (Nat.not_succ_le_zero _)
    | succ room =>
      rw [baseChars] at h ⊢
      split at h
      · cases h
      case isFalse hc =>
      rw [if_neg hc]
      obtain ⟨hkept, hrest⟩ := Bool.or_eq_false_iff.mp h
      obtain ⟨heq, hall⟩ := ih (Nat.le_of_succ_le_succ hlen) hrest
      have hchar : (shortChar c).1 = toUpper c := by
        unfold shortChar at hkept ⊢
        split at hkept
        · cases hkept
        · rename_i hval
          rw [if_neg hval]
      refine ⟨by rw [hchar, heq]; rfl, fun d hd => ?_⟩
      rcases mem_cons.mp hd with rfl | hd
      · rw [← hchar]
        exact shortChar_shortCode hc
      · exact hall d hd

theorem extChar_of_lossless {c} (h : (extChar c).2 = false) :
    (extChar c).1 = toUpper c ∧ ShortCode (toUpper c) := by
  unfold extChar at h ⊢
  split at h
  · cases h
  case isFalse hc =>
  rw [if_neg hc]
  obtain ⟨hval, hspace, hdot⟩ := not_or.mp hc |>.imp_right not_or.mp
  simp only [isInvalid, decide_eq_true_eq, not_or] at hval
  exact ⟨rfl, by omega, by omega, hdot⟩

/-- A padded field read up to its first space. -/
theorem field_pad (h : ∀ c ∈ cs, ShortCode c) : field (pad n cs) = cs := by
  have hall : cs.takeWhile (fun c => decide (c ≠ 32)) = cs := by
    rw [takeWhile_eq_self_iff]
    intro c hc
    have := (h c hc).1
    exact decide_eq_true (by omega)
  have hnil : (replicate (n - cs.length) 32).takeWhile (fun c => decide (c ≠ 32)) = [] := by
    cases n - cs.length with
    | zero => rfl
    | succ n => rfl
  rw [field, pad, takeWhile_append, hall, if_pos rfl, hnil, append_nil]

theorem length_pad (h : cs.length ≤ n) : (pad n cs).length = n := by
  rw [pad, length_append, length_replicate]
  omega

/-- A short name of a base and an extension. -/
theorem shortToName_pad {stem ext} (hne : stem ≠ []) (hstem : ∀ c ∈ stem, ShortCode c)
    (hext : ∀ c ∈ ext, ShortCode c) (hstem8 : stem.length ≤ 8) (hext3 : ext.length ≤ 3) :
    shortToName (pad 8 stem ++ pad 3 ext) =
      (if ext = [] then stem else stem ++ 46 :: ext).map toLower := by
  have htake : (pad 8 stem ++ pad 3 ext).take 8 = pad 8 stem := by
    rw [take_append_of_le_length (le_of_eq (length_pad hstem8).symm),
      take_of_length_le (le_of_eq (length_pad hstem8))]
  have hdrop : ((pad 8 stem ++ pad 3 ext).drop 8).take 3 = pad 3 ext := by
    rw [drop_append_of_le_length (le_of_eq (length_pad hstem8).symm),
      drop_of_length_le (le_of_eq (length_pad hstem8)), nil_append,
      take_of_length_le (le_of_eq (length_pad hext3))]
  have hhead : (pad 8 stem ++ pad 3 ext).headD 0 ≠ direntKanji := by
    cases stem with
    | nil => exact absurd rfl hne
    | cons c stem =>
      have := (hstem c mem_cons_self).1
      simp only [pad, cons_append, headD_cons, direntKanji]
      omega
  have hzero : ∀ cs : List Nat, (∀ c ∈ cs, c ≠ 0) →
      cs.takeWhile (fun c => decide (c ≠ 0)) = cs := by
    intro cs hcs
    rw [takeWhile_eq_self_iff]
    exact fun c hc => decide_eq_true (hcs c hc)
  have hne0 : ∀ {cs : List Nat}, (∀ c ∈ cs, ShortCode c) → ∀ c ∈ cs, c ≠ 0 := by
    intro cs hcs c hc
    have := (hcs c hc).1
    omega
  unfold shortToName
  simp only [htake, hdrop]
  rw [if_neg hhead, field_pad hstem, field_pad hext]
  cases ext with
  | nil => rw [if_neg (by decide), if_pos rfl, hzero stem (hne0 hstem)]
  | cons c ext =>
    have hc := (hext c mem_cons_self).1
    have hspace : (pad 3 (c :: ext)).headD 32 ≠ 32 := by
      simp only [pad, cons_append, headD_cons]
      omega
    rw [if_pos hspace, if_neg (cons_ne_nil c ext), hzero]
    intro d hd
    rcases mem_append.mp hd with hd | hd
    · exact hne0 hstem d hd
    · rcases mem_cons.mp hd with rfl | hd
      · decide
      · exact hne0 hext d hd

/-- The parts before and after the last dot. -/
theorem splitExt_spec (name : List Nat) : (splitExt name = (name, none)) ∨
      ∃ stem ext, splitExt name = (stem, some ext) ∧ name = stem ++ 46 :: ext := by
  unfold splitExt
  split
  case isFalse => exact .inl rfl
  case isTrue hdot =>
  refine .inr ⟨_, _, rfl, ?_⟩
  -- The last dot ends the characters that are taken from behind.
  have hsplit := takeWhile_append_dropWhile (p := fun c => decide (c ≠ 46)) (l := name.reverse)
  set ext := name.reverse.takeWhile fun c => decide (c ≠ 46) with hext
  cases hrest : name.reverse.dropWhile fun c => decide (c ≠ 46) with
  | nil =>
    rw [dropWhile_eq_nil_iff] at hrest
    exact absurd rfl (of_decide_eq_true (hrest 46 (mem_reverse.mpr hdot)))
  | cons c rest =>
    have hc : c = 46 := by
      have hhead := head_dropWhile_not (fun c => decide (c ≠ 46)) (l := name.reverse)
      simp only [hrest, head_cons] at hhead
      simpa using hhead
    rw [hrest, hc] at hsplit
    have hname : name = rest.reverse ++ 46 :: ext.reverse := by
      rw [← reverse_inj, ← hsplit]
      simp
    have hlen : name.length - ext.length - 1 = rest.reverse.length := by
      rw [hname]
      simp only [length_append, length_cons, length_reverse]
      omega
    rw [hlen]
    nth_rewrite 1 [hname]
    nth_rewrite 1 [hname]
    rw [take_left']
    rfl

theorem map_toLower_toUpper (cs : List Nat) :
    ((cs.map toUpper).map toLower).map toLower = cs.map toLower := by
  rw [map_map, map_map]
  exact map_congr_left fun c _ => toLower_toLower_toUpper c

/-- A short name that loses nothing is the name, up to case, unless the name ends in a dot. -/
theorem shortToName_generate (hlossless : (generateShortName name 0).2 = false)
    (hdot : name.getLast? ≠ some 46) :
    SameName (shortToName (generateShortName name 0).1) name := by
  -- What a short name without loss says about the two parts of the name.
  have hparts : ∀ stem ext, splitExt name = (stem, ext) →
      (generateShortName name 0).1 = pad 8 (stem.map toUpper) ++ pad 3 ((ext.getD []).map toUpper) ∧
      stem ≠ [] ∧ stem.length ≤ 8 ∧ (ext.getD []).length ≤ 3 ∧
      (∀ c ∈ stem.map toUpper, ShortCode c) ∧ ∀ c ∈ (ext.getD []).map toUpper, ShortCode c := by
    intro stem ext hsplit
    simp only [generateShortName, hsplit, lt_irrefl, false_and, if_false, Bool.or_eq_false_iff,
      decide_eq_false_iff_not] at hlossless ⊢
    obtain ⟨⟨⟨⟨hskipped, hchars⟩, hstem⟩, hext⟩, hext3⟩ := hlossless
    have hstem8 : stem.length ≤ 8 := by omega
    have hext3 : (ext.getD []).length ≤ 3 := by omega
    obtain ⟨hbase, hcodes⟩ := baseChars_of_lossless hstem8 hskipped
    have htake := take_of_length_le hext3
    have hextchars : ∀ c ∈ ext.getD [], (extChar c).1 = toUpper c ∧ ShortCode (toUpper c) := by
      intro c hc
      refine extChar_of_lossless ?_
      rw [htake, any_eq_false] at hext
      simpa using hext c hc
    rw [if_neg hchars, hbase, htake]
    refine ⟨?_, ?_, hstem8, hext3, ?_, ?_⟩
    · rw [map_congr_left fun c hc => (hextchars c hc).1]
    · rintro rfl
      exact hchars rfl
    · intro c hc
      obtain ⟨d, hd, rfl⟩ := mem_map.mp hc
      exact hcodes d hd
    · intro c hc
      obtain ⟨d, hd, rfl⟩ := mem_map.mp hc
      exact (hextchars d hd).2
  obtain hsplit | ⟨stem, ext, hsplit, hname⟩ := splitExt_spec name
  · obtain ⟨heq, hne, hlen, -, hstem, hext⟩ := hparts name none hsplit
    rw [SameName, heq, shortToName_pad (by simpa using hne) hstem hext (by simpa using hlen)
      (by simp), Option.getD_none, map_nil, if_pos rfl, map_toLower_toUpper]
  obtain ⟨heq, hne, hlen, hlength3, hstem, hext⟩ := hparts stem (some ext) hsplit
  have hext' : ext ≠ [] := by
    rintro rfl
    rw [hname, getLast?_append] at hdot
    exact hdot rfl
  rw [SameName, heq, shortToName_pad (by simpa using hne) hstem hext (by simpa using hlen)
    (by simpa using hlength3), Option.getD_some, if_neg (by simpa using hext')]
  conv_rhs => rw [hname]
  simp only [map_append, map_cons, map_toLower_toUpper]
  rfl

end Kurios.Fat32
