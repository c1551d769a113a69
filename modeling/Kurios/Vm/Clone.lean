import Kurios.Vm.Destroy

/-!
`as_clone`.

The copy walks the tables of the source page by page, in key order. `Cloning` says what
has happened when the pages below a cursor are done: the new address space shares their
frames, each with one reference more, and no shared page is writable any more. A failed
allocation stops the walk at some cursor, and tearing the half-made copy down again
takes exactly the new references back.
-/

namespace Kurios.Vm

open Base Pmm Function Finset Option Bool

variable {s : VmState} {t l dst w v n : Nat}

/-! ### Shared entries -/

/-- The flags of a page that is shared copy-on-write. -/
def cowFlags (entry : Word) : Word := (entry &&& ~~~pteAddrMask &&& ~~~pteWritable) ||| pteCow

/-- Its entry in the source. -/
def cowEntry (entry : Word) : Word := (physWord (pteFrame entry) &&& pteAddrMask) ||| cowFlags entry

theorem has_writable_cowFlags (entry : Word) : has (cowFlags entry) pteWritable = false := by
  rw [cowFlags, has_or, has_and_zero (by decide),
    show has pteCow pteWritable = false from by decide, Bool.or_false]

theorem pteFrame_cowEntry (entry : Word) : pteFrame (cowEntry entry) = pteFrame entry := by
  rw [cowEntry, cowFlags, ← BitVec.or_assoc, pteFrame_or (by decide),
    pteFrame_or (flags_and_mask ..), pteFrame_and_mask, pteFrame_physWord (pteFrame_lt entry)]

/-- A mapped page is writable if its flags are. -/
theorem has_writable_mapEntry (f : Nat) (flags : Word) :
    has (mapEntry f flags) pteWritable = has flags pteWritable := by
  rw [mapEntry, has_or, has_or, has_and_zero (by decide), has_and (by decide),
    show has ptePresent pteWritable = false from by decide, Bool.or_false, Bool.false_or]

theorem has_writable_flags (entry : Word) :
    has (entry &&& ~~~pteAddrMask) pteWritable = has entry pteWritable :=
  has_and (by decide)

/-! ### One page -/

/-- Page `v` of `src` was shared with `dst`; `shared` says whether that succeeded. -/
structure PageCloned (src dst v : Nat) (shared : Bool) (s : VmState) (A : Arena) (L : Ledger)
    (V : View) (s' : VmState) (A' : Arena) (L' : Ledger) (V' : View) : Prop extends
    Kept s A L V s' A' L' V' where
  node : ∀ b l n, b ≠ dst → V'.tables.node b l n = V.tables.node b l n
  frames : frameAt s' V' = if shared then
    update (frameAt s V) (dst, v) (frameAt s V (src, v)) else frameAt s V
  refs : ∀ f, L'.refs f = L.refs f +
    if shared ∧ frameAt s V (src, v) = some f then 1 else 0
  writable : ∀ k e, leaf s' V' k = some e → has e pteWritable = true →
    leaf s V k = some e ∧ (shared = true → k ≠ (src, v) ∧ k ≠ (dst, v))
  untouched : ∀ k, k ≠ (src, v) → k ≠ (dst, v) → leaf s' V' k = leaf s V k

theorem pageOf_mul (v : Nat) : pageOf (v * pageSize) = v := Nat.mul_div_cancel v (by decide)

namespace Mapped

variable {s : VmState} {A : Arena} {L : Ledger} {V : View} {src dst v t : Nat}

/-- The source half of sharing a page: its frame gets a reference, and the page loses
its write permission. -/
theorem shareSource (h : Mapped s A L V) (dst : Nat) {e}
    (ht : V.tables.node src 0 (v / 512) = some t) (hleaf : leaf s V (src, v) = some e)
    (hmem : s.mem t (v % 512) = e) (hlt : L.refs (pteFrame e) < 2 ^ 32 - 1) :
    ∃ s' flags e', Kept s A L V s' A (L.setRefs (pteFrame e) (L.refs (pteFrame e) + 1)) V ∧
      leaf s' V = update (leaf s V) (src, v) (some e') ∧ pteFrame e' = pteFrame e ∧
      has e' pteWritable = false ∧ has flags pteWritable = false ∧
      Vm.clonePage dst v t (v % 512) s =
        match asMapPage s' dst (v * pageSize) (pteFrame e) flags with
        | (true, s) => (true, s)
        | (false, s) => (false, Vm.putFrame s (pteFrame e)) := by
  have hpres : has e ptePresent = true := by
    obtain ⟨u, -, -, hp⟩ := leaf_node hleaf
    exact hp
  have hget := h.getFrame (h.counted _ _ (frameAt_of_leaf hleaf)) hlt
  by_cases hw : has e pteWritable = true
  · have hcow : has (cowEntry e) ptePresent = true := by
      rw [cowEntry, has_or, has_and_zero (by decide), Bool.false_or, cowFlags, has_or,
        has_and (by decide), has_and (by decide), hpres, Bool.true_or]
    have hset := hget.mapped.setLeaf_kept (cowEntry e) ht fun _ => by
      rw [pteFrame_cowEntry, setRefs_self]
      omega
    refine ⟨(Vm.getFrame s (pteFrame e)).setEntry t (v % 512) (cowEntry e), cowFlags e, cowEntry e,
      hget.trans hset fun q => setRefs_pos L (Nat.succ_pos _), ?_, pteFrame_cowEntry e, ?_,
      has_writable_cowFlags e, ?_⟩
    · rw [hget.mapped.leaf_setLeaf ht, if_pos hcow]
      rfl
    · rw [cowEntry, has_or, has_and_zero (by decide), has_writable_cowFlags, Bool.or_false]
    · simp only [Vm.clonePage, hmem, hpres, Bool.not_true, Bool.false_eq_true, if_false,
        has_writable_flags, hw, if_true]
      rfl
  rw [not_eq_true] at hw
  refine ⟨Vm.getFrame s (pteFrame e), e &&& ~~~pteAddrMask, e, hget, ?_, rfl, hw,
    by rw [has_writable_flags, hw], ?_⟩
  · rw [← hleaf, update_eq_self]
    rfl
  · simp only [Vm.clonePage, hmem, hpres, Bool.not_true, Bool.false_eq_true, if_false]
    rw [has_writable_flags, hw]
    rfl

/-- The innermost body of `as_clone`. -/
theorem clonePage (h : Mapped s A L V) (hdst : dst ∈ V.live) (hv : v < userPages)
    (ht : V.tables.node src 0 (v / 512) = some t) (hnone : frameAt s V (dst, v) = none)
    (hlt : ∀ f, L.refs f < 2 ^ 32 - 1) :
    ∃ ok s' A' L' V', Vm.clonePage dst v t (v % 512) s = (ok, s') ∧
      PageCloned src dst v ok s A L V s' A' L' V' := by
  by_cases hpres : has (s.mem t (v % 512)) ptePresent = true
  swap
  · -- Nothing is mapped at the page, so nothing is shared.
    have hleaf : leaf s V (src, v) = none := by
      simp [leaf, ht, presentAt, if_neg hpres]
    have hframe : frameAt s V (src, v) = none := frameAt_of_leaf hleaf
    refine ⟨true, s, A, L, V, ?_, h.unchanged.toKept, fun _ _ _ _ => rfl, ?_, fun f => ?_,
      fun k e hk hw => ⟨hk, fun _ => ⟨?_, ?_⟩⟩, fun _ _ _ => rfl⟩
    · simp [Vm.clonePage, hpres]
    · rw [if_pos rfl, hframe, ← hnone, update_eq_self]
    · rw [hframe, if_neg (by simp), add_zero]
    · rintro rfl
      cases hleaf.symm.trans hk
    · rintro rfl
      cases hnone.symm.trans (frameAt_of_leaf hk)
  have hleaf : leaf s V (src, v) = some (s.mem t (v % 512)) := by
    simp [leaf, ht, presentAt, if_pos hpres]
  set e := s.mem t (v % 512) with he
  have hframe : frameAt s V (src, v) = some (pteFrame e) := frameAt_of_leaf hleaf
  have hf := h.counted _ _ hframe
  obtain ⟨s1, flags, e', hkept, hleaf1, hframe', hw', hflags, hclone⟩ :=
    h.shareSource dst ht hleaf he.symm (hlt _)
  set L1 := L.setRefs (pteFrame e) (L.refs (pteFrame e) + 1) with hL1
  have hpos : ∀ q, 0 < L.refs q → 0 < L1.refs q := fun q => setRefs_pos L (Nat.succ_pos _)
  have hfrs : frameAt s1 V = frameAt s V := by
    rw [frameAt_update hleaf1, map_some, hframe', ← hframe, update_eq_self]
  -- A leaf that is writable after the source half was so before, and is not the page.
  have hwritable : ∀ k e1, leaf s1 V k = some e1 → has e1 pteWritable = true →
      leaf s V k = some e1 ∧ k ≠ (src, v) := by
    intro k e1 hk hw
    have hkey : k ≠ (src, v) := by
      rintro rfl
      rw [hleaf1, update_self] at hk
      cases hk
      rw [hw'] at hw
      cases hw
    rw [hleaf1, update_of_ne hkey] at hk
    exact ⟨hk, hkey⟩
  have hpage : pageOf (v * pageSize) < userPages := by rwa [pageOf_mul]
  obtain ⟨ok, s2, A2, L2, V2, hmap, -, hnode, hpl⟩ :=
    hkept.mapped.placed hdst hpage (hpos _ hf) flags
  have hkept2 := hkept.trans hpl.toKept hpos
  rw [hmap] at hclone
  cases ok with
  | false =>
    -- No memory for a table: the reference is given back.
    have hleaf2 : leaf s2 V2 = leaf s1 V := hpl.leaf
    have hf2 : L2.refs (pteFrame e) = L.refs (pteFrame e) + 1 := by
      rw [hpl.refs, hL1, setRefs_self]
    obtain ⟨A3, hput⟩ := hpl.mapped.putFrame (f := pteFrame e) (by omega) fun _ _ => by omega
    refine ⟨false, _, A3, _, V2, hclone, hkept2.trans hput (hpl.refs ▸ hpos),
      hnode, ?_, fun q => ?_, fun k e1 hk hw => ?_, fun k hks _ => ?_⟩
    · exact (frameAt_congr hleaf2).trans hfrs
    · rw [if_neg (by simp), add_zero]
      by_cases hq : q = pteFrame e
      · rw [hq, setRefs_self, hf2, Nat.add_sub_cancel]
      · rw [setRefs_of_ne _ hq, hpl.refs, hL1, setRefs_of_ne L hq]
    · exact ⟨(hwritable k e1 (hleaf2 ▸ hk) hw).1, fun hc => by cases hc⟩
    · exact (congrFun hleaf2 k).trans (by rw [hleaf1, update_of_ne hks])
  | true =>
    have hleaf2 := hpl.leaf
    rw [pageOf_mul] at hleaf2
    have hent := pteFrame_mapEntry flags (pteFrame_lt e)
    refine ⟨true, s2, A2, L2, V2, hclone, hkept2, hnode, ?_, fun q => ?_, fun k e1 hk hw => ?_,
      fun k hks hkd => ?_⟩
    · rw [frameAt_update hleaf2, map_some, hent, hfrs, hframe]
      rfl
    · rw [hpl.refs, hframe]
      by_cases hq : q = pteFrame e
      · rw [hq, hL1, setRefs_self, if_pos ⟨rfl, rfl⟩]
      · rw [hL1, setRefs_of_ne L hq, if_neg fun hc => hq (some.inj hc.2).symm, add_zero]
    · rw [hleaf2] at hk
      have hkey : k ≠ (dst, v) := by
        rintro rfl
        cases (update_self _ _ _).symm.trans hk
        rw [has_writable_mapEntry, hflags] at hw
        cases hw
      obtain ⟨hold, hsrc⟩ := hwritable k e1 ((update_of_ne hkey _ _).symm.trans hk) hw
      exact ⟨hold, fun _ => ⟨hsrc, hkey⟩⟩
    · rw [hleaf2]
      exact (update_of_ne hkd _ _).trans (by rw [hleaf1, update_of_ne hks])

end Mapped

/-! ### The walk -/

/-- From `s0` on, the pages of `src` below `v` were shared with `dst`. -/
structure Cloning (src dst v : Nat) (s0 : VmState) (A0 : Arena) (L0 : Ledger) (V0 : View)
    (s : VmState) (A : Arena) (L : Ledger) (V : View) : Prop extends Kept s0 A0 L0 V0 s A L V where
  node : ∀ b l n, b ≠ dst → V.tables.node b l n = V0.tables.node b l n
  frames : ∀ k, frameAt s V k = if k.1 = dst then
    (if k.2 < v then frameAt s0 V0 (src, k.2) else none) else frameAt s0 V0 k
  refs : ∀ f, L.refs f = L0.refs f + hits ({src} ×ˢ range v) (frameAt s0 V0) f
  writable : ∀ k e, leaf s V k = some e → has e pteWritable = true →
    leaf s0 V0 k = some e ∧ k.1 ≠ dst ∧ (k.1 = src → v ≤ k.2)
  untouched : ∀ k, k.1 ≠ src → k.1 ≠ dst → leaf s V k = leaf s0 V0 k

section Walk

variable {src dst : Nat} {s0 : VmState} {A0 : Arena} {L0 : Ledger} {V0 : View}

/-- The state with some arena, ledger and view. -/
def ClonedTo (src dst : Nat) (s0 : VmState) (A0 : Arena) (L0 : Ledger) (V0 : View) (v : Nat)
    (s : VmState) : Prop :=
  ∃ A L V, Cloning src dst v s0 A0 L0 V0 s A L V

/-- The next page joins the count. -/
theorem hits_range_succ (s : VmState) (V : View) (a v f : Nat) :
    hits ({a} ×ˢ range (v + 1)) (frameAt s V) f =
      hits ({a} ×ˢ range v) (frameAt s V) f + if frameAt s V (a, v) = some f then 1 else 0 := by
  have hsplit : ({a} : Finset Nat) ×ˢ range (v + 1) = {a} ×ˢ range v ∪ {(a, v)} := by
    ext ⟨b, u⟩
    simp only [mem_product, mem_union, mem_singleton, mem_range, Prod.mk.injEq]
    omega
  have hdisj : Disjoint (({a} : Finset Nat) ×ˢ range v) {(a, v)} := by
    rw [disjoint_singleton_right, mem_product, mem_range]
    omega
  rw [hsplit, hits_union hdisj, hits, hits, filter_singleton]
  split
  all_goals rfl

/-- Pages without a frame are passed over. -/
theorem ClonedTo.skip (h : ClonedTo src dst s0 A0 L0 V0 v s) (hle : v ≤ w)
    (hnone : ∀ u, v ≤ u → u < w → frameAt s0 V0 (src, u) = none) :
    ClonedTo src dst s0 A0 L0 V0 w s := by
  obtain ⟨A, L, V, hc⟩ := h
  refine ⟨A, L, V, hc.toKept, hc.node, fun k => ?_, fun f => ?_, fun k e hk hw => ?_, hc.untouched⟩
  · rw [hc.frames k]
    by_cases hkd : k.1 = dst
    · rw [if_pos hkd, if_pos hkd]
      by_cases hkv : k.2 < v
      · rw [if_pos hkv, if_pos (by omega)]
      rw [if_neg hkv]
      split
      · next hkw => rw [hnone k.2 (by omega) hkw]
      · rfl
    · rw [if_neg hkd, if_neg hkd]
  · rw [hc.refs f]
    congr 1
    symm
    refine hits_of_subset (product_subset_product_right (range_mono hle)) ?_
    rintro ⟨b, u⟩ hk hnot
    simp only [mem_product, mem_singleton, mem_range] at hk hnot
    obtain ⟨rfl, hu⟩ := hk
    rw [hnone u (by omega) hu]
    simp
  obtain ⟨hold, hkd, hks⟩ := hc.writable k e hk hw
  refine ⟨hold, hkd, fun hsrc => ?_⟩
  by_contra hlt
  have hu := hnone k.2 (hks hsrc) (by omega)
  rw [← hsrc] at hu
  cases hu.symm.trans (frameAt_of_leaf hold)

/-- Sharing the page at the cursor. -/
theorem ClonedTo.page (h : ClonedTo src dst s0 A0 L0 V0 v s) (hne : src ≠ dst)
    (hdst : dst ∈ V0.live) (hv : v < userPages) (ht : V0.tables.node src 0 (v / 512) = some t)
    (hroom : ∀ f, L0.refs f + hits ({src} ×ˢ range v) (frameAt s0 V0) f < 2 ^ 32 - 1) :
    (∃ s', clonePage dst v t (v % 512) s = (true, s') ∧ ClonedTo src dst s0 A0 L0 V0 (v + 1) s') ∨
      ∃ s', clonePage dst v t (v % 512) s = (false, s') ∧ ClonedTo src dst s0 A0 L0 V0 v s' := by
  obtain ⟨A, L, V, hc⟩ := h
  have hnone : frameAt s V (dst, v) = none := by
    rw [hc.frames, if_pos rfl, if_neg (lt_irrefl v)]
  have hsrc : frameAt s V (src, v) = frameAt s0 V0 (src, v) := by
    rw [hc.frames, if_neg hne]
  obtain ⟨ok, s', A', L', V', heq, hpage⟩ := hc.mapped.clonePage (hc.live ▸ hdst) hv
    ((hc.node _ _ _ hne).trans ht) hnone fun f => by rw [hc.refs f]; exact hroom f
  have hkept := hc.toKept.trans hpage.toKept fun f hf => by rw [hc.refs f]; omega
  have hnode : ∀ b l n, b ≠ dst → V'.tables.node b l n = V0.tables.node b l n := fun b l n hb =>
    (hpage.node b l n hb).trans (hc.node b l n hb)
  have huntouched : ∀ k, k.1 ≠ src → k.1 ≠ dst → leaf s' V' k = leaf s0 V0 k := by
    intro k hks hkd
    rw [hpage.untouched k (fun he => hks (he ▸ rfl)) fun he => hkd (he ▸ rfl)]
    exact hc.untouched k hks hkd
  cases ok with
  | true =>
    left
    refine ⟨s', heq, A', L', V', hkept, hnode, fun k => ?_, fun f => ?_, fun k e hk hw => ?_,
      huntouched⟩
    · rw [hpage.frames, if_pos rfl]
      by_cases hk : k = (dst, v)
      · subst hk
        rw [update_self, hsrc, if_pos rfl, if_pos (lt_add_one v)]
      rw [update_of_ne hk, hc.frames k]
      by_cases hkd : k.1 = dst
      · have hkv : k.2 ≠ v := fun he => hk (Prod.ext hkd he)
        rw [if_pos hkd, if_pos hkd]
        by_cases hlt : k.2 < v
        · rw [if_pos hlt, if_pos (by omega)]
        · rw [if_neg hlt, if_neg (by omega)]
      · rw [if_neg hkd, if_neg hkd]
    · rw [hpage.refs, hc.refs, hsrc, hits_range_succ, add_assoc]
      simp
    obtain ⟨hold, hkeys⟩ := hpage.writable k e hk hw
    obtain ⟨hold0, hkd, hks⟩ := hc.writable k e hold hw
    refine ⟨hold0, hkd, fun hsrc => ?_⟩
    have hkv : k.2 ≠ v := fun he => (hkeys rfl).1 (Prod.ext hsrc he)
    omega
  | false =>
    right
    refine ⟨s', heq, A', L', V', hkept, hnode, fun k => ?_, fun f => ?_, fun k e hk hw => ?_,
      huntouched⟩
    · rw [hpage.frames, if_neg Bool.false_ne_true, hc.frames]
    · rw [hpage.refs, hc.refs]
      simp
    · exact hc.writable k e (hpage.writable k e hk hw).1 hw

/-- A loop that may give up either completes or fails. -/
theorem whileOk_inv {lo hi body}
    (Inv : Nat → VmState → Prop) (Failed : VmState → Prop) (hle : lo ≤ hi) (hs : Inv lo s)
    (hstep : ∀ i s, lo ≤ i → i < hi → Inv i s → ((body i s).1 = true ∧ Inv (i + 1) (body i s).2) ∨
        ((body i s).1 = false ∧ Failed (body i s).2)) :
    ((whileOk lo hi body s).1 = true ∧ Inv hi (whileOk lo hi body s).2) ∨
      ((whileOk lo hi body s).1 = false ∧ Failed (whileOk lo hi body s).2) := by
  refine forRange_inv (fun i (r : Bool × VmState) =>
    (r.1 = true ∧ Inv i r.2) ∨ (r.1 = false ∧ Failed r.2)) hle (.inl ⟨rfl, hs⟩)
    fun i r hlo hhi hr => ?_
  obtain ⟨hok, hinv⟩ | ⟨hfail, hr⟩ := hr
  · rw [if_pos hok]
    exact hstep i r.2 hlo hhi hinv
  · rw [if_neg (by rw [hfail]; exact false_ne_true)]
    exact .inr ⟨hfail, hr⟩

section

variable (src dst : Nat) (s0 : VmState) (A0 : Arena) (L0 : Ledger)

/-- The walk got to `v`, or gave up earlier. -/
def CloneOutcome (V0 : View) (v : Nat) (r : Bool × VmState) : Prop :=
  (r.1 = true ∧ ClonedTo src dst s0 A0 L0 V0 v r.2) ∨
    (r.1 = false ∧ ∃ w ≤ userPages, ClonedTo src dst s0 A0 L0 V0 w r.2)

/-- What `cloneTable` does on level `l`: it shares the pages below the table. -/
def ClonesLevel (V0 : View) (l : Nat) : Prop :=
  ∀ n t s, V0.tables.node src l n = some t →
    ClonedTo src dst s0 A0 L0 V0 (n * 512 ^ (l + 1)) s →
    CloneOutcome src dst s0 A0 L0 V0 ((n + 1) * 512 ^ (l + 1)) (cloneTable dst l n t s)

end

section

variable (h0 : Paging s0 A0 L0 V0)
include h0

theorem clonesLevel_zero (hne : src ≠ dst) (hdst : dst ∈ V0.live) (hroom : ∀ v f, v ≤ userPages →
      L0.refs f + hits ({src} ×ˢ range v) (frameAt s0 V0) f < 2 ^ 32 - 1) :
    ClonesLevel src dst s0 A0 L0 V0 0 := by
  intro n t s hnode hs
  have hn : n < 2 ^ 26 := (h0.shape.inside _ _ _ _ hnode).2
  rw [cloneTable, add_mul, one_mul]
  refine whileOk_inv (fun i => ClonedTo src dst s0 A0 L0 V0 (n * 512 + i))
    (fun s => ∃ w ≤ userPages, ClonedTo src dst s0 A0 L0 V0 w s)
    zero_le (by simpa using hs) fun i s' _ hi hs' => ?_
  have hi512 : i < 512 := hi
  have hv : n * 512 + i < userPages := by
    rw [userPages]
    omega
  have hdiv : (n * 512 + i) / 512 = n := by omega
  have hmod : (n * 512 + i) % 512 = i := by omega
  have hpage := hs'.page hne hdst hv (hdiv.symm ▸ hnode) fun f => hroom _ f (le_of_lt hv)
  rw [hmod] at hpage
  obtain ⟨s'', heq, hnext⟩ | ⟨s'', heq, hstop⟩ := hpage
  · rw [add_assoc] at hnext
    rw [entriesPerTable, heq]
    exact .inl ⟨rfl, hnext⟩
  · rw [entriesPerTable, heq]
    exact .inr ⟨rfl, _, le_of_lt hv, hstop⟩

/-- Below an empty cell no page has a frame. -/
theorem frameAt_none_under {a u} (hl : l ≤ 3) (hnone : V0.tables.node a l n = none)
    (hlo : n * 512 ^ (l + 1) ≤ u) (hhi : u < (n + 1) * 512 ^ (l + 1)) :
    frameAt s0 V0 (a, u) = none := by
  have hu : u / 512 / userDims.fan ^ (l - 0) = n := by
    show u / 512 / 512 ^ l = n
    rw [Nat.div_div_eq_div_mul, ← pow_succ']
    exact Nat.div_eq_of_lt_le hlo hhi
  rw [frameAt, leaf, h0.shape.none_under hl hnone zero_le hu]
  rfl

/-- The first `N` cells of a table of level `l + 1`. -/
theorem clonesCells (hne : src ≠ dst) {N} (hl : l < 3)
    (hlevel : ClonesLevel src dst s0 A0 L0 V0 l) (hnode : V0.tables.node src (l + 1) n = some t)
    (hN : N ≤ 512) (hwidth : n * 512 + N ≤ userDims.width l)
    (hs : ClonedTo src dst s0 A0 L0 V0 (n * 512 * 512 ^ (l + 1)) s) :
    CloneOutcome src dst s0 A0 L0 V0 ((n * 512 + N) * 512 ^ (l + 1))
      (whileOk 0 N (fun i s =>
        if !has (s.mem t i) ptePresent then (true, s)
        else if l + 1 ≠ 3 ∧ has (s.mem t i) pteHuge then (true, s)
        else cloneTable dst l (n * entriesPerTable + i) (pteFrame (s.mem t i)) s) s) := by
  refine whileOk_inv (fun i => ClonedTo src dst s0 A0 L0 V0 ((n * 512 + i) * 512 ^ (l + 1)))
    (fun s => ∃ w ≤ userPages, ClonedTo src dst s0 A0 L0 V0 w s)
    zero_le (by simpa using hs) fun i s' _ hi hs' => ?_
  have hplace : n * 512 + i < userDims.width l :=
    lt_of_lt_of_le (Nat.add_lt_add_left hi (n * 512)) hwidth
  have hchild : V0.tables.node src l (n * 512 + i) = child s'.mem t i := by
    obtain ⟨A, L, V, hc⟩ := hs'
    have hdiv : (n * 512 + i) / 512 = n := by omega
    have hmod : (n * 512 + i) % 512 = i := by omega
    have hlink := hc.mapped.shape.link src l (n * 512 + i) hl hplace
    simp only [userDims, hdiv, hmod, hc.node _ _ _ hne, hnode] at hlink
    exact hlink
  by_cases hpres : has (s'.mem t i) ptePresent = true
  · have hhuge : ¬ (l + 1 ≠ 3 ∧ has (s'.mem t i) pteHuge = true) := by
      rintro ⟨hl3, hbig⟩
      obtain ⟨A, L, V, hc⟩ := hs'
      have hsmall := hc.mapped.huge src (l + 1) n t i ((hc.node _ _ _ hne).trans hnode) (by omega)
        hpres
      rw [hbig] at hsmall
      cases hsmall
    have hsome : V0.tables.node src l (n * 512 + i) = some (pteFrame (s'.mem t i)) := by
      rw [hchild]
      simp [child, presentAt, hpres]
    have hdone := hlevel _ _ s' hsome hs'
    rw [add_assoc] at hdone
    rw [hpres, Bool.not_true, if_neg Bool.false_ne_true, if_neg hhuge, entriesPerTable]
    exact hdone
  have hnone : V0.tables.node src l (n * 512 + i) = none := by
    rw [hchild]
    simp [child, presentAt, hpres]
  rw [not_eq_true] at hpres
  rw [hpres, Bool.not_false, if_pos rfl]
  have hskip : ClonedTo src dst s0 A0 L0 V0 ((n * 512 + i + 1) * 512 ^ (l + 1)) s' :=
    hs'.skip (Nat.mul_le_mul_right _ (Nat.le_succ _)) fun u hlo hhi =>
      frameAt_none_under h0 (le_of_lt hl) hnone hlo hhi
  rw [add_assoc] at hskip
  exact .inl ⟨rfl, hskip⟩

theorem clonesLevel_succ (hne : src ≠ dst) (hl : l < 2)
    (hlevel : ClonesLevel src dst s0 A0 L0 V0 l) : ClonesLevel src dst s0 A0 L0 V0 (l + 1) := by
  intro n t s hnode hs
  have hlo : n * 512 ^ (l + 1 + 1) = n * 512 * 512 ^ (l + 1) := by
    rw [pow_succ 512 (l + 1), mul_assoc, mul_comm 512]
  have hhi : (n + 1) * 512 ^ (l + 1 + 1) = (n * 512 + 512) * 512 ^ (l + 1) := by
    rw [pow_succ 512 (l + 1), mul_comm _ 512, ← mul_assoc, add_mul, one_mul]
  have hwidth : n * 512 + 512 ≤ userDims.width l := by
    have hn := (h0.shape.inside _ _ _ _ hnode).2
    simp only [userDims] at hn ⊢
    interval_cases l
    all_goals omega
  rw [hlo] at hs
  rw [hhi, cloneTable, if_neg (by omega : l + 1 ≠ 3)]
  exact clonesCells h0 hne (by omega) hlevel hnode (le_refl 512) hwidth hs

/-- The whole walk. -/
theorem clonesAll (hne : src ≠ dst) (hdst : dst ∈ V0.live) (hroom : ∀ v f, v ≤ userPages →
      L0.refs f + hits ({src} ×ˢ range v) (frameAt s0 V0) f < 2 ^ 32 - 1)
    (hnode : V0.tables.node src 3 0 = some t) (hs : ClonedTo src dst s0 A0 L0 V0 0 s) :
    CloneOutcome src dst s0 A0 L0 V0 userPages (cloneTable dst 3 0 t s) := by
  have hlevel : ClonesLevel src dst s0 A0 L0 V0 2 :=
    clonesLevel_succ h0 hne (by omega)
      (clonesLevel_succ h0 hne (by omega) (clonesLevel_zero h0 hne hdst hroom))
  have hpages : (0 * 512 + 256) * 512 ^ (2 + 1) = userPages := rfl
  rw [cloneTable, if_pos rfl, ← hpages]
  exact clonesCells h0 hne (by omega) hlevel hnode (by omega) le_rfl (by simpa using hs)

end

end Walk

/-! ### The whole call -/

/-- The areas of a clone. -/
def clonedVmas (vmas newVmas : Option (List Region)) (cloned : Bool) : Option (List Region) :=
  match vmas with
  | none => newVmas
  | some areas => if cloned then some areas else none

/-- `dst`, if there is one, shares the frames of `src`. -/
structure Forked (src : Nat) (dst : Option Nat) (vmas : Option (List Region)) (s : VmState)
    (A : Arena) (L : Ledger) (V : View) (s' : VmState) (A' : Arena) (L' : Ledger) (V' : View) :
    Prop where
  mapped : Mapped s' A' L' V'
  machine : SameMachine s.pmm A s'.pmm A'
  others : L'.others = L.others
  cache : s'.cache = s.cache
  data : ∀ f, 0 < L.refs f → s'.mem f = s.mem f
  live : V'.live = dst.elim V.live fun d => insert d V.live
  fresh : ∀ d ∈ dst, d ∉ V.live
  spaces : ∀ b ∈ V.live, s'.spaces b = s.spaces b
  vmas : ∀ d ∈ dst, (s'.spaces d).vmas = vmas
  frames : ∀ k, frameAt s' V' k =
    if dst = some k.1 then frameAt s V (src, k.2) else frameAt s V k
  refs : ∀ f, L'.refs f = L.refs f + dst.elim 0 fun _ => countIn s V src f
  writable : ∀ k e, leaf s' V' k = some e → has e pteWritable = true →
    leaf s V k = some e ∧ ∀ d ∈ dst, k.1 ≠ src ∧ k.1 ≠ d
  untouched : ∀ k, k.1 ≠ src → dst ≠ some k.1 → leaf s' V' k = leaf s V k

namespace Mapped

variable {s : VmState} {A : Arena} {L : Ledger} {V : View} {src : Nat}

/-- An address space that is not live maps nothing. -/
theorem frameAt_none (h : Paging s A L V) {k} (hk : k.1 ∉ V.live) : frameAt s V k = none := by
  cases hleaf : leaf s V k with
  | none => exact frameAt_of_leaf hleaf
  | some e => exact absurd (h.leaf_key hleaf).1 hk

/-- The pages of the half-made copy are those of the source below the cursor. -/
theorem countIn_cloning {s0 A0 L0 V0}
    (hc : Cloning src dst w s0 A0 L0 V0 s A L V) (hw : w ≤ userPages) (f : Nat) :
    countIn s V dst f = hits ({src} ×ˢ range w) (frameAt s0 V0) f := by
  have hcut : countIn s V dst f = hits ({dst} ×ˢ range w) (frameAt s V) f := by
    refine hits_of_subset (product_subset_product_right (range_mono hw)) ?_
    rintro ⟨b, u⟩ hk hnot
    simp only [mem_product, mem_singleton, mem_range] at hk hnot
    obtain ⟨rfl, hu⟩ := hk
    rw [hc.frames, if_pos rfl, if_neg fun hlt => hnot ⟨rfl, hlt⟩]
    simp
  rw [hcut]
  refine hits_row (fun u hu => ?_) f
  rw [hc.frames, if_pos rfl, if_pos (mem_range.mp hu)]

/-- The frame counts leave room for one more reference to each frame of an address
space. -/
theorem room_to_clone (h : Mapped s A L V) (hsrc : src ∈ V.live)
    (hbound : ∀ f, L.refs f ≤ mapCount s V f + 1) (v f : Nat) (hv : v ≤ userPages) :
    L.refs f + hits ({src} ×ˢ range v) (frameAt s V) f < 2 ^ 32 - 1 := by
  have hsub : ({src} : Finset Nat) ×ˢ range v ⊆ V.keys :=
    product_subset_product (singleton_subset_iff.mpr hsrc) (range_mono hv)
  have hhits : hits ({src} ×ˢ range v) (frameAt s V) f ≤ mapCount s V f := hits_mono hsub
  have hcnt := h.mapCount_le f
  have hrefs := hbound f
  omega

/-- The new address space gets its list of areas. -/
def copyVmas (s : VmState) (src dst : Nat) (cloned : Bool) : VmState :=
  match (s.spaces src).vmas with
  | none => s
  | some vmas => s.modifySpace dst fun a => { a with vmas := if cloned then some vmas else none }

/-- The state between `as_create` and the walk: the new address space has its list of
areas and no pages. -/
structure CloneStart (dst : Nat) (vmas : Option (List Region)) (s : VmState) (A : Arena)
    (L : Ledger) (V : View) (s' : VmState) (A' : Arena) (L' : Ledger) (V' : View) : Prop where
  mapped : Mapped s' A' L' V'
  machine : SameMachine s.pmm A s'.pmm A'
  others : L'.others = L.others
  cache : s'.cache = s.cache
  data : ∀ f, 0 < L.refs f → s'.mem f = s.mem f
  live : V'.live = insert dst V.live
  fresh : dst ∉ V.live
  vmas : (s'.spaces dst).vmas = vmas
  spaces : ∀ b, b ≠ dst → s'.spaces b = s.spaces b
  refs : L'.refs = L.refs
  leaves : leaf s' V' = leaf s V

theorem cloneStart (h : Mapped s A L V) {newVmas s1 A1 L1 V1} (cloned : Bool) (hsrc : src ∈ V.live)
    (hdst : dst ∉ V.live) (hc : Created dst newVmas s A L V s1 A1 L1 V1) :
    CloneStart dst (clonedVmas (s.spaces src).vmas newVmas cloned) s A L V
      (copyVmas s1 src dst cloned) A1 L1 V1 := by
  have hne : src ≠ dst := fun he => hdst (he ▸ hsrc)
  have hmap := h.created hc
  rw [copyVmas, hc.spaces src hne]
  cases hvmas : (s.spaces src).vmas with
  | none =>
    exact ⟨hmap, hc.machine, hc.others, hc.cache, hc.data, hc.live, hdst, hc.space.2, hc.spaces,
      hc.refs, funext hc.leaf⟩
  | some vmas =>
    refine ⟨hmap.setVmas dst _, hc.machine, hc.others, hc.cache, hc.data, hc.live, hdst, ?_,
      fun b hb => ?_, hc.refs, funext hc.leaf⟩
    · simp [VmState.modifySpace, clonedVmas]
    · simp [VmState.modifySpace, hb, hc.spaces b hb]

section

variable {vmas : Option (List Region)} {s2 s3 : VmState} {A1 A3 : Arena} {L1 L3 : Ledger}
  {V1 V3 : View} (h : Mapped s A L V) (hst : CloneStart dst vmas s A L V s2 A1 L1 V1)
include h hst

/-- The whole walk succeeds. -/
theorem CloneStart.shared (hdone : Cloning src dst userPages s2 A1 L1 V1 s3 A3 L3 V3) :
    Forked src (some dst) vmas s A L V s3 A3 L3 V3 := by
  have hframe := frameAt_congr hst.leaves
  refine ⟨hdone.mapped, hst.machine.trans hdone.machine, hdone.others.trans hst.others,
    hdone.cache.trans hst.cache, fun f hf => ?_, hdone.live.trans hst.live, ?_, fun b hb => ?_, ?_,
    fun k => ?_, fun f => ?_, fun k e hk hw => ?_, fun k hks hkd => ?_⟩
  · exact (hdone.data f (hst.refs ▸ hf)).trans (hst.data f hf)
  · rintro d ⟨⟩
    exact hst.fresh
  · rw [hdone.spaces, hst.spaces b fun he => hst.fresh (he ▸ hb)]
  · rintro d ⟨⟩
    rw [hdone.spaces, hst.vmas]
  · rw [hdone.frames, hframe]
    by_cases hkd : k.1 = dst
    · rw [if_pos hkd, if_pos (congrArg some hkd.symm)]
      split
      · rfl
      next hk =>
      cases hsf : leaf s V (src, k.2) with
      | none => exact (frameAt_of_leaf hsf).symm
      | some e => exact absurd (h.leaf_key hsf).2 hk
    · rw [if_neg hkd, if_neg fun hc => hkd (some.inj hc).symm]
  · rw [hdone.refs, hframe, hst.refs, elim_some, countIn]
  · obtain ⟨hold, hkd, hks⟩ := hdone.writable k e hk hw
    rw [hst.leaves] at hold
    refine ⟨hold, ?_⟩
    rintro d ⟨⟩
    exact ⟨fun hks' => absurd (h.leaf_key hold).2 (not_lt.mpr (hks hks')), hkd⟩
  · rw [hdone.untouched k hks fun he => hkd (congrArg some he.symm), hst.leaves]

/-- The walk fails, and the pages it has made are dropped again. -/
theorem CloneStart.undone {w} (hw : w ≤ userPages)
    (hdone : Cloning src dst w s2 A1 L1 V1 s3 A3 L3 V3) :
    ∃ A' L' V', Forked src none vmas s A L V (Vm.asDestroy s3 dst) A' L' V' := by
  have hframe := frameAt_congr hst.leaves
  have hcountIn := countIn_cloning hdone hw
  have hdst3 : dst ∈ V3.live := hdone.live ▸ hst.live ▸ mem_insert_self _ _
  obtain ⟨A4, L4, V4, hgone⟩ := hdone.mapped.asDestroy hdst3
    (fun f => by rw [hcountIn, hdone.refs]; omega)
    fun k f hk hkf => by
      rw [hdone.frames, if_neg hk] at hkf
      have := hst.mapped.counted k f hkf
      rw [hcountIn, hdone.refs]
      omega
  have hnone : ∀ k, k.1 = dst → leaf s V k = none := fun k hkd =>
    map_eq_none_iff.mp (frameAt_none h.toPaging (hkd ▸ hst.fresh))
  have hkept : ∀ k, frameAt (Vm.asDestroy s3 dst) V4 k = frameAt s V k := by
    intro k
    rw [frameAt, hgone.leaf]
    by_cases hkd : k.1 = dst
    · rw [if_pos hkd, frameAt, hnone k hkd]
    · rw [if_neg hkd, ← frameAt, hdone.frames, if_neg hkd, hframe]
  refine ⟨A4, L4, V4, hgone.mapped, (hst.machine.trans hdone.machine).trans hgone.machine,
    hgone.others.trans (hdone.others.trans hst.others),
    hgone.cache.trans (hdone.cache.trans hst.cache), fun f hf => ?_, ?_, by simp,
    fun b hb => ?_, by simp, fun k => ?_, fun f => ?_, fun k e hk hw => ?_, fun k hks _ => ?_⟩
  · rw [hgone.mem, hdone.data f (hst.refs ▸ hf), hst.data f hf]
  · rw [hgone.live, hdone.live, hst.live, erase_insert hst.fresh]
    rfl
  · have hbd : b ≠ dst := fun he => hst.fresh (he ▸ hb)
    rw [hgone.spaces b hbd, hdone.spaces, hst.spaces b hbd]
  · rw [if_neg (by simp), hkept]
  · rw [hgone.refs, hcountIn, hdone.refs, hst.refs, Nat.add_sub_cancel]
    rfl
  · rw [hgone.leaf] at hk
    split at hk
    · cases hk
    · refine ⟨?_, by simp⟩
      rw [← hst.leaves]
      exact (hdone.writable k e hk hw).1
  rw [hgone.leaf]
  by_cases hkd : k.1 = dst
  · rw [if_pos hkd, hnone k hkd]
  · rw [if_neg hkd, hdone.untouched k hks hkd, hst.leaves]

/-- The frame counts leave room for the walk. -/
theorem CloneStart.outcome (hsrc : src ∈ V.live) (hbound : ∀ f, L.refs f ≤ mapCount s V f + 1) :
    CloneOutcome src dst s2 A1 L1 V1 userPages (cloneTable dst 3 0 (s2.root src) s2) := by
  have hframe := frameAt_congr hst.leaves
  have hsub : V.live ⊆ V1.live := hst.live ▸ subset_insert _ _
  have hroom := hst.mapped.room_to_clone (hsub hsrc) fun f => by
    have hcnt : mapCount s V f ≤ mapCount s2 V1 f := by
      rw [mapCount, mapCount, hframe]
      exact hits_mono (product_subset_product_left hsub)
    rw [hst.refs]
    exact (hbound f).trans (Nat.succ_le_succ hcnt)
  refine clonesAll hst.mapped.toPaging (fun he => hst.fresh (he ▸ hsrc))
    (hst.live ▸ mem_insert_self _ _) hroom (hst.mapped.root (hsub hsrc))
    ⟨A1, L1, V1, hst.mapped.unchanged.toKept, fun _ _ _ _ => rfl, fun k => ?_, fun f => ?_,
      fun k e hk _ => ⟨hk, ?_, fun _ => zero_le⟩, fun _ _ _ => rfl⟩
  · by_cases hkd : k.1 = dst
    · rw [if_pos hkd, if_neg (Nat.not_lt_zero _), hframe]
      exact frameAt_none h.toPaging (hkd ▸ hst.fresh)
    · rw [if_neg hkd]
  · simp [hits]
  · intro hkd
    rw [hst.leaves] at hk
    exact hst.fresh (hkd ▸ (h.leaf_key hk).1)

end

/-- `as_clone` fails and leaves the frames as they were, or shares them. -/
theorem asClone (h : Mapped s A L V) (hsrc : src ∈ V.live) (handle : Option Nat)
    (newVmas : Option (List Region)) (cloned : Bool) (hnew : ∀ a ∈ handle, a ∉ V.live)
    (hbound : ∀ f, L.refs f ≤ mapCount s V f + 1) :
    ∃ r s' A' L' V', Vm.asClone s src handle newVmas cloned = (r, s') ∧ (r = none ∨ r = handle) ∧
      Forked src r (clonedVmas (s.spaces src).vmas newVmas cloned) s A L V s' A' L' V' := by
  obtain heq | ⟨dst, s1, A1, L1, V1, rfl, heq, hc⟩ := h.toPaging.asCreate_spec handle newVmas hnew
  · refine ⟨none, s, A, L, V, by rw [Vm.asClone, heq], .inl rfl, h, .refl _ _, rfl, rfl,
      fun _ _ => rfl, rfl, by simp, fun _ _ => rfl, by simp, fun k => ?_, fun f => rfl,
      fun k e hk _ => ⟨hk, by simp⟩, fun _ _ _ => rfl⟩
    rw [if_neg (by simp)]
  have hst := h.cloneStart cloned hsrc (hnew dst rfl) hc
  have houtcome := hst.outcome h hsrc hbound
  rcases hr : cloneTable dst 3 0 ((copyVmas s1 src dst cloned).root src)
    (copyVmas s1 src dst cloned) with ⟨ok, s3⟩
  rw [hr] at houtcome
  have hclone : Vm.asClone s src (some dst) newVmas cloned =
      if ok then (some dst, s3) else (none, Vm.asDestroy s3 dst) := by
    rw [Vm.asClone, heq]
    cases hv : (s1.spaces src).vmas <;> simp only [copyVmas, hv] at hr <;> simp only [hv, hr] <;>
      cases ok <;> rfl
  rw [hclone]
  obtain ⟨hok, A3, L3, V3, hdone⟩ | ⟨hfail, w, hw, A3, L3, V3, hdone⟩ := houtcome
  · obtain rfl : ok = true := hok
    exact ⟨some dst, s3, A3, L3, V3, rfl, .inr rfl, hst.shared h hdone⟩
  · obtain rfl : ok = false := hfail
    obtain ⟨A4, L4, V4, hforked⟩ := hst.undone h hw hdone
    exact ⟨none, _, A4, L4, V4, rfl, .inl rfl, hforked⟩

end Mapped

end Kurios.Vm
