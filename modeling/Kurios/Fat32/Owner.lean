import Kurios.Base.Linked
import Kurios.Base.Places
import Kurios.Fat32.Slots

/-!
Who owns the clusters of a FAT32 volume.

A cluster stands at a place: it is the first one of the root directory or of an entry, or it
comes after another cluster. Clusters of a directory behind the end mark (`Kind.tail`) are in
the chain but not read. Which slots belong to open files is given by `opened`: such a file
has its first cluster in its node, and what the slot says does not count until the file is
closed. `Owned` says that the pointers lead to every cluster at one place only, and that
every chain ends with a mark.
-/

namespace Kurios.Fat32

open Base Function Option

variable {d : Nat} {o : Bool}

/-! ### Places -/

/-- What points to a cluster. -/
inductive Via where
  | root
  | next (c : Nat)
  | slot (c i : Nat)
deriving DecidableEq, Repr

inductive Kind where
  | dir | tail | file
deriving DecidableEq, Repr

@[ext] structure Place where
  kind : Kind
  via : Via
deriving DecidableEq, Repr

/-- The pointers that go with a cluster. Its successor in the table counts as one of three,
by what the cluster is. -/
inductive Field where
  | next | nextDir | nextTail
  | file (i : Nat)
  | dir (i : Nat)
deriving DecidableEq, Repr

def Place.child (p : Place) (b : Nat) : Field → Option Place
  | .next => if p.kind = .dir then none else some ⟨p.kind, .next b⟩
  | .nextDir => if p.kind = .dir then some ⟨.dir, .next b⟩ else none
  | .nextTail => if p.kind = .dir then some ⟨.tail, .next b⟩ else none
  | .file i => if p.kind = .dir then some ⟨.file, .slot b i⟩ else none
  | .dir i => if p.kind = .dir then some ⟨.dir, .slot b i⟩ else none

/-- The entry of a file or a directory, other than `.` and `..`. -/
def Dirent.IsEntry (d : Dirent) : Prop :=
  d.first ≠ direntFree ∧ d.isLong = false ∧ d.isLabel = false ∧ d.isDot = false
deriving Decidable

/-- A cluster number that leads to a cluster. -/
def ptr (c : Nat) : Option Nat := if IsValid c then some c else none

theorem ptr_eq_some {c} : ptr c = some d ↔ IsValid c ∧ c = d := by
  unfold ptr
  split <;> simp_all

def link (fs : Layout) (v : Volume) (opened : Nat → Nat → Bool) (b : Nat) : Field → Option Nat
  | .next => ptr (v.fat b)
  | .nextDir => if HasEnd fs v b then none else ptr (v.fat b)
  | .nextTail => if HasEnd fs v b then ptr (v.fat b) else none
  | .file i =>
    if Listed fs v b i ∧ (v.dirs b i).IsEntry ∧ (v.dirs b i).isDir = false ∧ opened b i = false then
      ptr (v.dirs b i).cluster
    else none
  | .dir i =>
    if Listed fs v b i ∧ (v.dirs b i).IsEntry ∧ (v.dirs b i).isDir = true then
      ptr (v.dirs b i).cluster
    else none

/-- The slot says where the file or directory starts. -/
def Counts (opened : Nat → Nat → Bool) (v : Volume) (b i : Nat) : Prop :=
  (v.dirs b i).IsEntry ∧ ((v.dirs b i).isDir = true ∨ opened b i = false)

/-- What an entry leads to. -/
def Dirent.kind (d : Dirent) : Kind := if d.isDir then .dir else .file

section Pointers

variable {fs : Layout} {v v' : Volume} {opened : Nat → Nat → Bool} {p q : Place} {b c i : Nat}
  {k : Field}

section

variable (fs : Layout) (v : Volume) (p : Place) (b : Nat)

/-- The pointer that is the successor of a cluster, and what stands there. -/
def Place.nextField : Field :=
  if p.kind = .dir then if HasEnd fs v b then .nextTail else .nextDir else .next

def Place.nextKind : Kind :=
  if p.kind = .dir then if HasEnd fs v b then .tail else .dir else p.kind

end

theorem child_nextField : p.child b (p.nextField fs v b) = some ⟨p.nextKind fs v b, .next b⟩ := by
  unfold Place.nextField Place.nextKind
  split_ifs with hp <;> simp [Place.child, hp]

theorem link_nextField : link fs v opened b (p.nextField fs v b) = ptr (v.fat b) := by
  unfold Place.nextField
  split_ifs <;> simp [link, *]

theorem nextKind_file : p.nextKind fs v b = .file ↔ p.kind = .file := by
  unfold Place.nextKind
  split_ifs <;> simp_all

theorem nextKind_congr (hends : p.kind = .dir → (HasEnd fs v' b ↔ HasEnd fs v b)) :
    p.nextKind fs v' b = p.nextKind fs v b := by
  unfold Place.nextKind
  split_ifs <;> simp_all

/-- The pointer of an entry. -/
theorem exists_link_slot (hp : p.kind = .dir) (hlst : Listed fs v b i)
    (hcnts : Counts opened v b i) : ∃ k, p.child b k = some ⟨(v.dirs b i).kind, .slot b i⟩ ∧
      link fs v opened b k = ptr (v.dirs b i).cluster := by
  unfold Dirent.kind
  cases hdir : (v.dirs b i).isDir
  · refine ⟨.file i, if_pos hp, if_pos ⟨hlst, hcnts.1, hdir, ?_⟩⟩
    exact hcnts.2.resolve_left (by simp [hdir])
  · exact ⟨.dir i, if_pos hp, if_pos ⟨hlst, hcnts.1, hdir⟩⟩

/-- A pointer leads to the successor of a cluster, or is that of an entry. -/
theorem link_cases (hq : p.child b k = some q) (hc : link fs v opened b k = some c) :
    IsValid c ∧ ((q = ⟨p.nextKind fs v b, .next b⟩ ∧ v.fat b = c) ∨
      ∃ i, q = ⟨(v.dirs b i).kind, .slot b i⟩ ∧ p.kind = .dir ∧ Listed fs v b i ∧
        Counts opened v b i ∧ (v.dirs b i).cluster = c) := by
  cases k with
  | next =>
    obtain ⟨hp, ⟨⟩⟩ := ite_none_left_eq_some.mp hq
    obtain ⟨hval, rfl⟩ := ptr_eq_some.mp hc
    exact ⟨hval, .inl ⟨by rw [Place.nextKind, if_neg hp], rfl⟩⟩
  | nextDir =>
    obtain ⟨hp, ⟨⟩⟩ := ite_none_right_eq_some.mp hq
    obtain ⟨hend, hc⟩ := ite_none_left_eq_some.mp hc
    obtain ⟨hval, rfl⟩ := ptr_eq_some.mp hc
    exact ⟨hval, .inl ⟨by rw [Place.nextKind, if_pos hp, if_neg hend], rfl⟩⟩
  | nextTail =>
    obtain ⟨hp, ⟨⟩⟩ := ite_none_right_eq_some.mp hq
    obtain ⟨hend, hc⟩ := ite_none_right_eq_some.mp hc
    obtain ⟨hval, rfl⟩ := ptr_eq_some.mp hc
    exact ⟨hval, .inl ⟨by rw [Place.nextKind, if_pos hp, if_pos hend], rfl⟩⟩
  | file i =>
    obtain ⟨hp, ⟨⟩⟩ := ite_none_right_eq_some.mp hq
    obtain ⟨⟨hlst, hent, hfile, hopen⟩, hc⟩ := ite_none_right_eq_some.mp hc
    obtain ⟨hval, rfl⟩ := ptr_eq_some.mp hc
    exact ⟨hval, .inr ⟨i, by simp [Dirent.kind, hfile], hp, hlst, ⟨hent, .inr hopen⟩, rfl⟩⟩
  | dir i =>
    obtain ⟨hp, ⟨⟩⟩ := ite_none_right_eq_some.mp hq
    obtain ⟨⟨hlst, hent, hdir⟩, hc⟩ := ite_none_right_eq_some.mp hc
    obtain ⟨hval, rfl⟩ := ptr_eq_some.mp hc
    exact ⟨hval, .inr ⟨i, by simp [Dirent.kind, hdir], hp, hlst, ⟨hent, .inl hdir⟩, rfl⟩⟩

end Pointers

/-- Every cluster has one place, and the chains end. The table has no free entry for numbers
that are no clusters. -/
structure Owned (fs : Layout) (v : Volume) (R : Place → Nat → Prop) (opened : Nat → Nat → Bool)
    (owner : Nat → Option Place) : Prop where
  labels : Labels R (link fs v opened) Place.child owner
  heads : ∀ p b d, R p b → p.via ≠ .next d
  valid : ∀ b p, owner b = some p → IsValid b ∧ (IsValid (v.fat b) ∨ eocMin ≤ v.fat b)
  entries : ∀ b p i, owner b = some p → p.kind = .dir → Listed fs v b i → Counts opened v b i →
    (v.dirs b i).cluster = 0 ∨ IsValid (v.dirs b i).cluster
  limit : ∀ c, badMark ≤ c → v.fat c ≠ freeMark

variable {fs : Layout} {v v' : Volume} {R R' : Place → Nat → Prop}
  {opened opened' : Nat → Nat → Bool} {owner owner' : Nat → Option Place} {p q : Place} {b c : Nat}

theorem not_isValid_of_eocMin_le (h : eocMin ≤ c) : ¬ IsValid c := by
  rintro ⟨-, hlt⟩
  exact absurd (lt_of_le_of_lt h hlt) (by decide)

theorem not_isValid_zero : ¬ IsValid 0 := by decide

theorem IsValid.ne_zero (h : IsValid c) : c ≠ 0 := by
  rintro rfl
  exact not_isValid_zero h

/-- A slot says where a file or directory starts, or that it has no cluster, only if it said
so before. -/
structure FromSlot (o o' : Bool) (d d' : Dirent) : Prop where
  ends : d'.first = direntEnd ↔ d.first = direntEnd
  counts : d'.IsEntry → d'.isDir = true ∨ o' = false → d'.cluster = 0 ∨
    (d.IsEntry ∧ (d.isDir = true ∨ o = false) ∧ d.isDir = d'.isDir ∧ d.cluster = d'.cluster)

theorem FromSlot.of_eq {d d'} (h : d' = d) : FromSlot o o d d' := by
  rw [h]
  exact ⟨Iff.rfl, fun hent ho => .inr ⟨hent, ho, rfl, rfl⟩⟩

theorem FromSlot.of_not_isEntry {o' d d'}
    (ends : d'.first = direntEnd ↔ d.first = direntEnd) (h : ¬ d'.IsEntry) : FromSlot o o' d d' :=
  ⟨ends, fun hent => absurd hent h⟩

/-! ### The pointers of one cluster -/

/-- A cluster at place `p`: its pointers lead to clusters at the places they stand for. -/
structure Placed (fs : Layout) (v : Volume) (opened : Nat → Nat → Bool)
    (owner : Nat → Option Place) (b : Nat) (p : Place) : Prop where
  valid : IsValid b
  next : eocMin ≤ v.fat b ∨ IsValid (v.fat b) ∧ owner (v.fat b) = some ⟨p.nextKind fs v b, .next b⟩
  slots : p.kind = .dir → ∀ i, Listed fs v b i → Counts opened v b i → (v.dirs b i).cluster = 0 ∨
    IsValid (v.dirs b i).cluster ∧ owner (v.dirs b i).cluster = some ⟨(v.dirs b i).kind, .slot b i⟩

theorem Owned.placed (h : Owned fs v R opened owner) (hb : owner b = some p) :
    Placed fs v opened owner b p where
  valid := (h.valid b p hb).1
  next := by
    refine (h.valid b p hb).2.symm.imp_right fun hnext => ⟨hnext, ?_⟩
    refine h.labels.link p _ b _ (p.nextField fs v b) hb child_nextField ?_
    rw [link_nextField]
    exact ptr_eq_some.mpr ⟨hnext, rfl⟩
  slots hp i hlst hcnts := by
    refine (h.entries b p i hb hp hlst hcnts).imp_right fun hval => ⟨hval, ?_⟩
    obtain ⟨k, hchild, hlink⟩ := exists_link_slot hp hlst hcnts
    exact h.labels.link p _ b _ k hb hchild (hlink.trans (ptr_eq_some.mpr ⟨hval, rfl⟩))

theorem Owned.of_placed (hroot : ∀ p b, R p b → owner b = some p ∧ ∀ d, p.via ≠ .next d)
    (h : ∀ b p, owner b = some p → Placed fs v opened owner b p)
    (hlimit : ∀ c, badMark ≤ c → v.fat c ≠ freeMark) : Owned fs v R opened owner where
  labels := by
    refine ⟨fun p b hp => (hroot p b hp).1, fun p q b c k hb hq hc => ?_⟩
    have hpl := h b p hb
    obtain ⟨hval, ⟨rfl, rfl⟩ | ⟨i, rfl, hp, hlst, hcnts, rfl⟩⟩ := link_cases hq hc
    · exact (hpl.next.resolve_left fun hend => not_isValid_of_eocMin_le hend hval).2
    · exact ((hpl.slots hp i hlst hcnts).resolve_left hval.ne_zero).2
  heads p b d hp := (hroot p b hp).2 d
  valid b p hb := ⟨(h b p hb).valid, (h b p hb).next.symm.imp_left And.left⟩
  entries b p i hb hp hlst hcnts := ((h b p hb).slots hp i hlst hcnts).imp_right And.left
  limit := hlimit

/-- A pointer of cluster `b` leads to this place. -/
def Place.Under (v : Volume) (opened : Nat → Nat → Bool) (b : Nat) (q : Place) : Prop :=
  (q.via = .next b ∧ IsValid (v.fat b)) ∨
    ∃ i, q = ⟨(v.dirs b i).kind, .slot b i⟩ ∧ Counts opened v b i

/-- The successor and the slots of a cluster stay or go, or lead to a cluster at their place. -/
theorem Placed.change (h : Placed fs v opened owner b p)
    (hfat : v'.fat b = v.fat b ∨ eocMin ≤ v'.fat b ∨
      IsValid (v'.fat b) ∧ owner' (v'.fat b) = some ⟨p.nextKind fs v' b, .next b⟩)
    (hslots : p.kind = .dir → ∀ i,
      FromSlot (opened b i) (opened' b i) (v.dirs b i) (v'.dirs b i) ∨
      ((v'.dirs b i).first = direntEnd ↔ (v.dirs b i).first = direntEnd) ∧
        IsValid (v'.dirs b i).cluster ∧
        owner' (v'.dirs b i).cluster = some ⟨(v'.dirs b i).kind, .slot b i⟩)
    (howner : ∀ c q, owner c = some q → q.Under v' opened' b → owner' c = some q) :
    Placed fs v' opened' owner' b p := by
  have hends : p.kind = .dir → ∀ i,
      ((v'.dirs b i).first = direntEnd ↔ (v.dirs b i).first = direntEnd) :=
    fun hp i => (hslots hp i).elim FromSlot.ends And.left
  refine ⟨h.valid, ?_, fun hp i hlst hcnts => ?_⟩
  · obtain hfat | hnew := hfat
    · rw [hfat]
      refine h.next.imp_right fun ⟨hval, hnext⟩ => ⟨hval, ?_⟩
      rw [nextKind_congr fun hp => hasEnd_congr (hends hp)]
      exact howner _ _ hnext (.inl ⟨rfl, hfat.symm ▸ hval⟩)
    · exact hnew
  obtain hslot | ⟨-, hnew⟩ := hslots hp i
  · obtain hzero | ⟨hent, hopened, hdir, hclus⟩ := hslot.counts hcnts.1 hcnts.2
    · exact .inl hzero
    have hkind : (v'.dirs b i).kind = (v.dirs b i).kind := by
      rw [Dirent.kind, Dirent.kind, hdir]
    rw [hkind, ← hclus]
    refine (h.slots hp i ((listed_congr (hends hp)).mp hlst) ⟨hent, hopened⟩).imp_right ?_
    rintro ⟨hval, hslot⟩
    exact ⟨hval, howner _ _ hslot (.inr ⟨i, by rw [hkind], hcnts⟩)⟩
  · exact .inr hnew

namespace Owned

section

variable (h : Owned fs v R opened owner)
include h

/-- The clusters with a place keep or lose their successors, and slots at most lose their
entries. -/
theorem frame (hroot : ∀ p b, R' p b → R p b)
    (hfat : ∀ b p, owner b = some p → v'.fat b = v.fat b ∨ eocMin ≤ v'.fat b)
    (hslots : ∀ b p i, owner b = some p → p.kind = .dir →
      FromSlot (opened b i) (opened' b i) (v.dirs b i) (v'.dirs b i))
    (hlimit : ∀ c, badMark ≤ c → v'.fat c ≠ freeMark) : Owned fs v' R' opened' owner :=
  .of_placed (fun p b hp => ⟨h.labels.root p b (hroot p b hp), (h.heads p b · (hroot p b hp))⟩)
    (fun b p hb => (h.placed hb).change ((hfat b p hb).imp_right .inl)
      (fun hp i => .inl (hslots b p i hb hp)) fun _ _ hc _ => hc) hlimit

theorem mono (hroot : ∀ p b, R' p b → R p b) : Owned fs v R' opened owner :=
  h.frame hroot (fun _ _ _ => .inl rfl) (fun _ _ _ _ _ => .of_eq rfl) h.limit

/-- Only the contents of clusters that no directory reads change. -/
theorem frameContents (hfat : v'.fat = v.fat)
    (hdirs : ∀ b p, owner b = some p → p.kind = .dir → v'.dirs b = v.dirs b) :
    Owned fs v' R opened owner := by
  refine h.frame (fun _ _ hp => hp) (fun _ _ _ => .inl (by rw [hfat]))
    (fun b p i hp hdir => .of_eq (by rw [hdirs b p hp hdir])) ?_
  rw [hfat]
  exact h.limit

/-! ### Chains -/

/-- The cluster after one with a place. -/
theorem next (hb : owner b = some p) (hnext : IsValid (v.fat b)) :
    ∃ k, owner (v.fat b) = some ⟨k, .next b⟩ ∧ (k = .file ↔ p.kind = .file) ∧
      (p.kind = .dir → ¬ HasEnd fs v b → k = .dir) := by
  have hpl := (h.placed hb).next.resolve_left fun hend => not_isValid_of_eocMin_le hend hnext
  refine ⟨p.nextKind fs v b, hpl.2, nextKind_file, fun hp hend => ?_⟩
  rw [Place.nextKind, if_pos hp, if_neg hend]

/-- Two places on a chain whose first cluster comes after none. -/
theorem iterate_ne (hc : owner c = some p) (hhead : ∀ d, p.via ≠ .next d) (m n : Nat)
    (hval : ∀ k ≤ n, IsValid (v.fat^[k] c)) (hlt : m < n) : v.fat^[m] c ≠ v.fat^[n] c := by
  have hstep : ∀ {k q}, k < n → owner (v.fat^[k] c) = some q →
      ∃ kind, owner (v.fat^[k + 1] c) = some ⟨kind, .next (v.fat^[k] c)⟩ := by
    intro k q hk hq
    have hnext := hval (k + 1) hk
    rw [iterate_succ_apply'] at hnext ⊢
    obtain ⟨kind, hkind, -⟩ := h.next hq hnext
    exact ⟨kind, hkind⟩
  have hplace : ∀ k, k < n → ∃ kind, owner (v.fat^[k + 1] c) =
      some ⟨kind, .next (v.fat^[k] c)⟩ := by
    intro k hk
    induction k with
    | zero => exact hstep hk hc
    | succ k ih => exact hstep hk (ih (Nat.lt_of_succ_lt hk)).choose_spec
  clear hstep
  intro heq
  induction m generalizing n with
  | zero =>
    obtain ⟨n, rfl⟩ := Nat.exists_eq_succ_of_ne_zero (pos_iff_ne_zero.mp hlt)
    obtain ⟨kind, hkind⟩ := hplace n (lt_add_one n)
    rw [← heq, iterate_zero_apply, hc] at hkind
    exact hhead _ (congrArg Place.via (some.inj hkind))
  | succ m ih =>
    obtain ⟨n, rfl⟩ := Nat.exists_eq_succ_of_ne_zero (pos_iff_ne_zero.mp (Nat.zero_lt_of_lt hlt))
    obtain ⟨kind, hkind⟩ := hplace n (lt_add_one n)
    obtain ⟨kind', hkind'⟩ := hplace m (Nat.lt_of_succ_lt hlt)
    rw [heq, hkind] at hkind'
    have hprev : v.fat^[n] c = v.fat^[m] c := Via.next.inj (congrArg Place.via (some.inj hkind'))
    exact ih n (fun k hk => hval k (Nat.le_succ_of_le hk)) (Nat.lt_of_succ_lt_succ hlt)
      (fun k hk => hplace k (Nat.lt_succ_of_lt hk)) hprev.symm

omit h in
theorem isValid_lt : ∀ c, IsValid c → c < badMark := fun _ h => h.2

/-- The chain of an entry ends. -/
theorem exists_chain (hc : owner c = some p)
    (hhead : ∀ d, p.via ≠ .next d) : ∃ cs e, Linked v.fat IsValid c cs e :=
  Linked.exists_of_injective isValid_lt (h.iterate_ne hc hhead)

variable {cs : List Nat} {e : Nat}

section

variable (hc : owner c = some p) (hchain : Linked v.fat IsValid c cs e)
include hc hchain

/-- It ends with a mark. -/
theorem chain_end : eocMin ≤ e := by
  induction hchain generalizing p with
  | nil hinv => exact absurd (h.valid _ _ hc).1 hinv
  | @cons c e cs _ hrest ih =>
    rcases (h.valid _ _ hc).2 with hnext | hend
    · obtain ⟨k, hk, -⟩ := h.next hc hnext
      exact ih hk
    · cases hrest with
      | nil => exact hend
      | cons hnext _ => exact absurd hnext (not_isValid_of_eocMin_le hend)

/-- The clusters of a chain have places one after the other. -/
theorem chain_owner (hd : d ∈ cs) :
    d = c ∨ ∃ d' ∈ cs, ∃ k, owner d = some ⟨k, .next d'⟩ ∧ (k = .file ↔ p.kind = .file) := by
  induction hchain generalizing p with
  | nil => cases hd
  | @cons c e cs _ hrest ih =>
    rcases List.mem_cons.mp hd with rfl | hd
    · exact .inl rfl
    refine .inr ?_
    have hnext : IsValid (v.fat c) := by
      cases hrest with
      | nil => cases hd
      | cons hnext _ => exact hnext
    obtain ⟨k, hk, hfile, -⟩ := h.next hc hnext
    obtain rfl | ⟨d', hd', k', hk', hfile'⟩ := ih hk hd
    · exact ⟨c, List.mem_cons_self, k, hk, hfile⟩
    · exact ⟨d', List.mem_cons_of_mem _ hd', k', hk', hfile'.trans hfile⟩

/-- The clusters of a chain are all of a file, or none is. -/
theorem chain_kind (hd : d ∈ cs) : ∃ q, owner d = some q ∧ (q.kind = .file ↔ p.kind = .file) := by
  obtain rfl | ⟨d', _, k, hk, hfile⟩ := h.chain_owner hc hchain hd
  · exact ⟨p, hc, Iff.rfl⟩
  · exact ⟨_, hk, hfile⟩

/-! ### A chain is freed -/

/-- A chain goes, when nothing is left that points to its first cluster. -/
theorem drop (hfat : ∀ b, b ∉ cs → v'.fat b = v.fat b) (hroot : ∀ p b, R' p b → R p b ∧ b ≠ c)
    (hslots : ∀ b p i, owner b = some p → b ∉ cs → p.kind = .dir →
      FromSlot (opened b i) (opened' b i) (v.dirs b i) (v'.dirs b i))
    (hlast : ∀ b, b ∉ cs → ¬ p.Under v' opened' b) :
    Owned fs v' R' opened' (fun b => if b ∈ cs then none else owner b) := by
  refine .of_placed (fun p b hp => ?_) (fun b p hp => ?_) fun d hd => ?_
  · obtain ⟨hold, hne⟩ := hroot p b hp
    have hplace := h.labels.root p b hold
    refine ⟨(if_neg fun hmem => ?_).trans hplace, (h.heads p b · hold)⟩
    obtain rfl | ⟨d', -, k, hk, -⟩ := h.chain_owner hc hchain hmem
    · exact hne rfl
    · cases hplace.symm.trans hk
      exact h.heads _ b d' hold rfl
  · obtain ⟨hkept, hp⟩ := ite_none_left_eq_some.mp hp
    refine (h.placed hp).change (.inl (hfat b hkept))
      (fun hdir i => .inl (hslots b p i hp hkept hdir))
      fun d q hd hunder => (if_neg fun hmem => ?_).trans hd
    obtain rfl | ⟨d', hd', k, hk, -⟩ := h.chain_owner hc hchain hmem
    · cases hc.symm.trans hd
      exact hlast b hkept hunder
    -- The cluster comes after one that is freed.
    cases hd.symm.trans hk
    obtain ⟨hnext, -⟩ | ⟨i, ⟨⟩, -⟩ := hunder
    · cases hnext
      exact hkept hd'
  · have hkept : d ∉ cs := fun hmem => absurd (hchain.valid_of_mem hmem).2 (not_lt.mpr hd)
    rw [hfat d hkept]
    exact h.limit d hd

end

/-! ### A cluster is added -/

/-- A cluster of its own, without a place. -/
structure Fresh (v : Volume) (owner : Nat → Option Place) (new : Nat) : Prop where
  owner : owner new = none
  valid : IsValid new
  ended : eocMin ≤ v.fat new

variable {new : Nat}

/-- A new cluster without entries gets a place, when the pointers of the others agree. -/
theorem add (hnew : Fresh v' owner new)
    (hroot : ∀ q b, R' q b → R q b ∨ (q = p ∧ b = new ∧ ∀ d, p.via ≠ .next d))
    (hemp : p.kind = .dir → ∀ i, Listed fs v' new i → ¬ (v'.dirs new i).IsEntry)
    (hpl : ∀ b q, owner b = some q → Placed fs v opened owner b q →
      Placed fs v' opened (update owner new (some p)) b q)
    (hlimit : ∀ c, badMark ≤ c → v'.fat c ≠ freeMark) :
    Owned fs v' R' opened (update owner new (some p)) := by
  refine .of_placed (fun q b hq => ?_) (fun b q hb => ?_) hlimit
  · rcases hroot q b hq with hq | ⟨rfl, rfl, hvia⟩
    · exact ⟨update_of_label hnew.owner (h.labels.root q b hq) _, (h.heads q b · hq)⟩
    · exact ⟨update_self _ _ _, hvia⟩
  rcases update_cases hb with ⟨rfl, ⟨⟩⟩ | ⟨-, hb⟩
  · exact ⟨hnew.valid, .inl hnew.ended, fun hp i hl hcnts => absurd hcnts.1 (hemp hp i hl)⟩
  · exact hpl b q hb (h.placed hb)

/-- A cluster at the end of a chain. -/
theorem extend {last} (hlast : owner last = some p) (hnew : Fresh v' owner new)
    (hlink : v'.fat last = new) (hfat : ∀ b p, owner b = some p → b ≠ last → v'.fat b = v.fat b)
    (hdirs : ∀ b p, owner b = some p → p.kind = .dir → v'.dirs b = v.dirs b)
    (hemp : ∀ i, ¬ Listed fs v' new i) (hlimit : ∀ c, badMark ≤ c → v'.fat c ≠ freeMark) :
    ∃ k, Owned fs v' R opened (update owner new (some ⟨k, .next last⟩)) ∧
      (k = .file ↔ p.kind = .file) := by
  refine ⟨p.nextKind fs v' last, h.add hnew (fun _ _ => .inl)
    (fun _ i hlst => absurd hlst (hemp i)) (fun b q hb hpl => ?_) hlimit, nextKind_file⟩
  refine hpl.change ?_ (fun hq i => .inl (.of_eq (by rw [hdirs b q hb hq])))
    fun c r hc _ => update_of_label hnew.owner hc _
  by_cases hbl : b = last
  · subst hbl
    cases hlast.symm.trans hb
    rw [hlink]
    exact .inr (.inr ⟨hnew.valid, update_self _ _ _⟩)
  · exact .inl (hfat b q hb hbl)

/-- A cluster under an entry for a directory. -/
theorem addDir {i} (hdir : (v'.dirs c i).isDir = true) (hclus : (v'.dirs c i).cluster = new)
    (hends : ∀ j, (v'.dirs c j).first = direntEnd ↔ (v.dirs c j).first = direntEnd)
    (hnew : Fresh v' owner new) (hemp : ∀ j, Listed fs v' new j → ¬ (v'.dirs new j).IsEntry)
    (hfat : ∀ b p, owner b = some p → v'.fat b = v.fat b)
    (hslots : ∀ b p j, owner b = some p → p.kind = .dir → b ≠ c ∨ j ≠ i →
      FromSlot (opened b j) (opened b j) (v.dirs b j) (v'.dirs b j))
    (hlimit : ∀ c, badMark ≤ c → v'.fat c ≠ freeMark) :
    Owned fs v' R opened (update owner new (some ⟨.dir, .slot c i⟩)) := by
  refine h.add hnew (fun _ _ => .inl) (fun _ => hemp) (fun b q hb hpl => ?_) hlimit
  refine hpl.change (.inl (hfat b q hb)) (fun hq j => ?_)
    fun d r hd _ => update_of_label hnew.owner hd _
  by_cases hcell : b = c ∧ j = i
  · obtain ⟨rfl, rfl⟩ := hcell
    rw [hclus, Dirent.kind, hdir]
    exact .inr ⟨hends j, hnew.valid, update_self _ _ _⟩
  · exact .inl (hslots b q j hb hq (by tauto))

end

end Owned

end Kurios.Fat32
