import Kurios.Base.Forest
import Kurios.Base.Loop
import Kurios.Ramfs.Defs

/-!
The directory tree of the RAM file system.

The invariant (`WellFormed`) is that the children of the live nodes form a forest whose root
has no parent, with distinct non-empty names in each list. It says nothing about cycles: a
rename may move a directory below itself, which takes it away from the root. What is left at
the root is a tree all the same (`WellFormed.isTree`).
-/

namespace Kurios.Ramfs

open Base Function Option List Finset Prod

namespace Tree

variable {t t' : Tree} {kids : Nat → List Nat} {a c d d' : Nat} {name name' : List Nat}

/-! ### Trees -/

/-- The directory lists the node. -/
def Lists (t : Tree) : Nat → Nat → Prop := Base.Lists t.children t.next

/-- The node is reached from the root. -/
def Reach (t : Tree) : Nat → Prop := Relation.ReflTransGen t.Lists t.root

/-- What is reached from the root is a finite tree. Its lists are doubly linked and without
repetition, and their names are distinct and not empty. -/
structure IsTree (t : Tree) : Prop where
  finite : {d | t.Reach d}.Finite
  parent : ∀ d c, t.Reach d → t.Lists d c → t.parent c = some d
  once : ∀ d d' c, t.Reach d → t.Reach d' → t.Lists d c → t.Lists d' c → d = d'
  acyclic : ∀ d, t.Reach d → ¬ Relation.TransGen t.Lists d d
  siblings : ∀ d, t.Reach d → ∃ cs, DList t.next t.prev cs ∧ t.children d = cs.head? ∧
    (∀ c, t.Lists d c ↔ c ∈ cs) ∧ (cs.Pairwise fun a b => t.name a ≠ t.name b) ∧
      ∀ c ∈ cs, t.name c ≠ []

/-- `kids` are the lists of children. -/
structure WellFormed (t : Tree) (kids : Nat → List Nat) : Prop where
  forest : Forest t.live t.children t.next t.prev t.parent kids
  root_live : t.root ∈ t.live
  root_parent : t.parent t.root = none
  distinct : ∀ d ∈ t.live, (kids d).Pairwise fun a b => t.name a ≠ t.name b
  nonempty : ∀ d ∈ t.live, ∀ c ∈ kids d, t.name c ≠ []

namespace WellFormed

theorem isTree (h : t.WellFormed kids) : t.IsTree where
  finite := t.live.finite_toSet.subset fun _ => h.forest.reach_live h.root_live
  parent d c hd hlists := by
    have hlive := h.forest.reach_live h.root_live hd
    exact h.forest.parent_eq d hlive c ((h.forest.lists_iff hlive).mp hlists)
  once d d' c hd hd' hlists hlists' := by
    have hlive := h.forest.reach_live h.root_live hd
    have hlive' := h.forest.reach_live h.root_live hd'
    exact h.forest.kids_disjoint hlive hlive' ((h.forest.lists_iff hlive).mp hlists)
      ((h.forest.lists_iff hlive').mp hlists')
  acyclic d hd := h.forest.acyclic h.root_live h.root_parent hd
  siblings d hd := by
    have hlive := h.forest.reach_live h.root_live hd
    exact ⟨kids d, h.forest.siblings d hlive, h.forest.first_eq d hlive,
      fun c => h.forest.lists_iff hlive, h.distinct d hlive, h.nonempty d hlive⟩

/-- The root is in no list. -/
theorem ne_root (h : t.WellFormed kids) (hd : d ∈ t.live) (hc : c ∈ kids d) : c ≠ t.root := by
  rintro rfl
  have hpar := h.forest.parent_eq d hd _ hc
  rw [h.root_parent] at hpar
  cases hpar

/-- The search among the children ends. -/
theorem findChild_spec (h : t.WellFormed kids) (hd : d ∈ t.live) (name : List Nat) :
    ∃ r, t.findChild d name = some r ∧ (∀ c, r = some c → c ∈ kids d ∧ t.name c = name) ∧
      (r = none → ∀ c ∈ kids d, t.name c ≠ name) := by
  have hlist := h.forest.siblings d hd
  have hfuel : (kids d).length ≤ t.live.card := by
    rw [← toFinset_card_of_nodup hlist.nodup]
    exact card_le_card fun c hc => h.forest.kids_live d hd c (mem_toFinset.mp hc)
  have hwalk := hlist.links.walk_eq (fun c => if t.name c = name then some (some c) else none) none
    hfuel
  rw [← h.forest.first_eq d hd] at hwalk
  refine ⟨_, hwalk, ?_⟩
  cases hfind : (kids d).findSome? fun c => if t.name c = name then some (some c) else none with
  | none =>
    refine ⟨fun c hc => (nomatch hc), fun _ c hc hname => ?_⟩
    have hmiss := List.findSome?_eq_none_iff.mp hfind c hc
    rw [if_pos hname] at hmiss
    cases hmiss
  | some r =>
    obtain ⟨b, hb, hr⟩ := exists_of_findSome?_eq_some hfind
    obtain ⟨hname, rfl⟩ := ite_eq_some hr
    refine ⟨fun c hc => ?_, fun hnone => (nomatch hnone)⟩
    cases hc
    exact ⟨hb, hname⟩

end WellFormed

/-! ### Changes of the lists -/

section Fields

variable (t c d)

theorem skipForward_links (x : Nat) :
    (t.skipForward d c).next x = (if t.prev c = some x then t.next c else t.next x) ∧
      (t.skipForward d c).children x =
        if x = d ∧ t.prev c = none then t.next c else t.children x := by
  unfold skipForward
  cases hprev : t.prev c with
  | none => simp [setChildren, update_apply]
  | some p => simp [setNext, update_apply, eq_comm]

theorem skipForward_others : (t.skipForward d c).prev = t.prev ∧
    (t.skipForward d c).parent = t.parent ∧ (t.skipForward d c).name = t.name ∧
      (t.skipForward d c).live = t.live ∧ (t.skipForward d c).root = t.root := by
  unfold skipForward
  split <;> exact ⟨rfl, rfl, rfl, rfl, rfl⟩

theorem skipBack_prev (y : Nat) :
    (t.skipBack c).prev y = if t.next c = some y then t.prev c else t.prev y := by
  unfold skipBack
  cases hnext : t.next c with
  | none => simp
  | some n => simp [setPrev, update_apply, eq_comm]

theorem skipBack_others : (t.skipBack c).next = t.next ∧ (t.skipBack c).children = t.children ∧
    (t.skipBack c).parent = t.parent ∧ (t.skipBack c).name = t.name ∧
      (t.skipBack c).live = t.live ∧ (t.skipBack c).root = t.root := by
  unfold skipBack
  split <;> exact ⟨rfl, rfl, rfl, rfl, rfl, rfl⟩

theorem removeChild_others : (t.removeChild d c).live = t.live ∧
    (t.removeChild d c).root = t.root ∧ (t.removeChild d c).name = t.name ∧
      (t.removeChild d c).parent = update t.parent c none := by
  obtain ⟨-, hparent1, hname1, hlive1, hroot1⟩ := skipForward_others t c d
  obtain ⟨-, -, hparent2, hname2, hlive2, hroot2⟩ := skipBack_others (t.skipForward d c) c
  refine ⟨hlive2.trans hlive1, hroot2.trans hroot1, hname2.trans hname1, ?_⟩
  rw [← hparent1, ← hparent2]
  rfl

theorem addChild_prev (hfirst : t.children d ≠ some c) (y : Nat) : (t.addChild d c).prev y =
    if y = c then none else if t.children d = some y then some c else t.prev y := by
  unfold addChild
  cases hchildren : t.children d with
  | none => simp [setParent, setNext, setPrev, setChildren, hchildren, update_apply]
  | some b =>
    have hbc : b ≠ c := fun heq => hfirst (heq ▸ hchildren)
    simp only [setParent, setNext, setPrev, setChildren, hchildren, some.injEq]
    by_cases hyb : y = b
    · subst hyb
      rw [update_self, if_neg hbc, if_pos rfl]
    · rw [update_of_ne hyb, update_apply, if_neg (Ne.symm hyb)]

theorem addChild_others : (t.addChild d c).next = update t.next c (t.children d) ∧
    (t.addChild d c).children = update t.children d (some c) ∧
    (t.addChild d c).parent = update t.parent c (some d) ∧
    (t.addChild d c).name = t.name ∧ (t.addChild d c).live = t.live ∧
      (t.addChild d c).root = t.root := by
  unfold addChild
  cases hchildren : t.children d <;> simp [setParent, setNext, setPrev, setChildren, hchildren]

end Fields

namespace WellFormed

section

variable (h : t.WellFormed kids)
include h

/-- A node that is in no list becomes a child, if its name is new. -/
theorem addChild (hd : d ∈ t.live) (hc : c ∈ t.live) (hroot : c ≠ t.root)
    (hnot : ∀ e ∈ t.live, c ∉ kids e) (hname : t.name c ≠ [])
    (hnew : ∀ e ∈ kids d, t.name e ≠ t.name c) :
    (t.addChild d c).WellFormed (update kids d (c :: kids d)) := by
  have hfirst : t.children d ≠ some c := by
    rw [h.forest.first_eq d hd]
    exact fun heq => hnot d hd (mem_of_head? heq)
  obtain ⟨hnext, hchildren, hpar, hnames, hlive, hroot'⟩ := addChild_others t c d
  constructor
  · rw [hlive]
    exact h.forest.push hd hc hnot hchildren hnext (addChild_prev t c d hfirst) hpar
  · rw [hlive, hroot']
    exact h.root_live
  · rw [hpar, hroot', update_of_ne (Ne.symm hroot)]
    exact h.root_parent
  · intro e he
    rw [hlive] at he
    rw [hnames]
    by_cases hed : e = d
    · subst hed
      rw [update_self]
      exact pairwise_cons.mpr ⟨fun b hb => Ne.symm (hnew b hb), h.distinct e he⟩
    · rw [update_of_ne hed]
      exact h.distinct e he
  intro e he b hb
  rw [hlive] at he
  rw [hnames]
  by_cases hed : e = d
  · subst hed
    rw [update_self] at hb
    rcases mem_cons.mp hb with rfl | hb
    · exact hname
    · exact h.nonempty e he b hb
  · rw [update_of_ne hed] at hb
    exact h.nonempty e he b hb

/-- A child leaves its list. -/
theorem removeChild (hd : d ∈ t.live) (hc : c ∈ kids d) :
    (t.removeChild d c).WellFormed (update kids d ((kids d).erase c)) ∧
      ∀ e ∈ t.live, c ∉ update kids d ((kids d).erase c) e := by
  obtain ⟨hlive, hroot, hnames, hpar⟩ := removeChild_others t c d
  obtain ⟨hprev1, -⟩ := skipForward_others t c d
  obtain ⟨hnext2, hchildren2, -⟩ := skipBack_others (t.skipForward d c) c
  have hlist := h.forest.siblings d hd
  have hself : (t.skipForward d c).next c = t.next c := by
    rw [(skipForward_links ..).1, if_neg (hlist.prev_ne_self hc)]
  have hforest : Forest t.live (t.removeChild d c).children (t.removeChild d c).next
      (t.removeChild d c).prev (t.removeChild d c).parent
      (update kids d ((kids d).erase c)) ∧
        ∀ e ∈ t.live, c ∉ update kids d ((kids d).erase c) e := by
    apply h.forest.remove hd hc
    · intro e
      rw [← (skipForward_links ..).2, ← hchildren2]
      rfl
    · intro y hy
      rw [← (skipForward_links t c d _).1, ← hnext2]
      exact update_of_ne hy _ _
    · intro y hy
      rw [← hself, ← hprev1, ← skipBack_prev]
      exact update_of_ne hy _ _
    · intro y hy
      rw [hpar, update_of_ne hy]
  have hsub : ∀ e, update kids d ((kids d).erase c) e ⊆ kids e := by
    intro e
    by_cases hed : e = d
    · subst hed
      rw [update_self]
      exact erase_subset
    · rw [update_of_ne hed]
      exact List.Subset.refl _
  refine ⟨⟨?_, ?_, ?_, ?_, ?_⟩, hforest.2⟩
  · rw [hlive]
    exact hforest.1
  · rw [hlive, hroot]
    exact h.root_live
  · rw [hpar, hroot, update_of_ne (Ne.symm (h.ne_root hd hc))]
    exact h.root_parent
  · intro e he
    rw [hlive] at he
    rw [hnames]
    by_cases hed : e = d
    · subst hed
      rw [update_self]
      exact (h.distinct e he).sublist erase_sublist
    · rw [update_of_ne hed]
      exact h.distinct e he
  intro e he b hb
  rw [hlive] at he
  rw [hnames]
  exact h.nonempty e he b (hsub e hb)

/-- A new node is in no list. -/
theorem nodeInit (ha : a ∉ t.live) (name : List Nat) (type : UInt32) :
    (t.nodeInit a name type).WellFormed (update kids a []) ∧
      ∀ e ∈ insert a t.live, a ∉ update kids a [] e := by
  have hne : ∀ e ∈ t.live, e ≠ a := by
    rintro e he rfl
    exact ha he
  have hkids : ∀ e ∈ t.live, update kids a [] e = kids e := fun e he => update_of_ne (hne e he) _ _
  refine ⟨⟨?_, ?_, ?_, ?_, ?_⟩, ?_⟩
  · apply h.forest.add ha
    · exact update_self a none t.children
    all_goals exact fun e he => update_of_ne (hne e he) _ _
  · exact mem_insert_of_mem h.root_live
  · exact (update_of_ne (hne _ h.root_live) _ _).trans h.root_parent
  · intro e he
    rcases mem_insert.mp he with rfl | he
    · rw [update_self]
      exact List.Pairwise.nil
    rw [hkids e he]
    refine (h.distinct e he).imp_of_mem fun {b b'} hb hb' hname => ?_
    show update t.name a _ b ≠ update t.name a _ b'
    rw [update_of_ne (hne b (h.forest.kids_live e he b hb)),
      update_of_ne (hne b' (h.forest.kids_live e he b' hb'))]
    exact hname
  · intro e he b hb
    rcases mem_insert.mp he with rfl | he
    · rw [update_self] at hb
      cases hb
    rw [hkids e he] at hb
    show update t.name a _ b ≠ []
    rw [update_of_ne (hne b (h.forest.kids_live e he b hb))]
    exact h.nonempty e he b hb
  intro e he hmem
  rcases mem_insert.mp he with rfl | he
  · rw [update_self] at hmem
    cases hmem
  · rw [hkids e he] at hmem
    exact ha (h.forest.kids_live e he a hmem)

/-- A node that is in no list is released. -/
theorem nodeFree (hroot : c ≠ t.root) (hnot : ∀ e ∈ t.live, c ∉ kids e) :
    (t.nodeFree c).WellFormed kids where
  forest := by
    apply h.forest.frame
    · intro e he
      have hlive : e ∈ t.live := mem_of_mem_erase he
      refine ⟨hlive, fun b hb => mem_erase.mpr ⟨?_, h.forest.kids_live e hlive b hb⟩⟩
      rintro rfl
      exact hnot e hlive hb
    all_goals exact fun _ _ => rfl
  root_live := mem_erase.mpr ⟨Ne.symm hroot, h.root_live⟩
  root_parent := h.root_parent
  distinct d hd := h.distinct d (mem_of_mem_erase hd)
  nonempty d hd := h.nonempty d (mem_of_mem_erase hd)

theorem setRefCount (a : Nat) (n : UInt32) : (t.setRefCount a n).WellFormed kids :=
  ⟨h.forest, h.root_live, h.root_parent, h.distinct, h.nonempty⟩

theorem nodeUnref (hroot : c ≠ t.root) (hnot : ∀ e ∈ t.live, c ∉ kids e) :
    (t.nodeUnref c).WellFormed kids := by
  unfold Tree.nodeUnref
  dsimp only
  split
  · exact (h.setRefCount c _).nodeFree hroot hnot
  · exact h.setRefCount c _

/-- The name of a node that is in no list changes. -/
theorem setName (hnot : ∀ e ∈ t.live, c ∉ kids e) (name : List Nat) :
    (t.setName c name).WellFormed kids where
  __ := h
  distinct d hd := by
    have hne : ∀ b ∈ kids d, b ≠ c := by
      rintro b hb rfl
      exact hnot d hd hb
    refine (h.distinct d hd).imp_of_mem fun {b b'} hb hb' hname => ?_
    show update t.name c name b ≠ update t.name c name b'
    rw [update_of_ne (hne b hb), update_of_ne (hne b' hb')]
    exact hname
  nonempty d hd b hb := by
    have hne : b ≠ c := by
      rintro rfl
      exact hnot d hd hb
    show update t.name c name b ≠ []
    rw [update_of_ne hne]
    exact h.nonempty d hd b hb

end

end WellFormed

/-! ### Directory operations -/

/-- A name that is stored as it is, and is not empty. -/
def GoodName (name : List Nat) : Prop := name ≠ [] ∧ name.length ≤ vfsNameMax
deriving Decidable

/-- The tree is well formed with some lists. -/
def Inv (t : Tree) : Prop := ∃ kids, t.WellFormed kids

section Operations

variable {ret : Int} {addr : Option Nat} {mem : Bool} {type : UInt32}

section

variable (hd : d ∈ t.live)
include hd

theorem Inv.dirCreate (h : t.Inv) (hname : GoodName name)
    (haddr : ∀ a ∈ addr, a ∉ t.live) (hcr : t.dirCreate addr mem d name type = some (ret, t')) :
    t'.Inv := by
  obtain ⟨kids, h⟩ := h
  obtain ⟨r, hfind, -, hnone⟩ := h.findChild_spec hd name
  unfold Tree.dirCreate dirFinddir at hcr
  rw [hfind] at hcr
  cases r with
  | some c =>
    cases hcr
    exact ⟨kids, h.setRefCount c _⟩
  | none =>
    cases addr with
    | none =>
      cases hcr
      exact ⟨kids, h⟩
    | some a =>
      have ha : a ∉ t.live := haddr a rfl
      obtain ⟨hinit, hnot⟩ := h.nodeInit ha name type
      have hroot : a ≠ t.root := fun heq => ha (heq ▸ h.root_live)
      by_cases hmem : type ≠ vfsDir ∧ mem = false
      case pos =>
        simp only [createNode, if_pos hmem] at hcr
        cases hcr
        exact ⟨_, hinit.nodeFree hroot hnot⟩
      case neg =>
      simp only [createNode, if_neg hmem] at hcr
      cases hcr
      have hstored : (t.nodeInit a name type).name a = name :=
        (update_self a _ t.name).trans (take_of_length_le hname.2)
      refine ⟨_, hinit.addChild (mem_insert_of_mem hd) (mem_insert_self a _)
        hroot hnot ?_ fun e he => ?_⟩
      · rw [hstored]
        exact hname.1
      -- No child of the directory has the name.
      have hda : d ≠ a := fun heq => ha (heq ▸ hd)
      rw [update_of_ne hda] at he
      have hea : e ≠ a := fun heq => ha (heq ▸ h.forest.kids_live d hd e he)
      rw [hstored]
      show update t.name a _ e ≠ name
      rw [update_of_ne hea]
      exact hnone rfl e he

/-- A child is removed and given back. -/
theorem WellFormed.unlist (h : t.WellFormed kids) (hc : c ∈ kids d) :
    ((t.removeChild d c).nodeUnref c).Inv := by
  obtain ⟨hrem, hnot⟩ := h.removeChild hd hc
  obtain ⟨hlive, hroot, -⟩ := removeChild_others t c d
  refine ⟨_, hrem.nodeUnref ?_ ?_⟩
  · rw [hroot]
    exact h.ne_root hd hc
  · rw [hlive]
    exact hnot

/-- A child is moved to another list under a new name. -/
theorem WellFormed.relist (h : t.WellFormed kids) (hc : c ∈ kids d)
    (hd' : d' ∈ t.live) (hname' : GoodName name') (hnew : ∀ e ∈ kids d', t.name e ≠ name') :
    (((t.removeChild d c).setName c (name'.take vfsNameMax)).addChild d' c).Inv := by
  obtain ⟨hrem, hnot⟩ := h.removeChild hd hc
  obtain ⟨hlive, hroot, hnames, -⟩ := removeChild_others t c d
  rw [← hlive] at hnot hd'
  rw [take_of_length_le hname'.2]
  have hstored : ((t.removeChild d c).setName c name').name c = name' := by
    simp [Tree.setName]
  refine ⟨_, (hrem.setName hnot name').addChild hd' ?_ ?_ hnot ?_ fun e he => ?_⟩
  · show c ∈ (t.removeChild d c).live
    rw [hlive]
    exact h.forest.kids_live d hd c hc
  · show c ≠ (t.removeChild d c).root
    rw [hroot]
    exact h.ne_root hd hc
  · rw [hstored]
    exact hname'.1
  have hec : e ≠ c := by
    rintro rfl
    exact hnot d' hd' he
  have hmem : e ∈ kids d' := by
    by_cases hdd : d' = d
    · subst hdd
      rw [update_self] at he
      exact mem_of_mem_erase he
    · rwa [update_of_ne hdd] at he
  rw [hstored]
  show update (t.removeChild d c).name c name' e ≠ name'
  rw [update_of_ne hec, hnames]
  exact hnew e hmem

theorem Inv.dirUnlink (h : t.Inv) (hunl : t.dirUnlink d name = some (ret, t')) : t'.Inv := by
  obtain ⟨kids, h⟩ := h
  obtain ⟨r, hfind, hsome, -⟩ := h.findChild_spec hd name
  unfold Tree.dirUnlink at hunl
  rw [hfind] at hunl
  cases r with
  | none =>
    cases hunl
    exact ⟨kids, h⟩
  | some c =>
    simp only at hunl
    split at hunl
    · cases hunl
      exact ⟨kids, h⟩
    split at hunl <;> cases hunl
    · exact ⟨kids, h⟩
    · exact h.unlist hd (hsome c rfl).1

theorem Inv.dirRmdir (h : t.Inv) (hrmdir : t.dirRmdir d name = some (ret, t')) : t'.Inv := by
  obtain ⟨kids, h⟩ := h
  obtain ⟨r, hfind, hsome, -⟩ := h.findChild_spec hd name
  unfold Tree.dirRmdir at hrmdir
  rw [hfind] at hrmdir
  cases r with
  | none =>
    cases hrmdir
    exact ⟨kids, h⟩
  | some c =>
    simp only at hrmdir
    iterate 2
      split at hrmdir
      · cases hrmdir
        exact ⟨kids, h⟩
    split at hrmdir <;> cases hrmdir
    · exact ⟨kids, h⟩
    · exact h.unlist hd (hsome c rfl).1

theorem Inv.dirRename (h : t.Inv) (hd' : d' ∈ t.live) (hname' : GoodName name')
    (hrename : t.dirRename d name d' name' = some (ret, t')) : t'.Inv := by
  obtain ⟨kids, h⟩ := h
  obtain ⟨r, hfind, hsome, -⟩ := h.findChild_spec hd name
  obtain ⟨r', hfind', -, hnone⟩ := h.findChild_spec hd' name'
  unfold Tree.dirRename at hrename
  rw [hfind] at hrename
  cases r with
  | none =>
    cases hrename
    exact ⟨kids, h⟩
  | some c =>
    simp only [hfind'] at hrename
    split at hrename
    · cases hrename
      exact ⟨kids, h⟩
    cases r' with
    | some _ =>
      cases hrename
      exact ⟨kids, h⟩
    | none =>
      cases hrename
      exact h.relist hd (hsome c rfl).1 hd' hname' (hnone rfl)

end

end Operations

/-! ### Runs -/

/-- An operation on directories that exist. `addr` and `mem` are what the allocators give. -/
inductive Call where
  | create (parent : Nat) (name : List Nat) (type : UInt32) (addr : Option Nat) (mem : Bool)
  | mkdir (parent : Nat) (name : List Nat) (addr : Option Nat) (mem : Bool)
  | unlink (parent : Nat) (name : List Nat)
  | rmdir (parent : Nat) (name : List Nat)
  | rename (oldParent : Nat) (oldName : List Nat) (newParent : Nat) (newName : List Nat)

/-- The node is a directory. -/
def IsDir (t : Tree) (d : Nat) : Prop := d ∈ t.live ∧ t.type d = vfsDir
deriving Decidable

/-- The tree after a call. The virtual file system calls the operations of directories, and an
allocator does not give what is in use. -/
def step (t : Tree) : Call → Option Tree
  | .create parent name type addr mem =>
    if t.IsDir parent ∧ ∀ a ∈ addr, a ∉ t.live then
      (t.dirCreate addr mem parent name type).map snd
    else none
  | .mkdir parent name addr mem =>
    if t.IsDir parent ∧ ∀ a ∈ addr, a ∉ t.live then
      (t.dirMkdir addr mem parent name).map snd
    else none
  | .unlink parent name =>
    if t.IsDir parent then (t.dirUnlink parent name).map snd else none
  | .rmdir parent name =>
    if t.IsDir parent then (t.dirRmdir parent name).map snd else none
  | .rename oldParent oldName newParent newName =>
    if t.IsDir oldParent ∧ t.IsDir newParent then
      (t.dirRename oldParent oldName newParent newName).map snd
    else none

/-- New names are not empty and not too long. -/
def Careful : Call → Prop
  | .create _ name .. => GoodName name
  | .mkdir _ name .. => GoodName name
  | .rename _ _ _ name => GoodName name
  | .unlink .. => True
  | .rmdir .. => True

instance (call : Call) : Decidable (Careful call) := by
  cases call <;> unfold Careful <;> infer_instance

theorem Inv.step (h : t.Inv) {call} (hcare : Careful call)
    (hstep : t.step call = some t') : t'.Inv := by
  cases call with
  | create | mkdir =>
    obtain ⟨⟨hpar, haddr⟩, r, hcr, rfl⟩ := ite_map_eq_some hstep
    exact h.dirCreate hpar.1 hcare haddr hcr
  | unlink parent name =>
    obtain ⟨hpar, r, hunl, rfl⟩ := ite_map_eq_some hstep
    exact h.dirUnlink hpar.1 hunl
  | rmdir parent name =>
    obtain ⟨hpar, r, hrmdir, rfl⟩ := ite_map_eq_some hstep
    exact h.dirRmdir hpar.1 hrmdir
  | rename oldParent oldName newParent newName =>
    obtain ⟨⟨hold, hnew⟩, r, hrename, rfl⟩ := ite_map_eq_some hstep
    exact h.dirRename hold.1 hnew.1 hcare hrename

/-- `ramfs_mount`: a root directory without children. -/
def mount (root : Nat) : Tree where
  live := {root}
  root := root
  name _ := []
  type _ := vfsDir
  refCount _ := 1
  openCount _ := 0
  parent _ := none
  children _ := none
  next _ := none
  prev _ := none

theorem wellFormed_mount (root : Nat) : (mount root).WellFormed fun _ => [] where
  forest := ⟨fun _ _ => DList.nil, fun _ _ => rfl, fun _ _ _ hc => (nomatch hc),
    fun _ _ _ hc => (nomatch hc)⟩
  root_live := Finset.mem_singleton_self root
  root_parent := rfl
  distinct _ _ := List.Pairwise.nil
  nonempty _ _ _ hc := nomatch hc

/-- After every run of operations with good names on a new file system, what is reached from
the root is a tree. -/
theorem isTree_after_run {root : Nat} {calls : List Call}
    (hrun : GuardedRun step (fun _ call => Careful call) (mount root) calls t) : t.IsTree := by
  obtain ⟨kids, h⟩ := hrun.inv Inv (fun _ _ _ h => h.step)
    ⟨_, wellFormed_mount root⟩
  exact h.isTree

/-- Directories `a` and `a/b` and a file `a/b/f` are made, `a` is moved below `b`, and `c` is
made at the root. -/
def moveBelowItself : List Call :=
  [.mkdir 0 [97] (some 1) true, .mkdir 1 [98] (some 2) true, .create 2 [102] vfsFile (some 3) true,
    .rename 0 [97] 2 [97], .mkdir 0 [99] (some 4) true]

theorem isTree_after_moveBelowItself :
    ∃ t, GuardedRun step (fun _ call => Careful call) (mount 0) moveBelowItself t ∧
      t.children 2 = some 1 ∧ t.children 1 = some 2 ∧ t.IsTree := by
  apply exists_and_of₂ (by decide +kernel)
  intro t hrun _ _
  exact isTree_after_run hrun

/-- A directory is made at the root with an empty name, as `vfs_mkdir` does for `/`. -/
theorem mkdir_empty_name :
    ∃ t, (mount 0).step (.mkdir 0 [] (some 1) true) = some t ∧ t.Lists 0 1 ∧ t.name 1 = [] :=
  ⟨_, rfl, .first rfl, rfl⟩

end Tree

end Kurios.Ramfs
