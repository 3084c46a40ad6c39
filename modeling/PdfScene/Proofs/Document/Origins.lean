import PdfScene.Proofs.Document.Circles

/-!
# Where the nodes of a page tree stand

Of two nodes with equal entries one may be the other, reached in another way, or a copy of it. What
tells them apart is where they stand in the document, their `Origin`: a node that a reference leads to
is an object of the library, namely the one under the last of the references that are followed
(`Library.last`), and any other one is an item of a list of kids. That list is an entry of its node, or
an object again. `Stands` is what stands below a root, each with its origin, in however many ways it is
reached. One origin is that of one node only, `Stands.node_eq`.
-/

set_option autoImplicit false

namespace PdfScene

namespace Library

variable {lib : Library} {r s : ObjRef}

/-- The last of the references that lead from one to the next, after `room` steps at most. -/
def lastWithin (lib : Library) : Nat → ObjRef → ObjRef
  | 0, r => r
  | room + 1, r =>
    match lib.find? r with
    | some (.ref s) => lastWithin lib room s
    | _ => r

/-- The reference under which the object stands that a reference leads to. -/
def last (lib : Library) (r : ObjRef) : ObjRef := lib.lastWithin referenceLimit r

theorem find?_lastWithin (room : Nat) (h : lib.resolveWithin room (.ref r) ≠ .null) :
    lib.find? (lib.lastWithin room r) = some (lib.resolveWithin room (.ref r)) := by
  induction room generalizing r with
  | zero => exact absurd rfl h
  | succ room ih =>
    rw [resolveWithin] at h ⊢
    cases hfind : lib.find? r with
    | none => simp [hfind] at h
    | some o =>
      simp only [hfind] at h ⊢
      cases o with
      | ref s =>
        rw [lastWithin, hfind]
        exact ih h
      | _ =>
        rw [lastWithin, hfind]
        cases room with
        | zero => exact absurd rfl h
        | succ room => exact hfind

/-- **What a reference leads to stands under its last one.** -/
theorem find?_last (h : lib.resolve (.ref r) ≠ .null) :
    lib.find? (lib.last r) = some (lib.resolve (.ref r)) :=
  find?_lastWithin referenceLimit h

theorem resolve_eq_of_last (h : lib.last r = lib.last s) (hr : lib.resolve (.ref r) ≠ .null)
    (hs : lib.resolve (.ref s) ≠ .null) : lib.resolve (.ref r) = lib.resolve (.ref s) := by
  have hfind := find?_last hr
  rw [h, find?_last hs, Option.some.injEq] at hfind
  exact hfind.symm

end Library

namespace PageTree

/-- Where a node of the page tree stands, or a list of kids. -/
inductive Origin where
  /-- Outside the library, where the root stands if it is no reference. -/
  | outside
  /-- The object that is defined under a reference. -/
  | object (r : ObjRef)
  /-- The kids that stand in the node itself. -/
  | entry (node : Origin)
  /-- What stands in a list at an index. -/
  | item (list : Origin) (i : Nat)
  deriving DecidableEq

/-- The origin of what is the `i`-th in a list. -/
def Origin.ofItem (lib : Library) (list : Origin) (i : Nat) (o : Obj) : Origin :=
  match o.ref? with
  | some r => .object (lib.last r)
  | none => .item list i

/-- The origin of the kids that a dictionary has. -/
def Origin.ofEntry (lib : Library) (node : Origin) (d : Dict) : Origin :=
  match d.get? "Kids" with
  | some (.ref r) => .object (lib.last r)
  | _ => .entry node

variable {lib : Library} {root o o' k : Obj} {x y : Origin} {d d' : Dict} {r s : ObjRef} {i j : Nat}

theorem Origin.ofItem_ref (h : o.ref? = some r) :
    Origin.ofItem lib x i o = .object (lib.last r) := by
  rw [Origin.ofItem, h]

theorem Origin.ofItem_direct (h : o.ref? = none) : Origin.ofItem lib x i o = .item x i := by
  rw [Origin.ofItem, h]

/-- Where two items have one origin, they are references to one object, or the same item. -/
theorem Origin.ofItem_inj (h : Origin.ofItem lib x i o = Origin.ofItem lib y j o') :
    (∃ r s, o.ref? = some r ∧ o'.ref? = some s ∧ lib.last r = lib.last s) ∨
      o.ref? = none ∧ o'.ref? = none ∧ x = y ∧ i = j := by
  cases href : o.ref? with
  | some r =>
    rw [ofItem_ref href] at h
    cases href' : o'.ref? with
    | some s =>
      rw [ofItem_ref href', object.injEq] at h
      exact .inl ⟨r, s, rfl, rfl, h⟩
    | none =>
      rw [ofItem_direct href'] at h
      cases h
  | none =>
    rw [ofItem_direct href] at h
    cases href' : o'.ref? with
    | some s =>
      rw [ofItem_ref href'] at h
      cases h
    | none =>
      rw [ofItem_direct href', item.injEq] at h
      exact .inr ⟨rfl, rfl, h.1, h.2⟩

/-- Where the kids of two nodes have one origin, they are under references to one object, or the nodes
have one origin too. -/
theorem Origin.ofEntry_inj (h : Origin.ofEntry lib x d = Origin.ofEntry lib y d') :
    (∃ r s, d.get? "Kids" = some (.ref r) ∧ d'.get? "Kids" = some (.ref s) ∧
      lib.last r = lib.last s) ∨ x = y := by
  unfold Origin.ofEntry at h
  split at h
  · next r hr =>
    split at h
    · next s hs => exact .inl ⟨r, s, hr, hs, Origin.object.inj h⟩
    · cases h
  · split at h
    · cases h
    · exact .inr (Origin.entry.inj h)

/-! ## Kids -/

theorem kids_of_ref (h : d.get? "Kids" = some (.ref r)) :
    kids lib d = (lib.resolve (.ref r)).array?.getD [] := by
  rw [kids, Library.array?, Library.get?, h, Option.bind_some]
  cases hresolve : lib.resolve (.ref r) <;> rfl

theorem resolve_ne_null_of_kids (h : d.get? "Kids" = some (.ref r)) (hk : k ∈ kids lib d) :
    lib.resolve (.ref r) ≠ .null := by
  intro hnull
  rw [kids_of_ref h, hnull] at hk
  cases hk

/-- **Kids of one origin are the same**, if there are any. -/
theorem kids_eq_of_ofEntry {k' : Obj} (h : Origin.ofEntry lib x d = Origin.ofEntry lib y d')
    (hxy : x ≠ y) (hk : k ∈ kids lib d) (hk' : k' ∈ kids lib d') : kids lib d = kids lib d' := by
  obtain ⟨r, s, hr, hs, hlast⟩ := (Origin.ofEntry_inj h).resolve_right hxy
  rw [kids_of_ref hr, kids_of_ref hs]
  rw [Library.resolve_eq_of_last hlast (resolve_ne_null_of_kids hr hk)
    (resolve_ne_null_of_kids hs hk')]

theorem ofObj_congr (h : lib.resolve o = lib.resolve o') : Node.ofObj lib o = Node.ofObj lib o' := by
  rw [Node.ofObj, Node.ofObj, Role.ofObj, Role.ofObj, h]

theorem resolve_ne_null_of_ne_other (h : Node.ofObj lib o ≠ .other) : lib.resolve o ≠ .null := by
  intro hnull
  refine h ?_
  rw [Node.ofObj, Role.ofObj, hnull]

/-- The kids of a node, and of everything else none. -/
def kidsOf (lib : Library) (o : Obj) : List Obj :=
  match Node.ofObj lib o with
  | .tree d => kids lib d
  | _ => []

/-- The origin of the kids of a node. -/
def Origin.ofKids (lib : Library) (x : Origin) (o : Obj) : Origin :=
  match Node.ofObj lib o with
  | .tree d => .ofEntry lib x d
  | _ => .entry x

theorem kidsOf_tree (h : Node.ofObj lib o = .tree d) : kidsOf lib o = kids lib d := by
  rw [kidsOf, h]

theorem tree_of_kidsOf (h : k ∈ kidsOf lib o) : ∃ d, Node.ofObj lib o = .tree d := by
  unfold kidsOf at h
  split at h
  · exact ⟨_, ‹_›⟩
  · cases h

theorem Origin.ofKids_tree (h : Node.ofObj lib o = .tree d) :
    Origin.ofKids lib x o = .ofEntry lib x d := by
  rw [ofKids, h]

/-! ## What stands below a root -/

/-- What stands below a root, with its origin. -/
inductive Stands (lib : Library) (root : Obj) : Origin → Obj → Prop where
  | root : Stands lib root (.ofItem lib .outside 0 root) root
  | kid {x : Origin} {o k : Obj} {i : Nat} (ho : Stands lib root x o)
      (hk : (kidsOf lib o)[i]? = some k) :
      Stands lib root (.ofItem lib (.ofKids lib x o) i k) k

theorem Stands.origin_ref (h : Stands lib root x o) (href : o.ref? = some r) :
    x = .object (lib.last r) := by
  cases h with
  | root => exact Origin.ofItem_ref href
  | kid _ _ => exact Origin.ofItem_ref href

/-- What stands below a root is the root, or a kid of something that stands there. -/
theorem Stands.root_or_kid (h : Stands lib root x k) :
    k = root ∧ x = .ofItem lib .outside 0 k ∨
      ∃ y o i, Stands lib root y o ∧ (kidsOf lib o)[i]? = some k ∧
        x = .ofItem lib (.ofKids lib y o) i k := by
  cases h with
  | root => exact .inl ⟨rfl, rfl⟩
  | kid ho hk => exact .inr ⟨_, _, _, ho, hk, rfl⟩

theorem ofKids_ne_outside : Origin.ofKids lib x o ≠ .outside := by
  unfold Origin.ofKids Origin.ofEntry
  split
  · split <;> exact Origin.noConfusion
  · exact Origin.noConfusion

/-- **Nodes of one origin have the same kids**, if they have any. -/
theorem kidsOf_eq_of_ofKids {k' : Obj} (h : Origin.ofKids lib x o = Origin.ofKids lib y o')
    (hsame : x = y → Node.ofObj lib o = Node.ofObj lib o') (hk : k ∈ kidsOf lib o)
    (hk' : k' ∈ kidsOf lib o') : kidsOf lib o = kidsOf lib o' := by
  by_cases hxy : x = y
  · rw [kidsOf, kidsOf, hsame hxy]
  · obtain ⟨d, hnode⟩ := tree_of_kidsOf hk
    obtain ⟨d', hnode'⟩ := tree_of_kidsOf hk'
    rw [Origin.ofKids_tree hnode, Origin.ofKids_tree hnode'] at h
    rw [kidsOf_tree hnode] at hk ⊢
    rw [kidsOf_tree hnode'] at hk' ⊢
    exact kids_eq_of_ofEntry h hxy hk hk'

theorem node_eq_of_last (href : o.ref? = some r) (href' : o'.ref? = some s)
    (hlast : lib.last r = lib.last s) (hnode : Node.ofObj lib o ≠ .other)
    (hnode' : Node.ofObj lib o' ≠ .other) : Node.ofObj lib o = Node.ofObj lib o' := by
  obtain rfl : o = .ref r := eq_of_ref? href rfl
  obtain rfl : o' = .ref s := eq_of_ref? href' rfl
  exact ofObj_congr (Library.resolve_eq_of_last hlast (resolve_ne_null_of_ne_other hnode)
    (resolve_ne_null_of_ne_other hnode'))

theorem ne_other_of_kidsOf (h : k ∈ kidsOf lib o) : Node.ofObj lib o ≠ .other := by
  obtain ⟨d, hnode⟩ := tree_of_kidsOf h
  rw [hnode]
  exact Node.noConfusion

/-- **One origin is that of one node only.** The induction is on the way down to the node. -/
theorem Stands.node_eq (h : Stands lib root x o) (h' : Stands lib root x o')
    (hnode : Node.ofObj lib o ≠ .other) (hnode' : Node.ofObj lib o' ≠ .other) :
    Node.ofObj lib o = Node.ofObj lib o' := by
  induction h generalizing o' with
  | root =>
    rcases h'.root_or_kid with ⟨rfl, -⟩ | ⟨y, p, i, -, -, hx⟩
    · rfl
    · rcases Origin.ofItem_inj hx with ⟨r, s, href, href', hlast⟩ | ⟨-, -, hlist, -⟩
      · exact node_eq_of_last href href' hlast hnode hnode'
      · exact absurd hlist.symm ofKids_ne_outside
  | @kid x o k i ho hk ih =>
    have hroot_or_kid := h'.root_or_kid
    clear h'
    rcases hroot_or_kid with ⟨-, hx⟩ | ⟨y, p, j, hp, hk', hx⟩
    · rcases Origin.ofItem_inj hx with ⟨r, s, href, href', hlast⟩ | ⟨-, -, hlist, -⟩
      · exact node_eq_of_last href href' hlast hnode hnode'
      · exact absurd hlist ofKids_ne_outside
    · rcases Origin.ofItem_inj hx with ⟨r, s, href, href', hlast⟩ | ⟨-, -, hlist, rfl⟩
      · exact node_eq_of_last href href' hlast hnode hnode'
      · have hmem := List.mem_of_getElem? hk
        have hmem' := List.mem_of_getElem? hk'
        have hsame : x = y → Node.ofObj lib o = Node.ofObj lib p := by
          rintro rfl
          exact ih hp (ne_other_of_kidsOf hmem) (ne_other_of_kidsOf hmem')
        rw [kidsOf_eq_of_ofKids hlist hsame hmem hmem', hk', Option.some.injEq] at hk
        rw [hk]

/-! ## What can be reached in two ways -/

/-- Two references to nodes lead to the object under `r`. -/
def TwoReferences (lib : Library) (root : Obj) (r : ObjRef) : Prop :=
  ∃ s t, s ≠ t ∧ Stands lib root (.object r) (.ref s) ∧ Stands lib root (.object r) (.ref t) ∧
    Node.ofObj lib (.ref s) ≠ .other ∧ Node.ofObj lib (.ref t) ≠ .other

/-- Two nodes have one list of kids, and a node stands in it itself. -/
def SharedKids (lib : Library) (root : Obj) : Prop :=
  ∃ x o y p k, x ≠ y ∧ Stands lib root x o ∧ Stands lib root y p ∧
    Origin.ofKids lib x o = Origin.ofKids lib y p ∧ k ∈ kidsOf lib o ∧ k ∈ kidsOf lib p ∧
    k.ref? = none ∧ Node.ofObj lib k ≠ .other

end PageTree

end PdfScene
