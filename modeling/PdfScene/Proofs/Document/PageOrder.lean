import Mathlib
import PdfScene.Proofs.Document.Circles
import PdfScene.Proofs.Store.Scanned

/-!
# The order of pages

What the pages of a tree are is plain where references are not looked at: they are its leaves from left
to right, each with the nodes above it, `Unfolds`. A walk finds these pages if it never comes to a
reference twice. Nodes stand at places, `At`, and what has been entered always stands before what is
still to be visited (`Passed`), neither there nor below. So where no reference stands at two places,
`Distinct`, a walk passes over none.
-/

set_option autoImplicit false

namespace PdfScene.PageTree

variable {lib : Library} {o : Obj} {os roots : List Obj} {ancestors : List Dict}
  {entered between after : List ObjRef} {found : List Found} {p q : List Nat} {i : Nat}

/-- The leaves of the trees below some nodes from left to right, which are the pages there, each with
the nodes above it. -/
inductive Unfolds (lib : Library) : List Dict → List Obj → List Found → Prop where
  | nil {ancestors : List Dict} : Unfolds lib ancestors [] []
  | page {ancestors : List Dict} {o : Obj} {os : List Obj} {d : Dict} {found : List Found}
      (hnode : Node.ofObj lib o = .page d) (rest : Unfolds lib ancestors os found) :
      Unfolds lib ancestors (o :: os) (⟨o.ref?, d, ancestors⟩ :: found)
  | tree {ancestors : List Dict} {o : Obj} {os : List Obj} {d : Dict} {inner found : List Found}
      (hnode : Node.ofObj lib o = .tree d) (below : Unfolds lib (d :: ancestors) (kids lib d) inner)
      (rest : Unfolds lib ancestors os found) : Unfolds lib ancestors (o :: os) (inner ++ found)
  | other {ancestors : List Dict} {o : Obj} {os : List Obj} {found : List Found}
      (hnode : Node.ofObj lib o = .other) (rest : Unfolds lib ancestors os found) :
      Unfolds lib ancestors (o :: os) found

/-! ## Places -/

/-- What stands at a place of some trees. A place is the number of the tree and those of the kids on the
way down, the last one first, so that a place is below those that it ends in. -/
inductive At (lib : Library) (roots : List Obj) : List Nat → Obj → Prop where
  | root {i : Nat} {o : Obj} (ho : roots[i]? = some o) : At lib roots [i] o
  | kid {p : List Nat} {o k : Obj} {d : Dict} {i : Nat} (ho : At lib roots p o)
      (hnode : Node.ofObj lib o = .tree d) (hk : (kids lib d)[i]? = some k) : At lib roots (i :: p) k

/-- No reference to a page or to a node with kids stands at two places. -/
def Distinct (lib : Library) (roots : List Obj) : Prop :=
  ∀ p q o r, At lib roots p o → At lib roots q o → o.ref? = some r → Node.ofObj lib o ≠ .other → p = q

/-- Nodes that stand side by side below a place, from the `i`-th on. -/
def Placed (lib : Library) (roots : List Obj) (p : List Nat) (i : Nat) (os : List Obj) : Prop :=
  ∀ j o, os[j]? = some o → At lib roots ((i + j) :: p) o

theorem Placed.head (h : Placed lib roots p i (o :: os)) : At lib roots (i :: p) o := h 0 o rfl

theorem Placed.tail (h : Placed lib roots p i (o :: os)) : Placed lib roots p (i + 1) os := by
  intro j k hk
  rw [Nat.add_right_comm]
  exact h (j + 1) k hk

theorem Placed.all (lib : Library) (roots : List Obj) : Placed lib roots [] 0 roots := by
  intro j k hk
  rw [Nat.zero_add]
  exact .root hk

theorem Placed.kids {d : Dict} (ho : At lib roots p o) (hnode : Node.ofObj lib o = .tree d) :
    Placed lib roots p 0 (kids lib d) := by
  intro j k hk
  rw [Nat.zero_add]
  exact ho.kid hnode hk

/-- A reference stands at a place. -/
def RefAt (lib : Library) (roots : List Obj) (r : ObjRef) (q : List Nat) : Prop :=
  ∃ o, At lib roots q o ∧ o.ref? = some r

/-- What has been entered since stands at a place or below it. -/
def Below (lib : Library) (roots : List Obj) (p : List Nat) (entered after : List ObjRef) : Prop :=
  ∀ r ∈ after, r ∈ entered ∨ ∃ q, RefAt lib roots r q ∧ p <:+ q

namespace Below

theorem refl : Below lib roots p entered entered := fun _ hr => .inl hr

theorem trans (h : Below lib roots p entered between) (h' : Below lib roots p between after) :
    Below lib roots p entered after := by
  intro r hr
  rcases h' r hr with hr | hr
  · exact h r hr
  · exact .inr hr

theorem up (h : Below lib roots (i :: p) entered after) : Below lib roots p entered after := by
  intro r hr
  rcases h r hr with hr | ⟨q, hq, hbelow⟩
  · exact .inl hr
  · exact .inr ⟨q, hq, (List.suffix_cons i p).trans hbelow⟩

theorem enter (ho : At lib roots p o) : Below lib roots p entered (enter o entered) := by
  intro r hr
  rcases mem_enter.mp hr with hr | href
  · exact .inl hr
  · exact .inr ⟨p, ⟨o, ho, href⟩, List.suffix_refl p⟩

end Below

/-- **What is entered by visits to nodes below a place stands below it.** -/
theorem Visits.entered_below (h : Visits lib ancestors os entered after found)
    (hplaced : Placed lib roots p i os) : Below lib roots p entered after := by
  induction h generalizing p i with
  | nil => exact .refl
  | again _ _ _ ih => exact ih hplaced.tail
  | page _ _ _ ih => exact (Below.enter hplaced.head).up.trans (ih hplaced.tail)
  | tree _ hnode _ _ ihbelow ihrest =>
    have hbelow := ihbelow (.kids hplaced.head hnode)
    exact ((Below.enter hplaced.head).trans hbelow).up.trans (ihrest hplaced.tail)
  | other _ _ _ ih => exact (Below.enter hplaced.head).up.trans (ih hplaced.tail)

/-- What has been entered stands neither at the places from the `i`-th below `p` on, nor below them. -/
def Passed (lib : Library) (roots : List Obj) (p : List Nat) (i : Nat) (entered : List ObjRef) : Prop :=
  ∀ r ∈ entered, ∃ q, RefAt lib roots r q ∧ ∀ j, ¬ ((i + j) :: p) <:+ q

/-- A node is passed with all that has been entered there and below. -/
theorem Passed.next (h : Passed lib roots p i entered)
    (hbelow : Below lib roots (i :: p) entered after) : Passed lib roots p (i + 1) after := by
  intro r hr
  rcases hbelow r hr with hr | ⟨q, hq, hbelow⟩
  · obtain ⟨q, hq, hpassed⟩ := h r hr
    refine ⟨q, hq, fun j => ?_⟩
    rw [Nat.add_assoc]
    exact hpassed (1 + j)
  · refine ⟨q, hq, fun j hj => ?_⟩
    have hsame := (List.suffix_of_suffix_length_le hbelow hj (by simp)).eq_of_length (by simp)
    rw [List.cons.injEq] at hsame
    omega

/-- Where the kids of a node are come to, what has been entered so far is passed. -/
theorem Passed.kids (h : Passed lib roots p i entered) (ho : At lib roots (i :: p) o) :
    Passed lib roots (i :: p) 0 (enter o entered) := by
  intro r hr
  rcases mem_enter.mp hr with hr | href
  · obtain ⟨q, hq, hpassed⟩ := h r hr
    exact ⟨q, hq, fun j hj => hpassed 0 ((List.suffix_cons _ _).trans hj)⟩
  · refine ⟨i :: p, ⟨o, ho, href⟩, fun j hj => ?_⟩
    have hlength := hj.length_le
    simp only [List.length_cons] at hlength
    omega

/-- A reference that has been entered leads to nothing if it has been passed. -/
theorem Passed.other_of_mem {r : ObjRef} (h : Passed lib roots p i entered)
    (hdistinct : Distinct lib roots) (ho : At lib roots (i :: p) o) (href : o.ref? = some r)
    (hr : r ∈ entered) : Node.ofObj lib o = .other := by
  by_contra hnode
  obtain ⟨q, ⟨o', ho', href'⟩, hpassed⟩ := h r hr
  obtain rfl := eq_of_ref? href href'
  have hsame : i :: p = q := hdistinct _ _ o r ho ho' href hnode
  exact hpassed 0 (hsame ▸ List.suffix_refl _)

/-- **A walk that comes to no node twice finds the leaves from left to right.** -/
theorem Visits.unfolds (h : Visits lib ancestors os entered after found)
    (hdistinct : Distinct lib roots) (hplaced : Placed lib roots p i os)
    (hpassed : Passed lib roots p i entered) : Unfolds lib ancestors os found := by
  induction h generalizing p i with
  | nil => exact .nil
  | again href hr rest ih =>
    have hnode := hpassed.other_of_mem hdistinct hplaced.head href hr
    exact .other hnode (ih hplaced.tail (hpassed.next .refl))
  | page hfresh hnode rest ih =>
    exact .page hnode (ih hplaced.tail (hpassed.next (.enter hplaced.head)))
  | tree hfresh hnode below rest ihbelow ihrest =>
    have hkids := Placed.kids hplaced.head hnode
    have hbelow := (Below.enter hplaced.head).trans (below.entered_below hkids)
    exact .tree hnode (ihbelow hkids (hpassed.kids hplaced.head))
      (ihrest hplaced.tail (hpassed.next hbelow))
  | other hfresh hnode rest ih =>
    exact .other hnode (ih hplaced.tail (hpassed.next (.enter hplaced.head)))

/-! ## The pages of a tree -/

/-- **What the walk through a page tree comes to.** It has an end if and only if no node below the root
is a direct descendant of itself. Where it has one, it visits nodes and enters no reference twice, the
pages are those found on the way, numbered from 0 on in this order, and if no reference to a node stands
at two places, they are the leaves from left to right. -/
theorem leaves_spec (lib : Library) (root : Obj) :
    ((walk lib [] .start root).isSome ↔ ¬ HasCircle lib root) ∧
      ∀ w, walk lib [] .start root = some w →
        ∃ entered found, Visits lib [] [root] [] entered found ∧ entered.Nodup ∧
          (∀ r, w.visited.contains r ↔ r ∈ entered) ∧
          leaves lib root = found.mapIdx Found.leaf ∧
          (Distinct lib [root] → Unfolds lib [] [root] found) := by
  refine ⟨walk_isSome_iff lib root, fun w hw => ?_⟩
  obtain ⟨entered, found, hvisits, hstands⟩ := leads_of_walk hw [] [] .start
  refine ⟨entered, found, hvisits, hvisits.nodup List.nodup_nil, hstands.visited, ?_, ?_⟩
  · rw [leaves, hw]
    exact hstands.leaves
  · intro hdistinct
    exact hvisits.unfolds hdistinct (.all lib [root]) fun r hr => absurd hr List.not_mem_nil

/-- A tree of two pages, one of them under a reference. -/
def mixedKids : List Obj := [.ref ⟨2, 0⟩, .dict pageNode]

def mixedPages : Library :=
  (Library.empty.insert ⟨1, 0⟩ (.dict (treeNode (.array mixedKids)))).insert ⟨2, 0⟩ (.dict pageNode)

theorem ofObj_mixed_root :
    Node.ofObj mixedPages (.ref ⟨1, 0⟩) = .tree (treeNode (.array mixedKids)) := by
  refine (ofObj_ref ?_).trans (ofObj_treeNode _ _)
  rw [mixedPages, Library.find?_insert, if_neg (by decide), Library.find?_insert, if_pos rfl]

theorem ofObj_mixed_page : Node.ofObj mixedPages (.ref ⟨2, 0⟩) = .page pageNode := by
  refine (ofObj_ref ?_).trans (ofObj_pageNode _)
  rw [mixedPages, Library.find?_insert, if_pos rfl]

theorem kids_mixed : kids mixedPages (treeNode (.array mixedKids)) = mixedKids := kids_treeNode rfl

theorem at_mixed {q : List Nat} {o : Obj} (h : At mixedPages [.ref ⟨1, 0⟩] q o) :
    q = [0] ∧ o = .ref ⟨1, 0⟩ ∨ q = [0, 0] ∧ o = .ref ⟨2, 0⟩ ∨ q = [1, 0] ∧ o = .dict pageNode := by
  induction h with
  | @root i o ho =>
    match i, ho with
    | 0, ho => cases ho; exact .inl ⟨rfl, rfl⟩
  | @kid p o k d i ho hnode hk ih =>
    rcases ih with ⟨rfl, rfl⟩ | ⟨rfl, rfl⟩ | ⟨rfl, rfl⟩
    · rw [ofObj_mixed_root] at hnode
      cases hnode
      rw [kids_mixed] at hk
      match i, hk with
      | 0, hk => cases hk; exact .inr (.inl ⟨rfl, rfl⟩)
      | 1, hk => cases hk; exact .inr (.inr ⟨rfl, rfl⟩)
    · rw [ofObj_mixed_page] at hnode
      cases hnode
    · rw [ofObj_pageNode] at hnode
      cases hnode

theorem distinct_mixed : Distinct mixedPages [.ref ⟨1, 0⟩] := by
  intro p q o r hp hq _ _
  rcases at_mixed hp with ⟨rfl, rfl⟩ | ⟨rfl, rfl⟩ | ⟨rfl, rfl⟩ <;>
    rcases at_mixed hq with ⟨rfl, ho⟩ | ⟨rfl, ho⟩ | ⟨rfl, ho⟩ <;> cases ho <;> rfl

theorem visits_mixed : Visits mixedPages [] [.ref ⟨1, 0⟩] [] [⟨1, 0⟩, ⟨2, 0⟩]
    ([⟨some ⟨2, 0⟩, pageNode, [treeNode (.array mixedKids)]⟩,
      ⟨none, pageNode, [treeNode (.array mixedKids)]⟩] ++ []) := by
  refine .tree (fun _ _ => List.not_mem_nil) ofObj_mixed_root ?_ .nil
  rw [kids_mixed]
  refine .page ?_ ofObj_mixed_page (.page ?_ (ofObj_pageNode _) .nil)
  · rintro r h
    cases h
    decide
  · rintro r h
    cases h

theorem leaves_spec_mixed :
    (walk mixedPages [] .start (.ref ⟨1, 0⟩)).isSome ∧ Distinct mixedPages [.ref ⟨1, 0⟩] ∧
    ∃ found, leaves mixedPages (.ref ⟨1, 0⟩) = found.mapIdx Found.leaf ∧
      Unfolds mixedPages [] [.ref ⟨1, 0⟩] found := by
  have hsome := (leaves_spec mixedPages (.ref ⟨1, 0⟩)).1.mpr (not_hasCircle_of_visits visits_mixed)
  obtain ⟨w, hw⟩ := Option.isSome_iff_exists.mp hsome
  obtain ⟨entered, found, -, -, -, hleaves, hunfolds⟩ := (leaves_spec mixedPages _).2 w hw
  exact ⟨hsome, distinct_mixed, found, hleaves, hunfolds distinct_mixed⟩

end PdfScene.PageTree
