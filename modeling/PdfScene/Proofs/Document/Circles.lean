import Mathlib
import PdfScene.Proofs.Document.Visiting
import PdfScene.Proofs.Store.Holdings
import PdfScene.Proofs.Store.Reach

/-!
# Circles in the page tree

A walk enters a reference once, so references alone never keep it from its end. What can is a row of
nodes that stand in the lists of kids themselves, each a kid of the one before: nothing is remembered
of them. `walk_isSome_iff` says that there is nothing else, and that such a row has to be a circle: a
walk has an end if and only if no node below the root is a direct descendant of itself.

That a circle keeps a walk from its end is seen from what a walk leaves behind. Each node that it came
to is then `Closed`: all ways down from it come to a reference that has been entered, or end. The
other direction needs that only so many objects can come up below a root, so that where there is no
circle the rows of direct kids are finite. A walk then makes progress in two ways: it goes down such a
row, or it enters one more of the references that are defined (`pending`).
-/

set_option autoImplicit false

namespace PdfScene.PageTree

open Relation (ReflTransGen TransGen)

variable {lib : Library} {root o k : Obj}

/-! ## Kids -/

/-- A node is a kid of another. -/
def Kid (lib : Library) (o k : Obj) : Prop := ∃ d, Node.ofObj lib o = .tree d ∧ k ∈ kids lib d

/-- A node stands among the kids of another itself, and not as a reference. -/
def DirectKid (lib : Library) (o k : Obj) : Prop := Kid lib o k ∧ k.ref? = none

/-- A node below the root is a direct descendant of itself. -/
def HasCircle (lib : Library) (root : Obj) : Prop :=
  ∃ o, ReflTransGen (Kid lib) root o ∧ TransGen (DirectKid lib) o o

theorem resolve_ne_null_of_node {d : Dict} (h : Node.ofObj lib o = .tree d) :
    lib.resolve o ≠ .null := fun hnull => by
  have hdict := dict_of_tree h
  rw [hnull] at hdict
  cases hdict

theorem Kid.reaches (h : Kid lib o k) : lib.Reaches o k := by
  obtain ⟨d, hnode, hk⟩ := h
  refine (Library.reaches_resolve (resolve_ne_null_of_node hnode)).trans ?_
  unfold kids at hk
  cases hitems : lib.array? d "Kids" with
  | none => rw [hitems] at hk; cases hk
  | some items =>
    rw [hitems] at hk
    exact Library.reaches_of_mem_array? (dict_of_tree hnode) hitems hk

theorem finite_descendants (lib : Library) (o : Obj) : {k | TransGen (DirectKid lib) o k}.Finite := by
  refine (lib.finite_reaches o).subset fun k hk => ?_
  induction hk with
  | single hkid => exact hkid.1.reaches
  | tail _ hkid ih => exact ReflTransGen.trans ih hkid.1.reaches

/-- **Where there is no circle, rows of direct kids come to an end.** -/
theorem acc_of_not_hasCircle (h : ¬ HasCircle lib root) (ho : ReflTransGen (Kid lib) root o) :
    Acc (fun k o => DirectKid lib o k) o := by
  induction hn : {k | TransGen (DirectKid lib) o k}.ncard using Nat.strongRecOn generalizing o with
  | ind n ih =>
    refine Acc.intro o fun k hk => ?_
    have hbelow : ReflTransGen (Kid lib) root k := ho.tail hk.1
    have hfewer : {j | TransGen (DirectKid lib) k j} ⊂ {j | TransGen (DirectKid lib) o j} := by
      refine (Set.ssubset_iff_of_subset fun j hj => TransGen.head hk hj).mpr ⟨k, .single hk, ?_⟩
      exact fun hcircle => h ⟨k, hbelow, hcircle⟩
    exact ih _ (hn ▸ Set.ncard_lt_ncard hfewer (finite_descendants lib o)) hbelow rfl

/-! ## Without a circle, nodes can be visited -/

/-- The references that are defined and have not been entered. -/
def pending (lib : Library) (entered : List ObjRef) : Finset ObjRef :=
  {r ∈ lib.objects.keys.toFinset | r ∉ entered}

theorem pending_subset {entered after : List ObjRef} (h : entered ⊆ after) :
    pending lib after ⊆ pending lib entered :=
  Finset.monotone_filter_right _ fun _ _ hr hmem => hr (h hmem)

theorem pending_enter_ssubset {r : ObjRef} {entered : List ObjRef} (href : o.ref? = some r)
    (hnew : r ∉ entered) (hdefined : (lib.find? r).isSome) :
    pending lib (enter o entered) ⊂ pending lib entered := by
  have hkey : r ∈ lib.objects.keys.toFinset := by
    rw [List.mem_toFinset, Std.HashMap.mem_keys, ← Std.HashMap.isSome_getElem?_iff_mem]
    exact hdefined
  have hsub : entered ⊆ enter o entered := fun s hs => mem_enter.mpr (.inl hs)
  refine (Finset.ssubset_iff_of_subset (pending_subset hsub)).mpr ⟨r, ?_, fun hr => ?_⟩
  · exact Finset.mem_filter.mpr ⟨hkey, hnew⟩
  · exact (Finset.mem_filter.mp hr).2 (mem_enter.mpr (.inr href))

theorem find?_isSome_of_node {r : ObjRef} {d : Dict} (href : o.ref? = some r)
    (hnode : Node.ofObj lib o = .tree d) : (lib.find? r).isSome := by
  rw [Option.isSome_iff_ne_none]
  intro hnone
  refine resolve_ne_null_of_node hnode ?_
  cases o with
  | ref s =>
    cases href
    simp [Library.resolve, Library.resolveWithin, Library.referenceLimit, hnone]
  | _ => cases href

/-- Some nodes can be visited, whatever is above them. -/
def Visitable (lib : Library) (os : List Obj) (entered : List ObjRef) : Prop :=
  ∀ ancestors, ∃ after found, Visits lib ancestors os entered after found

theorem visitable_of_forall {os : List Obj} {entered : List ObjRef}
    (h : ∀ o ∈ os, ∀ after, entered ⊆ after → Visitable lib [o] after) :
    Visitable lib os entered := by
  intro ancestors
  induction os generalizing entered with
  | nil => exact ⟨entered, [], .nil⟩
  | cons o os ih =>
    obtain ⟨ho, hos⟩ := List.forall_mem_cons.mp h
    obtain ⟨between, first, hfirst⟩ := ho entered (List.Subset.refl _) ancestors
    obtain ⟨after, rest, hrest⟩ := ih fun o ho after hsub =>
      hos o ho after (List.Subset.trans hfirst.subset hsub)
    exact ⟨after, first ++ rest, hfirst.cons hrest⟩

/-- A node can be visited if its kids can. -/
theorem visitable_of_kids {entered : List ObjRef} (hfresh : Fresh o entered)
    (h : ∀ d, Node.ofObj lib o = .tree d → ∀ k ∈ kids lib d, ∀ after, enter o entered ⊆ after →
      Visitable lib [k] after) : Visitable lib [o] entered := by
  intro ancestors
  cases hnode : Node.ofObj lib o with
  | page d => exact ⟨_, _, .page hfresh hnode .nil⟩
  | tree d =>
    obtain ⟨after, found, hkids⟩ := visitable_of_forall (h d hnode) (d :: ancestors)
    exact ⟨after, found ++ [], .tree hfresh hnode hkids .nil⟩
  | other => exact ⟨_, [], .other hfresh hnode .nil⟩

/-- **Where there is no circle below a root, each node below it can be visited.** The first induction is
on the references that are still to be entered, the second goes down a row of direct kids. -/
theorem visitable_of_not_hasCircle (h : ¬ HasCircle lib root) (ho : ReflTransGen (Kid lib) root o)
    (entered : List ObjRef) : Visitable lib [o] entered := by
  induction hn : (pending lib entered).card using Nat.strongRecOn generalizing o entered with
  | ind n ih =>
    have href {o : Obj} (ho : ReflTransGen (Kid lib) root o) {entered : List ObjRef}
        (hle : (pending lib entered).card ≤ n) {r : ObjRef} (hr : o.ref? = some r) :
        Visitable lib [o] entered := by
      by_cases hentered : r ∈ entered
      · exact fun ancestors => ⟨entered, [], .again hr hentered .nil⟩
      · have hfresh : Fresh o entered := fun s hs => by
          rw [hr, Option.some.injEq] at hs
          rwa [← hs]
        refine visitable_of_kids hfresh fun d hnode k hk after hsub => ?_
        have hdefined := find?_isSome_of_node hr hnode
        have hfewer := Finset.card_lt_card (pending_enter_ssubset hr hentered hdefined)
        have hleft : (pending lib after).card ≤ _ := Finset.card_le_card (pending_subset hsub)
        exact ih _ (by omega) (ho.tail ⟨d, hnode, hk⟩) after rfl
    have hle := hn.le
    clear hn
    induction acc_of_not_hasCircle h ho generalizing entered with
    | intro o _ ihdirect =>
      cases hr : o.ref? with
      | some r => exact href ho hle hr
      | none =>
        refine visitable_of_kids (fun r hr' => by rw [hr] at hr'; cases hr') ?_
        intro d hnode k hk after hsub
        have hkid : Kid lib o k := ⟨d, hnode, hk⟩
        have hle' : (pending lib after).card ≤ n := by
          rw [enter, hr, Option.toList_none, List.append_nil] at hsub
          exact (Finset.card_le_card (pending_subset hsub)).trans hle
        cases hkref : k.ref? with
        | some r => exact href (ho.tail hkid) hle' hkref
        | none => exact ihdirect k ⟨hkid, hkref⟩ (ho.tail hkid) after hle'

/-! ## Where nodes have been visited, there is no circle -/

/-- All ways down from a node come to a reference that has been entered, or end. -/
inductive Closed (lib : Library) (entered : List ObjRef) : Obj → Prop where
  | ref {o : Obj} {r : ObjRef} (href : o.ref? = some r) (hr : r ∈ entered) : Closed lib entered o
  | direct {o : Obj} (href : o.ref? = none) (hkids : ∀ k, Kid lib o k → Closed lib entered k) :
    Closed lib entered o

theorem Closed.mono {entered after : List ObjRef} (h : Closed lib entered o) (hsub : entered ⊆ after) :
    Closed lib after o := by
  induction h with
  | ref href hr => exact .ref href (hsub hr)
  | direct href _ ih => exact .direct href ih

theorem Closed.not_circle {entered : List ObjRef} (h : Closed lib entered o) :
    ¬ TransGen (DirectKid lib) o o := by
  intro hcircle
  induction h with
  | ref href hr =>
    obtain ⟨_, -, hlast⟩ := TransGen.tail'_iff.mp hcircle
    rw [hlast.2] at href
    cases href
  | direct href _ ih =>
    obtain ⟨k, hfirst, hrest⟩ := TransGen.head'_iff.mp hcircle
    exact ih k hfirst.1 (TransGen.tail' hrest hfirst)

theorem closed_of_kids {entered after : List ObjRef} (hsub : enter o entered ⊆ after)
    (hkids : ∀ k, Kid lib o k → Closed lib after k) : Closed lib after o := by
  cases href : o.ref? with
  | some r => exact .ref href (hsub (mem_enter.mpr (.inr href)))
  | none => exact .direct href hkids

theorem eq_of_ref? {o' : Obj} {r : ObjRef} (h : o.ref? = some r) (h' : o'.ref? = some r) : o = o' := by
  cases o <;> cases h
  cases o' <;> cases h'
  rfl

/-- Of the references that have been entered since, the kids are closed. -/
def Settled (lib : Library) (entered after : List ObjRef) : Prop :=
  ∀ o r k, o.ref? = some r → r ∈ after → r ∉ entered → Kid lib o k → Closed lib after k

theorem Settled.trans {entered between after : List ObjRef} (h : Settled lib entered between)
    (h' : Settled lib between after) (hsub : between ⊆ after) : Settled lib entered after := by
  intro o r k href hr hnew hkid
  by_cases hbetween : r ∈ between
  · exact (h o r k href hbetween hnew hkid).mono hsub
  · exact h' o r k href hr hbetween hkid

theorem Settled.of_enter {entered after : List ObjRef} (h : Settled lib (enter o entered) after)
    (hkids : ∀ k, Kid lib o k → Closed lib after k) : Settled lib entered after := by
  intro o' r k href hr hnew hkid
  by_cases henter : r ∈ enter o entered
  · have ho : o.ref? = some r := (mem_enter.mp henter).resolve_left hnew
    rw [eq_of_ref? href ho] at hkid
    exact hkids k hkid
  · exact h o' r k href hr henter hkid

theorem not_kid_of_page {d : Dict} (h : Node.ofObj lib o = .page d) (k : Obj) : ¬ Kid lib o k := by
  rintro ⟨_, htree, -⟩
  rw [h] at htree
  cases htree

theorem not_kid_of_other (h : Node.ofObj lib o = .other) (k : Obj) : ¬ Kid lib o k := by
  rintro ⟨_, htree, -⟩
  rw [h] at htree
  cases htree

/-- **Where nodes have been visited, they are closed**, and so is what is below them. -/
theorem Visits.closed {ancestors : List Dict} {os : List Obj} {entered after : List ObjRef}
    {found : List Found} (h : Visits lib ancestors os entered after found) :
    (∀ o ∈ os, Closed lib after o) ∧ Settled lib entered after := by
  induction h with
  | nil => exact ⟨List.forall_mem_nil _, fun _ _ _ _ hr hnew => absurd hr hnew⟩
  | again href hentered rest ih =>
    exact ⟨List.forall_mem_cons.mpr ⟨.ref href (rest.subset hentered), ih.1⟩, ih.2⟩
  | @page _ o _ _ _ after _ hfresh hnode rest ih =>
    have hkids k (hk : Kid lib o k) : Closed lib after k := absurd hk (not_kid_of_page hnode k)
    exact ⟨List.forall_mem_cons.mpr ⟨closed_of_kids rest.subset hkids, ih.1⟩, ih.2.of_enter hkids⟩
  | @tree _ o _ _ _ _ after _ _ hfresh hnode below rest ihbelow ihrest =>
    have hkids k (hkid : Kid lib o k) : Closed lib after k := by
      obtain ⟨d, hd, hk⟩ := hkid
      rw [hnode] at hd
      cases hd
      exact (ihbelow.1 k hk).mono rest.subset
    have hsub := List.Subset.trans below.subset rest.subset
    refine ⟨List.forall_mem_cons.mpr ⟨closed_of_kids hsub hkids, ihrest.1⟩, ?_⟩
    exact (ihbelow.2.trans ihrest.2 rest.subset).of_enter hkids
  | @other _ o _ _ after _ hfresh hnode rest ih =>
    have hkids k (hk : Kid lib o k) : Closed lib after k := absurd hk (not_kid_of_other hnode k)
    exact ⟨List.forall_mem_cons.mpr ⟨closed_of_kids rest.subset hkids, ih.1⟩, ih.2.of_enter hkids⟩

theorem not_hasCircle_of_visits {ancestors : List Dict} {after : List ObjRef} {found : List Found}
    (h : Visits lib ancestors [root] [] after found) : ¬ HasCircle lib root := by
  obtain ⟨hroot, hsettled⟩ := h.closed
  rintro ⟨o, hbelow, hcircle⟩
  have hclosed : Closed lib after o := by
    clear hcircle
    induction hbelow with
    | refl => exact hroot root List.mem_cons_self
    | tail _ hkid ih =>
      cases ih with
      | ref href hr => exact hsettled _ _ _ href hr List.not_mem_nil hkid
      | direct _ hkids => exact hkids _ hkid
  exact hclosed.not_circle hcircle

/-! ## Which walks have an end -/

/-- **A walk has an end if and only if no node below the root is a direct descendant of itself.** -/
theorem walk_isSome_iff (lib : Library) (root : Obj) :
    (walk lib [] .start root).isSome ↔ ¬ HasCircle lib root := by
  constructor
  · intro h
    obtain ⟨w, hw⟩ := Option.isSome_iff_exists.mp h
    obtain ⟨after, found, hvisits, -⟩ := leads_of_walk hw [] [] .start
    exact not_hasCircle_of_visits hvisits
  · intro h
    obtain ⟨after, found, hvisits⟩ := visitable_of_not_hasCircle h .refl [] []
    obtain ⟨w, hw, -⟩ := foldlM_of_visits hvisits .start
    rw [List.foldlM_cons] at hw
    obtain ⟨w', hw', -⟩ := Option.bind_eq_some_iff.mp hw
    exact Option.isSome_iff_exists.mpr ⟨w', hw'⟩

/-- A node with kids. -/
def treeNode (kids : Obj) : Dict := [("Type", .name "Pages"), ("Kids", kids)]

/-- A page with nothing on it. -/
def pageNode : Dict := [("Type", .name "Page")]

theorem ofObj_treeNode (lib : Library) (kids : Obj) :
    Node.ofObj lib (.dict (treeNode kids)) = .tree (treeNode kids) := by
  rfl

theorem ofObj_pageNode (lib : Library) : Node.ofObj lib (.dict pageNode) = .page pageNode := by
  rfl

theorem ofObj_ref {lib : Library} {r : ObjRef} {d : Dict} (h : lib.find? r = some (.dict d)) :
    Node.ofObj lib (.ref r) = Node.ofObj lib (.dict d) := by
  have hresolve : lib.resolve (.ref r) = lib.resolve (.dict d) := Library.resolve_ref h rfl
  rw [Node.ofObj, Role.ofObj, hresolve]
  rfl

theorem kids_treeNode {lib : Library} {kids : Obj} {items : List Obj}
    (h : lib.resolve kids = .array items) : PageTree.kids lib (treeNode kids) = items := by
  have hget : lib.get? (treeNode kids) "Kids" = some (.array items) := by
    show (if (lib.resolve kids).isNull then none else some (lib.resolve kids)) = _
    rw [h]
    rfl
  rw [PageTree.kids, Library.array?, hget]
  rfl

/-- A node whose kids are under a reference that is followed again among them. -/
def circularPages : Library :=
  Library.empty.insert ⟨5, 0⟩ (.array [.dict (treeNode (.ref ⟨5, 0⟩))])

example : walk circularPages [] .start (.dict (treeNode (.ref ⟨5, 0⟩))) = none := by
  have hitems : circularPages.resolve (.ref ⟨5, 0⟩) = .array [.dict (treeNode (.ref ⟨5, 0⟩))] := by
    simp [circularPages, Library.resolve, Library.referenceLimit, Library.resolveWithin,
      Library.find?, Library.insert]
  have hkid : Kid circularPages (.dict (treeNode (.ref ⟨5, 0⟩))) (.dict (treeNode (.ref ⟨5, 0⟩))) := by
    refine ⟨_, ofObj_treeNode _ _, ?_⟩
    rw [kids_treeNode hitems]
    exact List.mem_cons_self
  rw [← Option.not_isSome_iff_eq_none, walk_isSome_iff, not_not]
  exact ⟨_, .refl, .single ⟨hkid, rfl⟩⟩

end PdfScene.PageTree
