import PdfScene.Proofs.Document.Origins
import PdfScene.Proofs.Store.Scanned

/-!
# What a walk comes to twice

A `Tour` is what a walk does, with all stops on the way where `Visits` keeps the pages that are found.
Each stop has its place, counted from the root, and its origin. Two stops are at one node where their
origins are the same (`Revisits`), which happens because a walk remembers the references as they are
written and not the objects that they lead to. `tours_spec` says what is come to twice: an object to
which two references lead, and a node that stands itself in a list that two nodes have as their kids.

Everything below the root is stopped at (`exists_stop`), so both of these do occur. That there is
nothing else is an induction on the place of a stop, `eq_of_origin`: two stops of one origin are either
at references, which are entered once, or at the same index of one list, and then the nodes that have
this list are stops before.
-/

set_option autoImplicit false

namespace PdfScene.PageTree

/-- Where a walk stands between the kids of a node. -/
structure Level where
  /-- The place of the node. -/
  place : List Nat
  /-- The origin of its kids. -/
  list : Origin
  ancestors : List Dict

/-- What a walk has come to. -/
structure Stop where
  /-- The indexes of the kids on the way down, the last one first. -/
  place : List Nat
  origin : Origin
  object : Obj
  ancestors : List Dict

namespace Level

/-- Where a walk starts. -/
def start : Level := ⟨[], .outside, []⟩

/-- The stop at a kid. -/
def stop (lib : Library) (l : Level) (i : Nat) (o : Obj) : Stop :=
  ⟨i :: l.place, .ofItem lib l.list i o, o, l.ancestors⟩

/-- A stop at one of some kids, of which the first has the index `i`. -/
def Among (lib : Library) (l : Level) (i : Nat) (os : List Obj) (s : Stop) : Prop :=
  ∃ j k, os[j]? = some k ∧ s = l.stop lib (i + j) k

end Level

namespace Stop

/-- The level below a stop. -/
def below (lib : Library) (s : Stop) : Level where
  place := s.place
  list := .ofKids lib s.origin s.object
  ancestors :=
    match Node.ofObj lib s.object with
    | .tree d => d :: s.ancestors
    | _ => s.ancestors

/-- The page that is found. -/
def page? (lib : Library) (s : Stop) : Option Found :=
  match Node.ofObj lib s.object with
  | .page d => some ⟨s.object.ref?, d, s.ancestors⟩
  | _ => none

/-- A stop is at a kid of another one. -/
def Below (lib : Library) (s t : Stop) : Prop :=
  (s.below lib).Among lib 0 (kidsOf lib s.object) t

end Stop

/-- No reference is what both are at. -/
def Stop.Apart (s t : Stop) : Prop := ∀ r, s.object.ref? = some r → t.object.ref? ≠ some r

instance : Std.Symm Stop.Apart := ⟨fun _ _ h r hr hr' => h r hr' hr⟩

/-- A walk over some kids, of which the first has the index `i`: from the references that have been
entered before, to those that have been after, with the stops on the way. -/
inductive Tour (lib : Library) :
    Level → Nat → List Obj → List ObjRef → List ObjRef → List Stop → Prop where
  | nil {l : Level} {i : Nat} {entered : List ObjRef} : Tour lib l i [] entered entered []
  /-- A reference that has been entered is passed over. -/
  | again {l : Level} {i : Nat} {o : Obj} {os : List Obj} {r : ObjRef} {entered after : List ObjRef}
      {stops : List Stop} (href : o.ref? = some r) (hentered : r ∈ entered)
      (rest : Tour lib l (i + 1) os entered after stops) : Tour lib l i (o :: os) entered after stops
  | fresh {l : Level} {i : Nat} {o : Obj} {os : List Obj} {entered between after : List ObjRef}
      {inner stops : List Stop} (hfresh : Fresh o entered)
      (kids : Tour lib ((l.stop lib i o).below lib) 0 (kidsOf lib o) (enter o entered) between inner)
      (rest : Tour lib l (i + 1) os between after stops) :
      Tour lib l i (o :: os) entered after (l.stop lib i o :: (inner ++ stops))

/-- The stops of a walk from a root on. -/
def Tours (lib : Library) (root : Obj) (stops : List Stop) : Prop :=
  ∃ after, Tour lib .start 0 [root] [] after stops

variable {lib : Library} {root o : Obj} {os : List Obj} {l : Level} {i : Nat}
  {entered after : List ObjRef} {stops : List Stop} {s t : Stop} {r : ObjRef} {x : Origin}

/-! ## Tours and visits -/

section AtNode

variable {d : Dict}

theorem kidsOf_page (h : Node.ofObj lib o = .page d) : kidsOf lib o = [] := by
  rw [kidsOf, h]

theorem kidsOf_other (h : Node.ofObj lib o = .other) : kidsOf lib o = [] := by
  rw [kidsOf, h]

theorem Stop.below_ancestors (h : Node.ofObj lib s.object = .tree d) :
    (s.below lib).ancestors = d :: s.ancestors := by
  rw [Stop.below, h]

theorem Stop.page?_page (h : Node.ofObj lib s.object = .page d) :
    s.page? lib = some ⟨s.object.ref?, d, s.ancestors⟩ := by
  rw [Stop.page?, h]

theorem Stop.page?_tree (h : Node.ofObj lib s.object = .tree d) : s.page? lib = none := by
  rw [Stop.page?, h]

theorem Stop.page?_other (h : Node.ofObj lib s.object = .other) : s.page? lib = none := by
  rw [Stop.page?, h]

end AtNode

theorem Visits.eq_of_nil {ancestors : List Dict} {found : List Found}
    (h : Visits lib ancestors [] entered after found) : after = entered ∧ found = [] := by
  cases h
  exact ⟨rfl, rfl⟩

/-- **A tour visits nodes**, and its pages are those that are found. -/
theorem Tour.visits (h : Tour lib l i os entered after stops) :
    Visits lib l.ancestors os entered after (stops.filterMap (Stop.page? lib)) := by
  induction h with
  | nil => exact .nil
  | again href hentered _ ih => exact .again href hentered ih
  | @fresh l i o os entered between after inner stops hfresh _ _ ihkids ihrest =>
    have hstop : (l.stop lib i o).object = o := rfl
    rw [List.filterMap_cons, List.filterMap_append]
    cases hnode : Node.ofObj lib o with
    | page d =>
      rw [kidsOf_page hnode] at ihkids
      obtain ⟨rfl, hnone⟩ := ihkids.eq_of_nil
      rw [Stop.page?_page (hstop ▸ hnode), hnone]
      exact .page hfresh hnode ihrest
    | tree d =>
      rw [kidsOf_tree hnode, Stop.below_ancestors (hstop ▸ hnode)] at ihkids
      rw [Stop.page?_tree (hstop ▸ hnode)]
      exact .tree hfresh hnode ihkids ihrest
    | other =>
      rw [kidsOf_other hnode] at ihkids
      obtain ⟨rfl, hnone⟩ := ihkids.eq_of_nil
      rw [Stop.page?_other (hstop ▸ hnode), hnone]
      exact .other hfresh hnode ihrest

/-- What has no kids is stopped at, and nothing below. -/
theorem Tour.leaf (hfresh : Fresh o entered) (hkids : kidsOf lib o = [])
    (rest : Tour lib l (i + 1) os (enter o entered) after stops) :
    Tour lib l i (o :: os) entered after (l.stop lib i o :: stops) := by
  have hnone : Tour lib ((l.stop lib i o).below lib) 0 (kidsOf lib o) (enter o entered)
      (enter o entered) [] := by
    rw [hkids]
    exact .nil
  exact .fresh hfresh hnone rest

/-- **Where nodes are visited, there is a tour.** -/
theorem Visits.exists_tour {ancestors : List Dict} {found : List Found}
    (h : Visits lib ancestors os entered after found) (l : Level) (i : Nat)
    (hl : l.ancestors = ancestors) : ∃ stops, Tour lib l i os entered after stops := by
  induction h generalizing l i with
  | nil => exact ⟨[], .nil⟩
  | again href hentered _ ih =>
    obtain ⟨stops, hrest⟩ := ih l (i + 1) hl
    exact ⟨stops, .again href hentered hrest⟩
  | page hfresh hnode _ ih =>
    obtain ⟨stops, hrest⟩ := ih l (i + 1) hl
    exact ⟨_, .leaf hfresh (kidsOf_page hnode) hrest⟩
  | @tree _ o _ d _ _ _ _ _ hfresh hnode _ _ ihbelow ihrest =>
    have hbelow : ((l.stop lib i o).below lib).ancestors = d :: l.ancestors :=
      Stop.below_ancestors hnode
    obtain ⟨inner, hkids⟩ := ihbelow ((l.stop lib i o).below lib) 0 (hl ▸ hbelow)
    obtain ⟨stops, hrest⟩ := ihrest l (i + 1) hl
    rw [← kidsOf_tree hnode] at hkids
    exact ⟨_, .fresh hfresh hkids hrest⟩
  | other hfresh hnode _ ih =>
    obtain ⟨stops, hrest⟩ := ih l (i + 1) hl
    exact ⟨_, .leaf hfresh (kidsOf_other hnode) hrest⟩

/-! ## The stops among some kids -/

namespace Level.Among

theorem head : l.Among lib i (o :: os) (l.stop lib i o) := ⟨0, o, rfl, rfl⟩

theorem tail (h : l.Among lib (i + 1) os s) : l.Among lib i (o :: os) s := by
  obtain ⟨j, k, hk, rfl⟩ := h
  refine ⟨j + 1, k, hk, ?_⟩
  rw [Nat.add_right_comm, Nat.add_assoc]

theorem head_or_tail (h : l.Among lib i (o :: os) s) :
    s = l.stop lib i o ∨ l.Among lib (i + 1) os s := by
  obtain ⟨j, k, hk, rfl⟩ := h
  cases j with
  | zero => cases hk; exact .inl rfl
  | succ j =>
    refine .inr ⟨j, k, hk, ?_⟩
    rw [Nat.add_right_comm, Nat.add_assoc]

theorem start (h : Level.start.Among lib 0 [root] s) : s = Level.start.stop lib 0 root := by
  rcases h.head_or_tail with rfl | ⟨j, k, hk, -⟩
  · rfl
  · cases hk

end Level.Among

/-- The `j`-th kid of the node at a stop. -/
theorem Stop.Below.of_getElem? {j : Nat} {k : Obj} (hk : (kidsOf lib s.object)[j]? = some k) :
    s.Below lib ((s.below lib).stop lib j k) := by
  refine ⟨j, k, hk, ?_⟩
  rw [Nat.zero_add]

theorem Stop.Below.exists_getElem? (h : s.Below lib t) :
    ∃ j k, (kidsOf lib s.object)[j]? = some k ∧ t = (s.below lib).stop lib j k := by
  obtain ⟨j, k, hk, ht⟩ := h
  rw [Nat.zero_add] at ht
  exact ⟨j, k, hk, ht⟩

namespace Tour

/-- **Each stop is at one of the kids, or at a kid of a stop before.** -/
theorem among_or_below (h : Tour lib l i os entered after stops) (hs : s ∈ stops) :
    l.Among lib i os s ∨ ∃ t ∈ stops, t.Below lib s := by
  induction h with
  | nil => cases hs
  | again _ _ _ ih => exact (ih hs).imp_left Level.Among.tail
  | fresh _ _ _ ihkids ihrest =>
    rcases List.mem_cons.mp hs with rfl | hs
    · exact .inl .head
    · rcases List.mem_append.mp hs with hs | hs
      · refine .inr ?_
        rcases ihkids hs with hamong | ⟨t, ht, hbelow⟩
        · exact ⟨_, List.mem_cons_self, hamong⟩
        · exact ⟨t, List.mem_cons_of_mem _ (List.mem_append_left _ ht), hbelow⟩
      · rcases ihrest hs with hamong | ⟨t, ht, hbelow⟩
        · exact .inl hamong.tail
        · exact .inr ⟨t, List.mem_cons_of_mem _ (List.mem_append_right _ ht), hbelow⟩

/-- Stops at kids of a node are at places below it. -/
theorem place_suffix (h : Tour lib l i os entered after stops) (hs : s ∈ stops) :
    ∃ j, ((i + j) :: l.place) <:+ s.place := by
  induction h with
  | nil => cases hs
  | again _ _ _ ih =>
    obtain ⟨j, hj⟩ := ih hs
    exact ⟨1 + j, by rwa [← Nat.add_assoc]⟩
  | fresh _ _ _ ihkids ihrest =>
    rcases List.mem_cons.mp hs with rfl | hs
    · exact ⟨0, List.suffix_refl _⟩
    · rcases List.mem_append.mp hs with hs | hs
      · obtain ⟨j, hj⟩ := ihkids hs
        exact ⟨0, (List.suffix_cons _ _).trans hj⟩
      · obtain ⟨j, hj⟩ := ihrest hs
        exact ⟨1 + j, by rwa [← Nat.add_assoc]⟩

/-- **No place is come to twice.** -/
theorem nodup_places (h : Tour lib l i os entered after stops) : (stops.map Stop.place).Nodup := by
  induction h with
  | nil => exact List.nodup_nil
  | again _ _ _ ih => exact ih
  | @fresh l i o os _ _ _ inner stops _ hkids hrest ihkids ihrest =>
    rw [List.map_cons, List.map_append, List.nodup_cons, List.nodup_append]
    refine ⟨fun hmem => ?_, ihkids, ihrest, ?_⟩
    · rcases List.mem_append.mp hmem with hmem | hmem
      · obtain ⟨s, hs, hplace⟩ := List.mem_map.mp hmem
        obtain ⟨j, hj⟩ := hkids.place_suffix hs
        have hlength := hj.length_le
        rw [hplace] at hlength
        exact absurd hlength (Nat.not_succ_le_self _)
      · obtain ⟨s, hs, hplace⟩ := List.mem_map.mp hmem
        obtain ⟨j, hj⟩ := hrest.place_suffix hs
        rw [hplace] at hj
        have hsame : (i + 1 + j) :: l.place = i :: l.place := hj.eq_of_length rfl
        rw [List.cons.injEq] at hsame
        omega
    · rintro _ hp _ hp' rfl
      obtain ⟨s, hs, hplace⟩ := List.mem_map.mp hp
      obtain ⟨t, ht, hplace'⟩ := List.mem_map.mp hp'
      obtain ⟨j, hj⟩ := hkids.place_suffix hs
      obtain ⟨j', hj'⟩ := hrest.place_suffix ht
      have hi : (i :: l.place) <:+ s.place := (List.suffix_cons _ _).trans hj
      rw [hplace] at hi
      rw [hplace'] at hj'
      have hsame := (List.suffix_of_suffix_length_le hi hj' (Nat.le_refl _)).eq_of_length rfl
      rw [List.cons.injEq] at hsame
      omega

theorem eq_of_place (h : Tour lib l i os entered after stops) (hs : s ∈ stops) (ht : t ∈ stops)
    (hplace : s.place = t.place) : s = t :=
  List.inj_on_of_nodup_map h.nodup_places hs ht hplace

/-- **What has been entered since is what the stops are at.** -/
theorem entered_eq (h : Tour lib l i os entered after stops) :
    after = entered ++ stops.filterMap fun s => s.object.ref? := by
  induction h with
  | nil => exact (List.append_nil _).symm
  | again _ _ _ ih => exact ih
  | @fresh l i o _ entered _ _ inner stops _ _ _ ihkids ihrest =>
    have hcons : (l.stop lib i o :: (inner ++ stops)).filterMap (fun s => s.object.ref?) =
        o.ref?.toList ++ (inner ++ stops).filterMap fun s => s.object.ref? := by
      simp only [List.filterMap_cons, Level.stop]
      cases o.ref? <;> rfl
    rw [ihrest, ihkids, hcons, enter, List.filterMap_append]
    simp only [List.append_assoc]

/-- Where two stops are at one reference, they are the same. -/
theorem eq_of_ref (h : Tour lib l i os [] after stops) (hs : s ∈ stops) (ht : t ∈ stops)
    (href : s.object.ref? = some r) (href' : t.object.ref? = some r) : s = t := by
  have hnodup := h.visits.nodup List.nodup_nil
  rw [h.entered_eq, List.nil_append, List.Nodup, List.pairwise_filterMap] at hnodup
  have hapart : stops.Pairwise Stop.Apart := by
    refine hnodup.imp fun hne r hr hr' => ?_
    exact hne r hr r hr' rfl
  by_contra hne
  exact hapart.forall hs ht hne r href href'

end Tour

/-! ## What stands below the root is stopped at -/

/-- The reference that a stop would be at has been entered, or without one there is the stop. -/
def Met (after : List ObjRef) (stops : List Stop) (s : Stop) : Prop :=
  match s.object.ref? with
  | some r => r ∈ after
  | none => s ∈ stops

theorem Met.mono {after' : List ObjRef} {stops' : List Stop} (h : Met after stops s)
    (hafter : after ⊆ after') (hstops : stops ⊆ stops') : Met after' stops' s := by
  unfold Met at h ⊢
  split at h
  · exact hafter h
  · exact hstops h

theorem met_of_ref (href : s.object.ref? = some r) (hr : r ∈ after) : Met after stops s := by
  rw [Met, href]
  exact hr

theorem met_of_mem (hs : s ∈ stops) (h : ∀ r, s.object.ref? = some r → r ∈ after) :
    Met after stops s := by
  unfold Met
  split
  · exact h _ ‹_›
  · exact hs

theorem mem_of_met (h : Met after stops s) (href : s.object.ref? = none) : s ∈ stops := by
  rwa [Met, href] at h

namespace Tour

/-- **The kids are met, and so are those of each stop.** -/
theorem met (h : Tour lib l i os entered after stops) :
    (∀ s, l.Among lib i os s → Met after stops s) ∧
      ∀ s ∈ stops, ∀ t, s.Below lib t → Met after stops t := by
  induction h with
  | nil =>
    refine ⟨?_, List.forall_mem_nil _⟩
    rintro s ⟨j, k, hk, -⟩
    cases hk
  | again href hentered hrest ih =>
    refine ⟨fun s hs => ?_, ih.2⟩
    rcases hs.head_or_tail with rfl | hs
    · exact met_of_ref href (hrest.visits.subset hentered)
    · exact ih.1 s hs
  | @fresh l i o _ _ _ _ inner stops _ hkids hrest ihkids ihrest =>
    have hinner : inner ⊆ l.stop lib i o :: (inner ++ stops) := fun s hs =>
      List.mem_cons_of_mem _ (List.mem_append_left _ hs)
    have hstops : stops ⊆ l.stop lib i o :: (inner ++ stops) := fun s hs =>
      List.mem_cons_of_mem _ (List.mem_append_right _ hs)
    have hafter := hrest.visits.subset
    refine ⟨fun s hs => ?_, fun s hs t ht => ?_⟩
    · rcases hs.head_or_tail with rfl | hs
      · refine met_of_mem List.mem_cons_self fun r href => ?_
        exact hafter (hkids.visits.subset (mem_enter.mpr (.inr href)))
      · exact (ihrest.1 s hs).mono (List.Subset.refl _) hstops
    · rcases List.mem_cons.mp hs with rfl | hs
      · exact (ihkids.1 t ht).mono hafter hinner
      · rcases List.mem_append.mp hs with hs | hs
        · exact (ihkids.2 s hs t ht).mono hafter hinner
        · exact (ihrest.2 s hs t ht).mono (List.Subset.refl _) hstops

/-- **Stops are at what stands below the root.** -/
theorem stands (h : Tour lib l i os entered after stops)
    (hl : ∀ s, l.Among lib i os s → Stands lib root s.origin s.object) (hs : s ∈ stops) :
    Stands lib root s.origin s.object := by
  induction h with
  | nil => cases hs
  | again _ _ _ ih => exact ih (fun s hs => hl s hs.tail) hs
  | fresh _ _ _ ihkids ihrest =>
    rcases List.mem_cons.mp hs with rfl | hs
    · exact hl _ .head
    · rcases List.mem_append.mp hs with hs | hs
      · refine ihkids (fun t ht => ?_) hs
        obtain ⟨j, k, hk, rfl⟩ := Stop.Below.exists_getElem? ht
        exact (hl _ .head).kid hk
      · exact ihrest (fun s hs => hl s hs.tail) hs

end Tour

section Root

variable (h : Tour lib .start 0 [root] [] after stops)
include h

theorem stands_of_stop (hs : s ∈ stops) : Stands lib root s.origin s.object := by
  refine h.stands (fun s hs => ?_) hs
  obtain rfl := hs.start
  exact .root

theorem exists_stop_of_met (hmet : Met after stops s) (hs : Stands lib root s.origin s.object) :
    ∃ t ∈ stops, t.origin = s.origin ∧ t.object = s.object := by
  cases href : s.object.ref? with
  | none => exact ⟨s, mem_of_met hmet href, rfl, rfl⟩
  | some r =>
    rw [Met, href, h.entered_eq, List.nil_append] at hmet
    obtain ⟨t, ht, href'⟩ := List.mem_filterMap.mp hmet
    refine ⟨t, ht, ?_, eq_of_ref? href' href⟩
    rw [hs.origin_ref href, (stands_of_stop h ht).origin_ref href']

/-- **What stands below the root is stopped at.** The induction is on the way down to it. -/
theorem exists_stop (ho : Stands lib root x o) : ∃ s ∈ stops, s.origin = x ∧ s.object = o := by
  induction ho with
  | root => exact exists_stop_of_met h (h.met.1 _ .head) .root
  | @kid x o k i ho hk ih =>
    obtain ⟨s, hs, rfl, rfl⟩ := ih
    exact exists_stop_of_met h (h.met.2 s hs _ (.of_getElem? hk)) (ho.kid hk)

/-- A stop at no reference is at the root, or at an item of the kids of a stop. -/
theorem root_or_item (hs : s ∈ stops) (href : s.object.ref? = none) :
    s.origin = .item .outside 0 ∧ s = Level.start.stop lib 0 root ∨
      ∃ t ∈ stops, ∃ j k, (kidsOf lib t.object)[j]? = some k ∧ s = (t.below lib).stop lib j k ∧
        s.origin = .item (.ofKids lib t.origin t.object) j := by
  rcases h.among_or_below hs with hroot | ⟨t, ht, hbelow⟩
  · obtain rfl := hroot.start
    exact .inl ⟨Origin.ofItem_direct href, rfl⟩
  · obtain ⟨j, k, hk, rfl⟩ := hbelow.exists_getElem?
    exact .inr ⟨t, ht, j, k, hk, rfl, Origin.ofItem_direct href⟩

/-- A stop at an object of the library is at a reference to it. -/
theorem exists_ref_of_origin (hs : s ∈ stops) (horigin : s.origin = .object r) :
    ∃ a, s.object = .ref a := by
  cases href : s.object.ref? with
  | some a => exact ⟨a, eq_of_ref? href rfl⟩
  | none =>
    rcases root_or_item h hs href with ⟨hx, -⟩ | ⟨t, -, j, k, -, -, hx⟩
    · rw [hx] at horigin
      cases horigin
    · rw [hx] at horigin
      cases horigin

/-- Where no two references lead to an object, one stop is at it. -/
theorem eq_of_object (htwo : ¬ TwoReferences lib root r) (hs : s ∈ stops) (ht : t ∈ stops)
    (hnode : Node.ofObj lib s.object ≠ .other) (hnode' : Node.ofObj lib t.object ≠ .other)
    (horigin : s.origin = .object r) (horigin' : t.origin = .object r) : s = t := by
  obtain ⟨a, hobject⟩ := exists_ref_of_origin h hs horigin
  obtain ⟨b, hobject'⟩ := exists_ref_of_origin h ht horigin'
  by_cases hab : a = b
  · subst hab
    exact h.eq_of_ref hs ht (congrArg Obj.ref? hobject) (congrArg Obj.ref? hobject')
  · have hstands := stands_of_stop h hs
    have hstands' := stands_of_stop h ht
    rw [horigin, hobject] at hstands
    rw [horigin', hobject'] at hstands'
    rw [hobject] at hnode
    rw [hobject'] at hnode'
    exact absurd ⟨a, b, hab, hstands, hstands', hnode, hnode'⟩ htwo

/-- **Otherwise stops of one origin are the same.** The induction is on the place of a stop: where two
are at items of one list, the nodes that have this list are stops at the places before. -/
theorem eq_of_origin (htwo : ∀ r, ¬ TwoReferences lib root r) (hshared : ¬ SharedKids lib root)
    (hs : s ∈ stops) (ht : t ∈ stops) (hnode : Node.ofObj lib s.object ≠ .other)
    (hnode' : Node.ofObj lib t.object ≠ .other) (horigin : s.origin = t.origin) : s = t := by
  induction hn : s.place.length using Nat.strongRecOn generalizing s t with
  | ind n ih =>
    cases href : s.object.ref? with
    | some r =>
      have hobject := (stands_of_stop h hs).origin_ref href
      exact eq_of_object h (htwo _) hs ht hnode hnode' hobject (horigin ▸ hobject)
    | none =>
      have href' : t.object.ref? = none := by
        by_contra hne
        obtain ⟨r, hr⟩ := Option.ne_none_iff_exists'.mp hne
        have hobject := (stands_of_stop h ht).origin_ref hr
        obtain ⟨b, hb⟩ := exists_ref_of_origin h hs (horigin.trans hobject)
        rw [hb] at href
        cases href
      rcases root_or_item h hs href with ⟨hx, hroot⟩ | ⟨s', hs', i, k, hk, rfl, hx⟩
      · rcases root_or_item h ht href' with ⟨-, hroot'⟩ | ⟨t', -, j, k', -, -, hy⟩
        · rw [hroot, hroot']
        · have hitem := hx.symm.trans (horigin.trans hy)
          exact absurd (Origin.item.inj hitem).1.symm ofKids_ne_outside
      · rcases root_or_item h ht href' with ⟨hy, -⟩ | ⟨t', ht', j, k', hk', rfl, hy⟩
        · have hitem := hx.symm.trans (horigin.trans hy)
          exact absurd (Origin.item.inj hitem).1 ofKids_ne_outside
        · obtain ⟨hlist, rfl⟩ := Origin.item.inj (hx.symm.trans (horigin.trans hy))
          have hmem := List.mem_of_getElem? hk
          have hmem' := List.mem_of_getElem? hk'
          by_cases hparent : s'.origin = t'.origin
          · have hlt : s'.place.length < n := hn ▸ Nat.lt_succ_self _
            obtain rfl : s' = t' := ih _ hlt hs' ht' (ne_other_of_kidsOf hmem)
              (ne_other_of_kidsOf hmem') hparent rfl
            rw [hk, Option.some.injEq] at hk'
            rw [hk']
          · have hsame := kidsOf_eq_of_ofKids hlist (fun heq => absurd heq hparent) hmem hmem'
            exact absurd ⟨_, _, _, _, k, hparent, stands_of_stop h hs', stands_of_stop h ht', hlist,
              hmem, hsame ▸ hmem, href, hnode⟩ hshared

end Root

/-! ## What is come to twice -/

/-- A walk comes to the node that stands somewhere at two places. -/
def Revisits (lib : Library) (stops : List Stop) (x : Origin) : Prop :=
  ∃ s ∈ stops, ∃ t ∈ stops, s.place ≠ t.place ∧ s.origin = x ∧ t.origin = x ∧
    Node.ofObj lib s.object ≠ .other ∧ Node.ofObj lib t.object ≠ .other

section Root

variable (h : Tour lib .start 0 [root] [] after stops)
include h

theorem revisits_object_iff : Revisits lib stops (.object r) ↔ TwoReferences lib root r := by
  constructor
  · rintro ⟨s, hs, t, ht, hplace, hx, hy, hnode, hnode'⟩
    by_contra htwo
    exact hplace (congrArg Stop.place (eq_of_object h htwo hs ht hnode hnode' hx hy))
  · rintro ⟨a, b, hab, ha, hb, hnode, hnode'⟩
    obtain ⟨s, hs, hx, hobject⟩ := exists_stop h ha
    obtain ⟨t, ht, hy, hobject'⟩ := exists_stop h hb
    refine ⟨s, hs, t, ht, fun hplace => hab ?_, hx, hy, ?_, ?_⟩
    · rw [h.eq_of_place hs ht hplace, hobject', Obj.ref.injEq] at hobject
      exact hobject.symm
    · rwa [hobject]
    · rwa [hobject']

/-- **A node in a list of kids that two nodes have is come to twice.** -/
theorem revisits_of_sharedKids (hshared : SharedKids lib root) : ∃ x, Revisits lib stops x := by
  obtain ⟨x, o, y, p, k, hxy, ho, hp, hlist, hk, hk', href, hnode⟩ := hshared
  have hkids := kidsOf_eq_of_ofKids hlist (fun heq => absurd heq hxy) hk hk'
  obtain ⟨s, hs, rfl, rfl⟩ := exists_stop h ho
  obtain ⟨t, ht, rfl, rfl⟩ := exists_stop h hp
  obtain ⟨i, hi⟩ := List.mem_iff_getElem?.mp hk
  have hi' := hkids ▸ hi
  have hfirst := mem_of_met (h.met.2 s hs _ (.of_getElem? hi)) href
  have hsecond := mem_of_met (h.met.2 t ht _ (.of_getElem? hi')) href
  refine ⟨_, _, hfirst, _, hsecond, fun hplace => hxy ?_, rfl, ?_, hnode, hnode⟩
  · rw [h.eq_of_place hs ht (List.cons.inj hplace).2]
  · show Origin.ofItem lib _ i k = Origin.ofItem lib _ i k
    rw [show (t.below lib).list = (s.below lib).list from hlist.symm]

theorem exists_revisits_iff :
    (∃ x, Revisits lib stops x) ↔ (∃ r, TwoReferences lib root r) ∨ SharedKids lib root := by
  constructor
  · rintro ⟨x, s, hs, t, ht, hplace, hx, hy, hnode, hnode'⟩
    by_contra hnone
    obtain ⟨htwo, hshared⟩ := not_or.mp hnone
    have hst := eq_of_origin h (not_exists.mp htwo) hshared hs ht hnode hnode' (hx.trans hy.symm)
    exact hplace (congrArg Stop.place hst)
  · rintro (⟨r, htwo⟩ | hshared)
    · exact ⟨_, (revisits_object_iff h).mpr htwo⟩
    · exact revisits_of_sharedKids h hshared

end Root

theorem exists_tours_iff (lib : Library) (root : Obj) :
    (∃ stops, Tours lib root stops) ↔ ¬ HasCircle lib root := by
  constructor
  · rintro ⟨stops, after, h⟩
    exact not_hasCircle_of_visits h.visits
  · intro hcircle
    obtain ⟨after, found, hvisits⟩ := visitable_of_not_hasCircle hcircle .refl [] []
    obtain ⟨stops, h⟩ := hvisits.exists_tour .start 0 rfl
    exact ⟨stops, after, h⟩

theorem leaves_of_tours (h : Tours lib root stops) :
    leaves lib root = (stops.filterMap (Stop.page? lib)).mapIdx Found.leaf := by
  obtain ⟨after, htour⟩ := h
  obtain ⟨w, hw, hstands⟩ := foldlM_of_visits htour.visits .start
  rw [List.foldlM_cons] at hw
  obtain ⟨w', hwalk, hend⟩ := Option.bind_eq_some_iff.mp hw
  cases hend
  rw [leaves, show walk lib [] .start root = some w from hwalk]
  exact hstands.leaves

/-- **What a walk comes to twice.** There is a tour if and only if the walk has an end, which is where
no node below the root is a direct descendant of itself. The pages are those among its stops. It comes
to an object at two of them if and only if two references to a node lead there, and it comes to any node
at two of them if and only if there is such an object, or a node stands itself in a list that two nodes
have as their kids. -/
theorem tours_spec (lib : Library) (root : Obj) :
    ((walk lib [] .start root).isSome ↔ ∃ stops, Tours lib root stops) ∧
      ((∃ stops, Tours lib root stops) ↔ ¬ HasCircle lib root) ∧
      ∀ stops, Tours lib root stops →
        leaves lib root = (stops.filterMap (Stop.page? lib)).mapIdx Found.leaf ∧
          (∀ r, Revisits lib stops (.object r) ↔ TwoReferences lib root r) ∧
          ((∃ x, Revisits lib stops x) ↔
            (∃ r, TwoReferences lib root r) ∨ SharedKids lib root) := by
  have hexists := exists_tours_iff lib root
  refine ⟨(walk_isSome_iff lib root).trans hexists.symm, hexists, fun stops h => ?_⟩
  obtain ⟨after, htour⟩ := h
  refine ⟨leaves_of_tours ⟨after, htour⟩, fun r => revisits_object_iff htour, ?_⟩
  exact exists_revisits_iff htour

/-- A page to which a second reference leads. -/
def twicePages : Library :=
  ((Library.empty.insert ⟨1, 0⟩ (.dict (treeNode (.array [.ref ⟨2, 0⟩, .ref ⟨3, 0⟩])))).insert
    ⟨2, 0⟩ (.dict pageNode)).insert ⟨3, 0⟩ (.ref ⟨2, 0⟩)

theorem find?_twicePages_root : twicePages.find? ⟨1, 0⟩ =
    some (.dict (treeNode (.array [.ref ⟨2, 0⟩, .ref ⟨3, 0⟩]))) := by
  rw [twicePages, Library.find?_insert, if_neg (by decide), Library.find?_insert,
    if_neg (by decide), Library.find?_insert, if_pos rfl]

theorem find?_twicePages_page : twicePages.find? ⟨2, 0⟩ = some (.dict pageNode) := by
  rw [twicePages, Library.find?_insert, if_neg (by decide), Library.find?_insert, if_pos rfl]

theorem find?_twicePages_second : twicePages.find? ⟨3, 0⟩ = some (.ref ⟨2, 0⟩) := by
  rw [twicePages, Library.find?_insert, if_pos rfl]

theorem ofObj_twicePages_root : Node.ofObj twicePages (.ref ⟨1, 0⟩) =
    .tree (treeNode (.array [.ref ⟨2, 0⟩, .ref ⟨3, 0⟩])) :=
  (ofObj_ref find?_twicePages_root).trans (ofObj_treeNode _ _)

theorem kidsOf_twicePages :
    kidsOf twicePages (.ref ⟨1, 0⟩) = [.ref ⟨2, 0⟩, .ref ⟨3, 0⟩] := by
  rw [kidsOf_tree ofObj_twicePages_root]
  exact kids_treeNode rfl

theorem ofObj_twicePages_page : Node.ofObj twicePages (.ref ⟨2, 0⟩) = .page pageNode :=
  (ofObj_ref find?_twicePages_page).trans (ofObj_pageNode _)

theorem ofObj_twicePages_second : Node.ofObj twicePages (.ref ⟨3, 0⟩) = .page pageNode := by
  refine Eq.trans (ofObj_congr ?_) ofObj_twicePages_page
  simp only [Library.resolve, Library.referenceLimit, Library.resolveWithin,
    find?_twicePages_second, find?_twicePages_page]

theorem last_twicePages_page : twicePages.last ⟨2, 0⟩ = ⟨2, 0⟩ := by
  simp only [Library.last, Library.referenceLimit, Library.lastWithin, find?_twicePages_page]

theorem last_twicePages_second : twicePages.last ⟨3, 0⟩ = ⟨2, 0⟩ := by
  simp only [Library.last, Library.referenceLimit, Library.lastWithin, find?_twicePages_second,
    find?_twicePages_page]

theorem twoReferences_twicePages : TwoReferences twicePages (.ref ⟨1, 0⟩) ⟨2, 0⟩ := by
  have hpage : Stands twicePages (.ref ⟨1, 0⟩) (.object ⟨2, 0⟩) (.ref ⟨2, 0⟩) := by
    have hkid := Stands.root.kid (i := 0) (congrArg (·[0]?) kidsOf_twicePages)
    rwa [Origin.ofItem_ref rfl, last_twicePages_page] at hkid
  have hsecond : Stands twicePages (.ref ⟨1, 0⟩) (.object ⟨2, 0⟩) (.ref ⟨3, 0⟩) := by
    have hkid := Stands.root.kid (i := 1) (congrArg (·[1]?) kidsOf_twicePages)
    rwa [Origin.ofItem_ref rfl, last_twicePages_second] at hkid
  refine ⟨⟨2, 0⟩, ⟨3, 0⟩, by decide, hpage, hsecond, ?_, ?_⟩
  · rw [ofObj_twicePages_page]
    exact Node.noConfusion
  · rw [ofObj_twicePages_second]
    exact Node.noConfusion

/-- The stops below the root. -/
def twiceInner : List Stop :=
  let l := (Level.start.stop twicePages 0 (.ref ⟨1, 0⟩)).below twicePages
  [l.stop twicePages 0 (.ref ⟨2, 0⟩), l.stop twicePages 1 (.ref ⟨3, 0⟩)]

theorem tours_twicePages : Tours twicePages (.ref ⟨1, 0⟩)
    (Level.start.stop twicePages 0 (.ref ⟨1, 0⟩) :: (twiceInner ++ [])) := by
  refine ⟨[⟨1, 0⟩, ⟨2, 0⟩, ⟨3, 0⟩], .fresh (fun _ _ => List.not_mem_nil) ?_ .nil⟩
  rw [kidsOf_twicePages]
  refine .leaf ?_ (kidsOf_page ofObj_twicePages_page)
    (.leaf ?_ (kidsOf_page ofObj_twicePages_second) .nil)
  · rintro r ⟨⟩
    decide
  · rintro r ⟨⟩
    decide

theorem tours_spec_twicePages :
    (leaves twicePages (.ref ⟨1, 0⟩)).map Leaf.dict = [pageNode, pageNode] ∧
      ∃ stops, Tours twicePages (.ref ⟨1, 0⟩) stops ∧
        Revisits twicePages stops (.object ⟨2, 0⟩) := by
  obtain ⟨hleaves, htwo, -⟩ := (tours_spec twicePages (.ref ⟨1, 0⟩)).2.2 _ tours_twicePages
  refine ⟨?_, _, tours_twicePages, (htwo _).mpr twoReferences_twicePages⟩
  rw [hleaves]
  simp [twiceInner, Level.stop, Stop.page?, ofObj_twicePages_root, ofObj_twicePages_page,
    ofObj_twicePages_second, Found.leaf]

end PdfScene.PageTree
