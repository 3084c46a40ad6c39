import PdfScene.Document.PageTree

/-!
# Visiting the page tree

A walk remembers which references it has followed, so what it finds below a node depends on where it has
been. `Visits` says how, one node after the other: the references that have been entered before and
after, each once for every time it is entered, and the pages that are found. It is `walk` without the
question whether there is an end. A walk that has one visits nodes in this way (`leads_of_walk`), and
where nodes can be visited a walk has an end (`foldlM_of_visits`).

What is said of walks is then an induction over visits. The first of these is that no reference is
entered twice: `Visits.nodup`.
-/

set_option autoImplicit false

namespace PdfScene.PageTree

/-- A page, before it has a number. -/
structure Found where
  ref : Option ObjRef
  dict : Dict
  /-- The nodes above it, nearest first. -/
  ancestors : List Dict

/-- The page with its number. -/
def Found.leaf (index : Nat) (found : Found) : Leaf :=
  ⟨index, found.ref, found.dict, found.ancestors⟩

/-- A node that no reference among `entered` leads to. -/
def Fresh (o : Obj) (entered : List ObjRef) : Prop := ∀ r, o.ref? = some r → r ∉ entered

/-- The references that have been entered with the one that a node is. -/
def enter (o : Obj) (entered : List ObjRef) : List ObjRef := entered ++ o.ref?.toList

/-- Visits to some nodes below `ancestors`, one after the other: from the references that have been
entered before, to those that have been after, with the pages that are found on the way. -/
inductive Visits (lib : Library) :
    List Dict → List Obj → List ObjRef → List ObjRef → List Found → Prop where
  | nil {ancestors : List Dict} {entered : List ObjRef} : Visits lib ancestors [] entered entered []
  /-- A reference that has been entered is passed over. -/
  | again {ancestors : List Dict} {o : Obj} {os : List Obj} {r : ObjRef} {entered after : List ObjRef}
      {found : List Found} (href : o.ref? = some r) (hentered : r ∈ entered)
      (rest : Visits lib ancestors os entered after found) :
      Visits lib ancestors (o :: os) entered after found
  | page {ancestors : List Dict} {o : Obj} {os : List Obj} {d : Dict} {entered after : List ObjRef}
      {found : List Found} (hfresh : Fresh o entered) (hnode : Node.ofObj lib o = .page d)
      (rest : Visits lib ancestors os (enter o entered) after found) :
      Visits lib ancestors (o :: os) entered after (⟨o.ref?, d, ancestors⟩ :: found)
  | tree {ancestors : List Dict} {o : Obj} {os : List Obj} {d : Dict}
      {entered between after : List ObjRef} {inner found : List Found} (hfresh : Fresh o entered)
      (hnode : Node.ofObj lib o = .tree d)
      (below : Visits lib (d :: ancestors) (kids lib d) (enter o entered) between inner)
      (rest : Visits lib ancestors os between after found) :
      Visits lib ancestors (o :: os) entered after (inner ++ found)
  | other {ancestors : List Dict} {o : Obj} {os : List Obj} {entered after : List ObjRef}
      {found : List Found} (hfresh : Fresh o entered) (hnode : Node.ofObj lib o = .other)
      (rest : Visits lib ancestors os (enter o entered) after found) :
      Visits lib ancestors (o :: os) entered after found

/-- The references that a walk has followed, and the pages that it has found with their numbers. -/
structure Walk.Stands (w : Walk) (entered : List ObjRef) (found : List Found) : Prop where
  visited : ∀ r, w.visited.contains r ↔ r ∈ entered
  leaves : w.leaves.toList = found.mapIdx Found.leaf

namespace Walk.Stands

variable {w w' : Walk} {o : Obj} {entered : List ObjRef} {found : List Found}

theorem start : Walk.start.Stands [] [] where
  visited r := by simp [Walk.start]
  leaves := rfl

theorem enter?_again (h : w.Stands entered found) {r : ObjRef} (href : o.ref? = some r)
    (hr : r ∈ entered) : w.enter? o = none := by
  rw [Walk.enter?, href]
  exact if_pos ((h.visited r).mpr hr)

theorem enter?_fresh (h : w.Stands entered found) (hfresh : Fresh o entered) :
    ∃ w', w.enter? o = some w' ∧ w'.Stands (enter o entered) found := by
  cases href : o.ref? with
  | none =>
    refine ⟨w, by rw [Walk.enter?, href], ?_⟩
    rwa [enter, href, Option.toList_none, List.append_nil]
  | some r =>
    have hnew : ¬ w.visited.contains r := fun hr => hfresh r href ((h.visited r).mp hr)
    refine ⟨{ w with visited := w.visited.insert r }, ?_, ⟨fun s => ?_, h.leaves⟩⟩
    · rw [Walk.enter?, href]
      exact if_neg hnew
    · rw [Std.HashSet.contains_insert, Bool.or_eq_true, beq_iff_eq, h.visited s, enter, href,
        Option.toList_some, List.mem_append, List.mem_singleton, or_comm, eq_comm]

theorem push (h : w.Stands entered found) (page : Found) :
    (w.push page.ref page.dict page.ancestors).Stands entered (found ++ [page]) where
  visited := h.visited
  leaves := by
    have hsize : w.leaves.size = found.length := by
      rw [← Array.length_toList, h.leaves, List.length_mapIdx]
    simp [Walk.push, h.leaves, hsize, List.mapIdx_append, Found.leaf]

end Walk.Stands

/-! ## Nodes -/

theorem dict_of_page {lib : Library} {o : Obj} {d : Dict} (h : Node.ofObj lib o = .page d) :
    (lib.resolve o).dict? = some d := by
  unfold Node.ofObj at h
  split at h <;> cases h
  assumption

theorem dict_of_tree {lib : Library} {o : Obj} {d : Dict} (h : Node.ofObj lib o = .tree d) :
    (lib.resolve o).dict? = some d := by
  unfold Node.ofObj at h
  split at h <;> cases h
  assumption

/-! ## What a walk does at a node -/

section AtNode

variable {lib : Library} {ancestors : List Dict} {w w' : Walk} {o : Obj} {d : Dict}

theorem walk_again (henter : w.enter? o = none) : walk lib ancestors w o = some w := by
  rw [walk, henter]

theorem walk_page (henter : w.enter? o = some w') (hnode : Node.ofObj lib o = .page d) :
    walk lib ancestors w o = some (w'.push o.ref? d ancestors) := by
  rw [walk, henter]
  dsimp only
  rw [hnode]

theorem walk_tree (henter : w.enter? o = some w') (hnode : Node.ofObj lib o = .tree d) :
    walk lib ancestors w o = (kids lib d).foldlM (walk lib (d :: ancestors)) w' := by
  rw [walk, henter]
  dsimp only
  rw [hnode]

theorem walk_other (henter : w.enter? o = some w') (hnode : Node.ofObj lib o = .other) :
    walk lib ancestors w o = some w' := by
  rw [walk, henter]
  dsimp only
  rw [hnode]

end AtNode

/-! ## Walks and visits -/

theorem Visits.cons {lib : Library} {ancestors : List Dict} {o : Obj} {os : List Obj}
    {entered between after : List ObjRef} {first found : List Found}
    (hfirst : Visits lib ancestors [o] entered between first)
    (hrest : Visits lib ancestors os between after found) :
    Visits lib ancestors (o :: os) entered after (first ++ found) := by
  cases hfirst with
  | again href hentered rest => cases rest; exact .again href hentered hrest
  | page hfresh hnode rest => cases rest; exact .page hfresh hnode hrest
  | tree hfresh hnode below rest =>
    cases rest
    rw [List.append_nil]
    exact .tree hfresh hnode below hrest
  | other hfresh hnode rest => cases rest; exact .other hfresh hnode hrest

/-- Visits to some nodes lead from one state of a walk to another. -/
def Leads (lib : Library) (ancestors : List Dict) (os : List Obj) (w w' : Walk) : Prop :=
  ∀ entered found, w.Stands entered found →
    ∃ after more, Visits lib ancestors os entered after more ∧ w'.Stands after (found ++ more)

section Walking

variable {lib : Library} {ancestors : List Dict} {w w' : Walk} {o : Obj} {os : List Obj}

theorem Leads.nil : Leads lib ancestors [] w w :=
  fun entered _ hstands => ⟨entered, [], .nil, by rwa [List.append_nil]⟩

theorem Leads.cons {between : Walk} (hfirst : Leads lib ancestors [o] w between)
    (hrest : Leads lib ancestors os between w') : Leads lib ancestors (o :: os) w w' := by
  intro entered found hstands
  obtain ⟨_, first, hvisits, hstands⟩ := hfirst entered found hstands
  obtain ⟨after, more, hmore, hstands⟩ := hrest _ _ hstands
  exact ⟨after, first ++ more, hvisits.cons hmore, by rwa [← List.append_assoc]⟩

theorem leads_of_foldlM {f : Walk → Obj → Option Walk}
    (hf : ∀ w o w', f w o = some w' → Leads lib ancestors [o] w w') (h : os.foldlM f w = some w') :
    Leads lib ancestors os w w' := by
  induction os generalizing w with
  | nil => cases h; exact .nil
  | cons o os ih =>
    rw [List.foldlM_cons] at h
    obtain ⟨between, hfirst, hrest⟩ := Option.bind_eq_some_iff.mp h
    exact (hf _ _ _ hfirst).cons (ih hrest)

/-- **A walk that has an end visits nodes.** The induction is on the calls that come to an end. -/
theorem leads_of_walk (h : walk lib ancestors w o = some w') : Leads lib ancestors [o] w w' := by
  refine walk.partial_correctness lib (fun ancestors w o w' => Leads lib ancestors [o] w w') ?_
    ancestors w o w' h
  intro walk ih ancestors w o w' h entered found hstands
  by_cases hfresh : Fresh o entered
  · obtain ⟨w₁, henter, hstands₁⟩ := hstands.enter?_fresh hfresh
    rw [henter] at h
    cases hnode : Node.ofObj lib o with
    | page d =>
      simp only [hnode, Option.some.injEq] at h
      subst h
      exact ⟨_, _, .page hfresh hnode .nil, hstands₁.push ⟨o.ref?, d, ancestors⟩⟩
    | tree d =>
      simp only [hnode] at h
      obtain ⟨after, more, hvisits, hstands⟩ := leads_of_foldlM (ih (d :: ancestors)) h _ _ hstands₁
      exact ⟨after, more ++ [], .tree hfresh hnode hvisits .nil, by rwa [List.append_nil]⟩
    | other =>
      simp only [hnode, Option.some.injEq] at h
      subst h
      exact ⟨_, [], .other hfresh hnode .nil, by rwa [List.append_nil]⟩
  · obtain ⟨r, href, hr⟩ : ∃ r, o.ref? = some r ∧ r ∈ entered := by
      simpa [Fresh] using hfresh
    rw [hstands.enter?_again href hr] at h
    cases h
    exact ⟨entered, [], .again href hr .nil, by rwa [List.append_nil]⟩

/-- **Where nodes can be visited, a walk has an end.** -/
theorem foldlM_of_visits {entered after : List ObjRef} {found more : List Found}
    (h : Visits lib ancestors os entered after more) (hstands : w.Stands entered found) :
    ∃ w', os.foldlM (walk lib ancestors) w = some w' ∧ w'.Stands after (found ++ more) := by
  induction h generalizing w found with
  | nil => exact ⟨w, rfl, by rwa [List.append_nil]⟩
  | again href hentered rest ih =>
    obtain ⟨w', hw', hstands'⟩ := ih hstands
    refine ⟨w', ?_, hstands'⟩
    rw [List.foldlM_cons, walk_again (hstands.enter?_again href hentered)]
    exact hw'
  | @page ancestors o os d entered after found' hfresh hnode rest ih =>
    obtain ⟨w₁, henter, hstands₁⟩ := hstands.enter?_fresh hfresh
    obtain ⟨w', hw', hstands'⟩ := ih (hstands₁.push ⟨o.ref?, d, ancestors⟩)
    refine ⟨w', ?_, by rwa [List.append_assoc] at hstands'⟩
    rw [List.foldlM_cons, walk_page henter hnode]
    exact hw'
  | tree hfresh hnode below rest ihbelow ihrest =>
    obtain ⟨w₁, henter, hstands₁⟩ := hstands.enter?_fresh hfresh
    obtain ⟨w₂, hw₂, hstands₂⟩ := ihbelow hstands₁
    obtain ⟨w', hw', hstands'⟩ := ihrest hstands₂
    refine ⟨w', ?_, by rwa [List.append_assoc] at hstands'⟩
    rw [List.foldlM_cons, walk_tree henter hnode, hw₂]
    exact hw'
  | other hfresh hnode rest ih =>
    obtain ⟨w₁, henter, hstands₁⟩ := hstands.enter?_fresh hfresh
    obtain ⟨w', hw', hstands'⟩ := ih hstands₁
    refine ⟨w', ?_, hstands'⟩
    rw [List.foldlM_cons, walk_other henter hnode]
    exact hw'

end Walking

/-! ## What has been entered -/

section Entering

variable {lib : Library} {ancestors : List Dict} {o : Obj} {os : List Obj}
  {entered after : List ObjRef} {found : List Found}

theorem mem_enter {r : ObjRef} : r ∈ enter o entered ↔ r ∈ entered ∨ o.ref? = some r := by
  rw [enter, List.mem_append, Option.mem_toList]

theorem nodup_enter (hfresh : Fresh o entered) (h : entered.Nodup) : (enter o entered).Nodup := by
  rw [enter]
  cases href : o.ref? with
  | none => rwa [Option.toList_none, List.append_nil]
  | some r =>
    refine List.nodup_append.mpr ⟨h, by simp, fun s hs t ht => ?_⟩
    rintro rfl
    rw [Option.toList_some, List.mem_singleton] at ht
    exact hfresh s (ht ▸ href) hs

theorem Visits.subset (h : Visits lib ancestors os entered after found) : entered ⊆ after := by
  induction h with
  | nil => exact List.Subset.refl _
  | again _ _ _ ih => exact ih
  | page _ _ _ ih => exact fun _ hr => ih (mem_enter.mpr (.inl hr))
  | tree _ _ _ _ ihbelow ihrest => exact fun _ hr => ihrest (ihbelow (mem_enter.mpr (.inl hr)))
  | other _ _ _ ih => exact fun _ hr => ih (mem_enter.mpr (.inl hr))

/-- **No reference is entered twice.** -/
theorem Visits.nodup (h : Visits lib ancestors os entered after found) (hnodup : entered.Nodup) :
    after.Nodup := by
  induction h with
  | nil => exact hnodup
  | again _ _ _ ih => exact ih hnodup
  | page hfresh _ _ ih => exact ih (nodup_enter hfresh hnodup)
  | tree hfresh _ _ _ ihbelow ihrest => exact ihrest (ihbelow (nodup_enter hfresh hnodup))
  | other hfresh _ _ ih => exact ih (nodup_enter hfresh hnodup)

end Entering

end PdfScene.PageTree
