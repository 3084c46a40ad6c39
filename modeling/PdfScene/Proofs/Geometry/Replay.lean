import Mathlib
import PdfScene.Geometry.Path

/-!
# Paths and their segments

A path keeps two points beside its segments so that it need not look back for them: where its next
segment starts, and where its subpath started. A `Pen` draws the segments over again, and
`Path.Consistent` says that it comes to the same two points, that the first segment is a move, and that
nothing is closed twice.

Each way to build a path adds segments that may stand there (`Consistent.add`), also where it makes do
without a point to start from or finds the subpath closed. So every path is consistent, however it was
built, mapping its points keeps it so, and its segments alone decide what the next step adds
(`build_consistent`).
-/

set_option autoImplicit false

namespace PdfScene

/-! ## Drawing segments over again -/

namespace Segment

/-- Where a move leads. -/
def move? : Segment → Option Point
  | move p => some p
  | _ => none

/-- The end of a segment that has one of its own. -/
def stop? : Segment → Option Point
  | move p => some p
  | line p => some p
  | curve _ _ p => some p
  | close => none

theorem move?_map (f : Point → Point) (s : Segment) : (s.map f).move? = s.move?.map f := by
  cases s <;> rfl

theorem map_eq_close_iff {f : Point → Point} {s : Segment} : s.map f = .close ↔ s = .close := by
  cases s <;> simp [map]

end Segment

/-- Where the last move leads. -/
def lastMove? (ss : List Segment) : Option Point := (ss.filterMap Segment.move?).getLast?

theorem lastMove?_concat (ss : List Segment) (s : Segment) :
    lastMove? (ss ++ [s]) = s.move?.or (lastMove? ss) := by
  rw [lastMove?, List.filterMap_append, List.getLast?_append]
  cases s <;> rfl

theorem lastMove?_map (f : Point → Point) (ss : List Segment) :
    lastMove? (ss.map (Segment.map f)) = (lastMove? ss).map f := by
  have hmove : Segment.move? ∘ Segment.map f = fun s => s.move?.map f :=
    funext (Segment.move?_map f)
  rw [lastMove?, List.filterMap_map, hmove, ← List.map_filterMap, List.getLast?_map]
  rfl

/-- A pen: where it stands, and where it started the subpath. -/
structure Pen where
  current : Option Point
  start : Option Point

namespace Pen

/-- A pen that has drawn nothing. -/
def lifted : Pen := ⟨none, none⟩

def draw (pen : Pen) : Segment → Pen
  | .move p => ⟨some p, some p⟩
  | .line p => { pen with current := some p }
  | .curve _ _ p => { pen with current := some p }
  | .close => { pen with current := pen.start }

def drawAll (pen : Pen) (ss : List Segment) : Pen := ss.foldl draw pen

def map (pen : Pen) (f : Point → Point) : Pen := ⟨pen.current.map f, pen.start.map f⟩

theorem drawAll_concat (pen : Pen) (ss : List Segment) (s : Segment) :
    pen.drawAll (ss ++ [s]) = (pen.drawAll ss).draw s := List.foldl_concat draw pen s ss

theorem draw_map (pen : Pen) (f : Point → Point) (s : Segment) :
    (pen.map f).draw (s.map f) = (pen.draw s).map f := by
  cases s <;> rfl

theorem drawAll_map (pen : Pen) (f : Point → Point) (ss : List Segment) :
    (pen.map f).drawAll (ss.map (Segment.map f)) = (pen.drawAll ss).map f := by
  induction ss generalizing pen with
  | nil => rfl
  | cons s ss ih =>
    rw [List.map_cons, drawAll, List.foldl_cons, draw_map]
    exact ih (pen.draw s)

/-- A pen that draws from nothing started where the last move led. -/
theorem drawAll_start (ss : List Segment) : (lifted.drawAll ss).start = lastMove? ss := by
  induction ss using List.reverseRecOn with
  | nil => rfl
  | append_singleton ss s ih =>
    rw [drawAll_concat, lastMove?_concat]
    cases s with
    | move p => rfl
    | _ => exact ih

/-- It stands at the end of the last segment, or at that of the last move if a subpath was closed. -/
theorem drawAll_current (ss : List Segment) :
    (lifted.drawAll ss).current = ss.getLast?.bind fun s => s.stop?.or (lastMove? ss) := by
  obtain rfl | ⟨ss, s, rfl⟩ := ss.eq_nil_or_concat
  · rfl
  rw [List.concat_eq_append, drawAll_concat, List.getLast?_concat, Option.bind_some, lastMove?_concat]
  cases s with
  | close => exact drawAll_start ss
  | _ => rfl

end Pen

namespace Path

/-! ## Consistency -/

/-- The pen behind a path, as the path has it. -/
def pen (p : Path) : Pen := ⟨p.current, p.start⟩

/-- What a path keeps beside its segments is what they say, and they could have been drawn. -/
structure Consistent (p : Path) : Prop where
  isEmpty_iff : p.isEmpty = true ↔ p.current = none
  exists_move : p.toList ≠ [] → ∃ q rest, p.toList = .move q :: rest
  isChain : p.toList.IsChain fun s t => s = .close → t ≠ .close
  start_eq : p.start = lastMove? p.toList
  current_eq : p.current = (Pen.lifted.drawAll p.toList).current

variable {p : Path} {s : Segment}

theorem isEmpty_iff_toList : p.isEmpty = true ↔ p.toList = [] := by
  rw [isEmpty, toList, Array.isEmpty_iff, Array.toList_eq_nil_iff]

theorem isClosed_iff : p.isClosed = true ↔ p.toList.getLast? = some .close := by
  rw [isClosed, toList, Array.getLast?_toList]
  split <;> simp_all

theorem Consistent.pen_eq (h : p.Consistent) : p.pen = Pen.lifted.drawAll p.toList := by
  rw [pen, h.current_eq, h.start_eq, ← Pen.drawAll_start]

/-- Whether there is a point to go on from shows in the segments. -/
theorem Consistent.toList_eq_nil_iff (h : p.Consistent) : p.toList = [] ↔ p.current = none :=
  isEmpty_iff_toList.symm.trans h.isEmpty_iff

theorem Consistent.toList_isEmpty (h : p.Consistent) {q : Point} (hcurrent : p.current = some q) :
    p.toList.isEmpty = false := by
  rw [List.isEmpty_eq_false_iff, ne_eq, h.toList_eq_nil_iff, hcurrent]
  exact Option.some_ne_none q

/-- Where there is a point to go on from, a subpath was started. -/
theorem Consistent.start_ne_none (h : p.Consistent) (hcurrent : p.current ≠ none) : p.start ≠ none := by
  obtain ⟨q, rest, hsegments⟩ := h.exists_move (mt h.toList_eq_nil_iff.mp hcurrent)
  rw [h.start_eq, hsegments, lastMove?, ne_eq, List.getLast?_eq_none_iff]
  exact List.cons_ne_nil q _

theorem consistent_empty : empty.Consistent where
  isEmpty_iff := ⟨fun _ => rfl, fun _ => rfl⟩
  exists_move h := absurd rfl h
  isChain := List.isChain_nil
  start_eq := rfl
  current_eq := rfl

/-- The path with one more segment, which leaves the pen where drawing it does. -/
def add (p : Path) (s : Segment) : Path :=
  ⟨p.segments.push s, (p.pen.draw s).current, (p.pen.draw s).start⟩

theorem toList_add (p : Path) (s : Segment) : (p.add s).toList = p.toList ++ [s] := Array.toList_push

/-- **A segment may be added that is a move or has a point to start from, and closes nothing twice.** -/
theorem Consistent.add (h : p.Consistent) (hopen : p.current = none → ∃ q, s = .move q)
    (hclose : s = .close → p.isClosed = false) : (p.add s).Consistent where
  isEmpty_iff := by
    have hcurrent : (p.pen.draw s).current ≠ none := by
      cases s with
      | close => exact h.start_ne_none fun hnone => nomatch hopen hnone
      | _ => exact Option.some_ne_none _
    exact ⟨fun hempty => by simp [Path.add, isEmpty] at hempty, fun hnone => absurd hnone hcurrent⟩
  exists_move _ := by
    rw [toList_add]
    by_cases hnil : p.toList = []
    · obtain ⟨q, rfl⟩ := hopen (h.toList_eq_nil_iff.mp hnil)
      exact ⟨q, [], by rw [hnil]; rfl⟩
    · obtain ⟨q, rest, hsegments⟩ := h.exists_move hnil
      exact ⟨q, rest ++ [s], by rw [hsegments]; rfl⟩
  isChain := by
    rw [toList_add, List.isChain_append]
    refine ⟨h.isChain, List.isChain_singleton s, fun last hlast t ht hlastClose htClose => ?_⟩
    cases ht
    have hclosed : p.isClosed = true := isClosed_iff.mpr (hlastClose ▸ hlast)
    rw [hclose htClose] at hclosed
    cases hclosed
  start_eq := by
    rw [toList_add, ← Pen.drawAll_start, Pen.drawAll_concat, ← h.pen_eq]
    rfl
  current_eq := by
    rw [toList_add, Pen.drawAll_concat, ← h.pen_eq]
    rfl

/-- Where there is a point to start from, the segment need not be a move. -/
theorem Consistent.add_of_current (h : p.Consistent) {q : Point} (hcurrent : p.current = some q)
    (hclose : s = .close → p.isClosed = false) : (p.add s).Consistent :=
  h.add (fun hnone => nomatch hcurrent.symm.trans hnone) hclose

/-! ## Ways to build a path -/

theorem Consistent.moveTo (h : p.Consistent) (q : Point) : (p.moveTo q).Consistent :=
  h.add (fun _ => ⟨q, rfl⟩) nofun

theorem Consistent.lineTo (h : p.Consistent) (q : Point) : (p.lineTo q).Consistent := by
  unfold Path.lineTo
  split
  · exact h.moveTo q
  · rename_i hcurrent
    exact h.add_of_current (s := .line q) hcurrent nofun

theorem Consistent.curveTo (h : p.Consistent) (c1 c2 q : Point) : (p.curveTo c1 c2 q).Consistent := by
  unfold Path.curveTo
  split
  · exact (h.moveTo c1).add_of_current (s := .curve c1 c2 q) rfl nofun
  · rename_i hcurrent
    exact h.add_of_current (s := .curve c1 c2 q) hcurrent nofun

/-- Closing once more changes nothing: the pen stands where the subpath started. -/
theorem Consistent.current_eq_start (h : p.Consistent) (hclosed : p.isClosed = true) :
    p.current = p.start := by
  rw [h.current_eq, Pen.drawAll_current, isClosed_iff.mp hclosed, h.start_eq]
  rfl

theorem Consistent.close (h : p.Consistent) : p.close.Consistent := by
  unfold Path.close
  split
  · exact h
  · rename_i hcurrent
    split
    -- closed already: the pen is where closing would put it
    · rename_i hclosed
      have hp : { p with current := p.start } = p :=
        congrArg (fun q => { p with current := q }) (h.current_eq_start hclosed).symm
      rw [hp]
      exact h
    · rename_i hclosed
      exact h.add_of_current (s := .close) hcurrent fun _ => Bool.eq_false_iff.mpr hclosed

/-- Closing leads back to the last move. -/
theorem Consistent.current_close (h : p.Consistent) : p.close.current = lastMove? p.toList := by
  rw [← h.start_eq]
  unfold Path.close
  split
  · rename_i hcurrent
    rw [hcurrent, h.start_eq, h.toList_eq_nil_iff.mpr hcurrent]
    rfl
  · rfl

theorem Consistent.rect (h : p.Consistent) (x y width height : Float) :
    (p.rect x y width height).Consistent :=
  ((((h.moveTo _).lineTo _).lineTo _).lineTo _).close

/-! ## Building a path step by step -/

/-- One way to build a path further. -/
inductive Step where
  | moveTo (q : Point)
  | lineTo (q : Point)
  | curveTo (c1 c2 q : Point)
  | rect (x y width height : Float)
  | close
  | clear

def build (p : Path) : Step → Path
  | .moveTo q => p.moveTo q
  | .lineTo q => p.lineTo q
  | .curveTo c1 c2 q => p.curveTo c1 c2 q
  | .rect x y width height => p.rect x y width height
  | .close => p.close
  | .clear => .empty

def buildAll (p : Path) (steps : List Step) : Path := steps.foldl build p

/-- Where a step behind the segments `ss` leads. -/
def Step.target? (ss : List Segment) : Step → Option Point
  | moveTo q => some q
  | lineTo q => some q
  | curveTo _ _ q => some q
  | rect x y _ _ => some (x, y)
  | close => lastMove? ss
  | clear => none

/-- What the segments `ss` are behind a step. A curve with nothing to start from starts at its first
control point, and a subpath is closed once. -/
def Step.segments (ss : List Segment) : Step → List Segment
  | moveTo q => ss ++ [.move q]
  | lineTo q => if ss.isEmpty then [.move q] else ss ++ [.line q]
  | curveTo c1 c2 q => if ss.isEmpty then [.move c1, .curve c1 c2 q] else ss ++ [.curve c1 c2 q]
  | rect x y width height =>
    ss ++ [.move (x, y), .line (x + width, y), .line (x + width, y + height), .line (x, y + height),
      .close]
  | close =>
    match ss.getLast? with
    | none | some .close => ss
    | some _ => ss ++ [.close]
  | clear => []

theorem Consistent.build (h : p.Consistent) (step : Step) : (p.build step).Consistent := by
  cases step with
  | moveTo q => exact h.moveTo q
  | lineTo q => exact h.lineTo q
  | curveTo c1 c2 q => exact h.curveTo c1 c2 q
  | rect x y width height => exact h.rect x y width height
  | close => exact h.close
  | clear => exact consistent_empty

theorem Consistent.buildAll (h : p.Consistent) (steps : List Step) : (p.buildAll steps).Consistent := by
  induction steps generalizing p with
  | nil => exact h
  | cons step steps ih => exact ih (h.build step)

theorem Consistent.current_build (h : p.Consistent) (step : Step) :
    (p.build step).current = step.target? p.toList := by
  cases step with
  | lineTo q =>
    show (p.lineTo q).current = some q
    unfold Path.lineTo
    split <;> rfl
  | close => exact h.current_close
  | _ => rfl

theorem toList_moveTo (p : Path) (q : Point) : (p.moveTo q).toList = p.toList ++ [.move q] :=
  Array.toList_push

theorem Consistent.toList_lineTo (h : p.Consistent) (q : Point) :
    (p.lineTo q).toList = (Step.lineTo q).segments p.toList := by
  unfold Path.lineTo Step.segments
  split
  · rename_i hcurrent
    rw [toList_moveTo, h.toList_eq_nil_iff.mpr hcurrent]
    rfl
  · rename_i hcurrent
    rw [h.toList_isEmpty hcurrent]
    exact Array.toList_push

theorem Consistent.toList_curveTo (h : p.Consistent) (c1 c2 q : Point) :
    (p.curveTo c1 c2 q).toList = (Step.curveTo c1 c2 q).segments p.toList := by
  unfold Path.curveTo Step.segments
  split
  · rename_i hcurrent
    have hmove : (p.moveTo c1).toList = [.move c1] := by
      rw [toList_moveTo, h.toList_eq_nil_iff.mpr hcurrent, List.nil_append]
    show ((p.moveTo c1).segments.push (.curve c1 c2 q)).toList = _
    rw [Array.toList_push, ← toList, hmove, h.toList_eq_nil_iff.mpr hcurrent]
    rfl
  · rename_i hcurrent
    rw [h.toList_isEmpty hcurrent]
    exact Array.toList_push

theorem Consistent.toList_close (h : p.Consistent) :
    p.close.toList = Step.close.segments p.toList := by
  unfold Path.close Step.segments
  split
  · rename_i hcurrent
    rw [h.toList_eq_nil_iff.mpr hcurrent]
    rfl
  · rename_i hcurrent
    split
    · rename_i hclosed
      rw [isClosed_iff.mp hclosed]
      rfl
    -- something is open, so there is a last segment
    · rename_i hclosed
      rw [isClosed_iff] at hclosed
      cases hlast : p.toList.getLast? with
      | none =>
        rw [List.getLast?_eq_none_iff, h.toList_eq_nil_iff, hcurrent] at hlast
        cases hlast
      | some s =>
        cases s with
        | close => exact absurd hlast hclosed
        | _ => exact Array.toList_push

theorem toList_rect (p : Path) (x y width height : Float) :
    (p.rect x y width height).toList = (Step.rect x y width height).segments p.toList := by
  simp [Path.rect, Path.moveTo, Path.lineTo, Path.close, isClosed, toList, Step.segments]

/-- **What a step adds depends on the segments alone.** -/
theorem Consistent.toList_build (h : p.Consistent) (step : Step) :
    (p.build step).toList = step.segments p.toList := by
  cases step with
  | moveTo q => exact toList_moveTo p q
  | lineTo q => exact h.toList_lineTo q
  | curveTo c1 c2 q => exact h.toList_curveTo c1 c2 q
  | rect x y width height => exact toList_rect p x y width height
  | close => exact h.toList_close
  | clear => rfl

/-! ## Paths with other points -/

theorem toList_map (p : Path) (f : Point → Point) : (p.map f).toList = p.toList.map (Segment.map f) :=
  Array.toList_map

theorem Consistent.map (h : p.Consistent) (f : Point → Point) : (p.map f).Consistent where
  isEmpty_iff := by
    rw [isEmpty_iff_toList, toList_map, List.map_eq_nil_iff, ← isEmpty_iff_toList, h.isEmpty_iff]
    exact Option.map_eq_none_iff.symm
  exists_move hne := by
    rw [toList_map] at hne ⊢
    obtain ⟨q, rest, hsegments⟩ := h.exists_move fun hnil => hne (by rw [hnil]; rfl)
    exact ⟨f q, rest.map (Segment.map f), by rw [hsegments]; rfl⟩
  isChain := by
    rw [toList_map, List.isChain_map]
    exact h.isChain.imp fun s t hst hs ht =>
      hst (Segment.map_eq_close_iff.mp hs) (Segment.map_eq_close_iff.mp ht)
  start_eq := by
    rw [toList_map, lastMove?_map, ← h.start_eq]
    rfl
  current_eq := by
    have hdraw := Pen.drawAll_map .lifted f p.toList
    rw [← h.pen_eq] at hdraw
    rw [toList_map]
    exact congrArg Pen.current hdraw.symm

/-- **A path is what its segments say, however it was built.** Let a path have been built from the empty
one in any way. It is empty exactly when there is no point to go on from; else it starts with a move. It
closes nothing twice. Its subpath started at its last move, and drawing its segments over again leads to
its point to go on from: the end of the last segment, or of the last move if that closes a subpath. The
next step adds the segments and leads where it says, with nothing but the segments to go by. A path that
is transformed has its segments at other points, and is consistent if it was. -/
theorem build_consistent (steps : List Step) (p : Path) (m : Affine Float) :
    let built := empty.buildAll steps
    built.Consistent ∧
      (built.current = built.toList.getLast?.bind fun s => s.stop?.or (lastMove? built.toList)) ∧
      (∀ step, (built.build step).toList = step.segments built.toList ∧
        (built.build step).current = step.target? built.toList) ∧
      (p.transformed m).toList = p.toList.map (Segment.map m.apply) ∧
      (p.Consistent → (p.transformed m).Consistent) := by
  intro built
  have hbuilt : built.Consistent := consistent_empty.buildAll steps
  refine ⟨hbuilt, ?_, fun step => ⟨hbuilt.toList_build step, hbuilt.current_build step⟩,
    toList_map p m.apply, fun h => h.map m.apply⟩
  rw [hbuilt.current_eq, Pen.drawAll_current]

/-- A line with nothing to start from, closed twice and drawn on from there. -/
theorem build_consistent_degraded :
    let p := empty.buildAll [.close, .lineTo (3, 4), .lineTo (5, 6), .close, .close, .lineTo (7, 8)]
    p.toList = [.move (3, 4), .line (5, 6), .close, .line (7, 8)] ∧ p.start = some (3, 4) ∧
      p.Consistent ∧ (p.transformed (.scale 2 3)).Consistent := by
  intro p
  have hp : p.Consistent :=
    (build_consistent [.close, .lineTo (3, 4), .lineTo (5, 6), .close, .close, .lineTo (7, 8)] p
      .identity).1
  exact ⟨rfl, rfl, hp, (build_consistent [] p (.scale 2 3)).2.2.2.2 hp⟩

end Path

end PdfScene
