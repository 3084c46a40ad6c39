import Mathlib
import PdfScene.Document.Page
import PdfScene.Proofs.Content.Segments
import PdfScene.Proofs.Content.Rereading

/-!
# Pages whose content comes in segments

The content of a page is the data of one stream or of several, decoded one after the other and joined
by line feeds. `Page.segments` is what is joined. If all segments but perhaps the last are closed, what
is carried out for the page are the operations of the segments, in order: `Page.read_segments`.
-/

set_option autoImplicit false

namespace PdfScene

open Operation Run

/-- What comes of operations that no form contains. -/
def Content.carryOut (lib : Library) (mode : Mode) (options : Options) (scopes : Scopes)
    (state : GraphicsState) (os : List Operation) : Run (Except Error Scene) := do
  let c : Context :=
    { lib
      mode
      recordText := options.recordText
      scopes
      invoke := Content.invoke lib mode options options.formDepth [] }
  match ← (Machine.start state).performAll c os with
  | .ok m => pure (.ok m.scene)
  | .error e => pure (.error e)

/-- Interpreting content is carrying out its operations. -/
theorem Content.interpret_eq_carryOut (lib : Library) (mode : Mode) (options : Options) (scopes : Scopes)
    (state : GraphicsState) (data : Bytes) :
    interpret lib mode options scopes state data =
      carryOut lib mode options scopes state (readAll data) := rfl

namespace Page

/-- The decoded data of the streams among some entries, none if one of them cannot be decoded. -/
def segments (lib : Library) : List Obj → Run (Option (List Bytes))
  | [] => pure (some [])
  | o :: rest => do
    match (lib.resolve o).stream? with
    | none => segments lib rest
    | some s =>
      match ← Memory.decode lib.inflate s with
      | .error _ => pure none
      | .ok decoded =>
        let others ← segments lib rest
        pure (others.map (decoded.data :: ·))

/-- The shapes of a page, none if its content cannot be carried out to the end. -/
def shapesOf : Except Error Scene → Shapes
  | .ok scene => scene.shapes
  | .error _ => #[]

variable (lib : Library)

/-- Behind an entry, each segment comes after a line feed. -/
theorem readEntries_behind (entries : List Obj) (data : Array UInt8) (refs : List ObjRef) :
    Rel (fun found segs =>
        found.1 = segs.map fun segs => data.toList ++ segs.flatMap (0x0A :: ·))
      (readEntries lib false data refs entries) (segments lib entries) := by
  induction entries generalizing data refs with
  | nil => exact Rel.pure (congrArg some (List.append_nil _).symm)
  | cons o rest ih =>
    unfold readEntries segments
    cases hs : (lib.resolve o).stream? with
    | none => exact ih _ _
    | some s =>
      refine Rel.bind_refl fun answer => ?_
      cases answer with
      | error e => exact Rel.pure rfl
      | ok decoded =>
        refine (ih (data.push 10 ++ decoded.data) (s.ref.toList ++ refs)).then_pure
          fun found segs hfound => ?_
        rw [hfound, Option.map_map]
        refine congrArg (segs.map ·) (funext fun segs => ?_)
        simp [List.append_assoc]

/-- Segments joined by line feeds, with one more in front or not. -/
theorem flatMap_lineFeed (s : Bytes) (segs : List Bytes) :
    s ++ segs.flatMap (0x0A :: ·) = [0x0A].intercalate (s :: segs) := by
  induction segs generalizing s with
  | nil => rw [List.flatMap_nil, List.append_nil, List.intercalate_singleton]
  | cons s' segs ih =>
    rw [List.flatMap_cons, List.intercalate_cons_cons, ← ih s', List.append_assoc]
    rfl

/-- **The entries of a page are read into its segments**, joined by line feeds. If the first entry is
no stream, there is one in front as well. -/
theorem readEntries_rel (entries : List Obj) :
    Rel (fun found segs => ∃ lead : Bytes, (lead = [] ∨ lead = [0x0A]) ∧
        found.1 = segs.map fun segs => lead ++ [0x0A].intercalate segs)
      (readEntries lib true #[] [] entries) (segments lib entries) := by
  cases entries with
  | nil => exact Rel.pure ⟨[], .inl rfl, rfl⟩
  | cons o rest =>
    unfold readEntries segments
    cases hs : (lib.resolve o).stream? with
    | none =>
      refine (readEntries_behind lib rest #[] []).mono fun found segs hfound => ?_
      rw [hfound]
      match segs with
      | none => exact ⟨[], .inl rfl, rfl⟩
      | some [] => exact ⟨[], .inl rfl, rfl⟩
      | some (s :: segs) =>
        exact ⟨[0x0A], .inr rfl, congrArg some (congrArg (0x0A :: ·) (flatMap_lineFeed s segs))⟩
    | some s =>
      refine Rel.bind_refl fun answer => ?_
      cases answer with
      | error e => exact Rel.pure ⟨[], .inl rfl, rfl⟩
      | ok decoded =>
        refine (readEntries_behind lib rest ((#[] : Array UInt8) ++ decoded.data)
          (s.ref.toList ++ [])).then_pure fun found segs hfound => ⟨[], .inl rfl, ?_⟩
        rw [hfound, Option.map_map]
        refine congrArg (segs.map ·) (funext fun segs => ?_)
        simpa using flatMap_lineFeed decoded.data segs

/-- **A page carries out the operations of its segments.** Segments that end between operations are
read one after the other, both where two pieces of content are joined by a line feed and where a page
joins the data of its content streams; none but the last need end so. What a page is then read to,
and what is remembered of reading it, comes of these operations alone; so does a panic. -/
theorem read_segments :
    (∀ a b : Bytes, (divide [] a).isClosed = true →
      readAll (a ++ 0x0A :: b) = readAll a ++ readAll b) ∧
    ∀ (lib : Library) (options : Options) (leaf : Leaf) (m m₁ m₂ : Memory) (scope : Scope)
      (segs : List Bytes), Scope.create (leaf.resources lib) m = (.ok scope, m₁) →
      segments lib (contentEntries lib leaf) m₁ = (.ok (some segs), m₂) →
      (∀ s ∈ segs.dropLast, (divide [] s).isClosed = true) →
        Panic.Rel
          (fun content result =>
            readAll content.data = segs.flatMap readAll ∧ content.shapes = shapesOf result)
          (read lib options leaf m).1
          (Content.carryOut lib .shapes options [scope] .initial (segs.flatMap readAll) m₂).1 ∧
        (read lib options leaf m).2 =
          (Content.carryOut lib .shapes options [scope] .initial (segs.flatMap readAll) m₂).2 := by
  refine ⟨fun a b h => readAll_joined h b, ?_⟩
  intro lib options leaf m m₁ m₂ scope segs hscope hsegs hclosed
  obtain ⟨hrel, hm⟩ := readEntries_rel lib (contentEntries lib leaf) m₁
  rcases hentries : readEntries lib true #[] [] (contentEntries lib leaf) m₁ with ⟨found, m'⟩
  rw [hentries, hsegs] at hrel hm
  obtain rfl : m' = m₂ := hm
  cases hrel with
  | @ok found _ hfound =>
    obtain ⟨data, refs⟩ := found
    obtain ⟨lead, hlead, rfl⟩ := hfound
    have hread : readAll (lead ++ [0x0A].intercalate segs) = segs.flatMap readAll := by
      rw [← readAll_intercalate hclosed]
      rcases hlead with rfl | rfl
      · rfl
      · exact readAll_lineFeed _
    unfold read
    rw [bind_of_eq hscope, bind_of_eq hentries]
    dsimp only [Option.map_some]
    rw [Content.interpret_eq_carryOut, hread]
    refine Rel.bind_left (fun result => ?_) m'
    cases result with
    | error e => exact Rel.pure ⟨hread, rfl⟩
    | ok scene => exact Rel.pure ⟨hread, rfl⟩

/-- A page of two content streams, of which the first ends in a comment. -/
def Leaf.split : Leaf where
  index := 0
  ref := none
  dict := [("Contents", .array [.stream [] (Bytes.ofAscii "q % Q") none,
    .stream [] (Bytes.ofAscii "Q") none])]
  ancestors := []

/-- The comment ends where its stream does. -/
theorem read_segments_split :
    readAll (Bytes.ofAscii "q % Q" ++ 0x0A :: Bytes.ofAscii "Q") =
        [⟨.save, []⟩, ⟨.restore, []⟩] ∧
      ∃ content, (read .empty .default Leaf.split (.initial .empty 0)).1 = .ok content ∧
        readAll content.data = [⟨.save, []⟩, ⟨.restore, []⟩] := by
  have hclosed : (divide [] (Bytes.ofAscii "q % Q")).isClosed = true := by cbv
  have hfirst : readAll (Bytes.ofAscii "q % Q") = [⟨.save, []⟩] := by cbv
  have hsecond : readAll (Bytes.ofAscii "Q") = [⟨.restore, []⟩] := by cbv
  have hsegments : segments .empty (contentEntries .empty Leaf.split)
      (Scope.create (Leaf.split.resources .empty) (.initial .empty 0)).2 =
      (.ok (some [Bytes.ofAscii "q % Q", Bytes.ofAscii "Q"]),
        (Scope.create (Leaf.split.resources .empty) (.initial .empty 0)).2) := by
    rfl
  obtain ⟨hjoined, hpage⟩ := read_segments
  obtain ⟨hrel, -⟩ := hpage .empty .default Leaf.split _ _ _ _ _ rfl hsegments
    fun s hs => List.mem_singleton.mp hs ▸ hclosed
  refine ⟨?_, ?_⟩
  · rw [hjoined _ _ hclosed, hfirst, hsecond]
    rfl
  · rw [List.flatMap_cons, List.flatMap_singleton, hfirst, hsecond] at hrel
    generalize (read .empty .default Leaf.split (.initial .empty 0)).1 = found at hrel
    cases hrel with
    | ok h => exact ⟨_, rfl, h.1⟩

end Page

end PdfScene
