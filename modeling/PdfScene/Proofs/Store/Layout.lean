import PdfScene.Proofs.Lexical.Digits
import PdfScene.Proofs.Store.Scanned
import PdfScene.Proofs.Store.Search

/-!
# Definitions laid out in a file

The simplest file is a preamble, definitions one after the other, and a trailer (`Layout`). Each
definition stands between its header and its `endobj`, and what stands between them may hold
anything else, even headers. Scanning goes from definition to definition: `definitions_written` is
the step from one to the next, and `Layout.definitions_eq` is the way through all of them.
-/

set_option autoImplicit false

namespace PdfScene.Scan

/-! ## Layouts -/

inductive LineEnd where
  | lf
  | cr
  | crlf

def LineEnd.bytes : LineEnd → Bytes
  | .lf => [0x0A]
  | .cr => [0x0D]
  | .crlf => [0x0D, 0x0A]

/-- The word after a definition. -/
def endKeyword : Bytes := Bytes.ofAscii "endobj"

/-- The word before a trailer dictionary. -/
def trailerKeyword : Bytes := Bytes.ofAscii "trailer"

/-- A definition as it is written: a header, a body without the word that ends it, and that word,
each on lines of their own. -/
structure Written where
  number : Digits
  generation : Digits
  body : Bytes
  afterKeyword : LineEnd
  afterBody : LineEnd
  afterEnd : LineEnd
  body_clear : ¬ endKeyword <:+: body

namespace Written

variable (d : Written)

/-- Whether a reference has the number and the generation of the header. -/
def Names (r : ObjRef) : Prop :=
  r.num.toNat = d.number.value ∧ r.generation.toNat = d.generation.value

/-- The header fits the 32 bits of each part of a reference. -/
def Fits : Prop := d.number.value < 2 ^ 32 ∧ d.generation.value < 2 ^ 32

/-- The header can be read without loss, as doubles hold both of its numbers. -/
def Exact : Prop := d.number.value < 2 ^ 53 ∧ d.generation.value < 2 ^ 53

/-- The reference that is read at the header. A number past 32 bits is cut to the greatest one. -/
def ref : ObjRef := ⟨UInt32.ofNatClamp d.number.value, UInt32.ofNatClamp d.generation.value⟩

/-- The number and the generation, each with a space behind it. -/
def header : Bytes := d.number.bytes ++ 0x20 :: (d.generation.bytes ++ [0x20])

/-- What stands between the two keywords. -/
def content : Bytes := d.afterKeyword.bytes ++ d.body ++ d.afterBody.bytes

def bytes : Bytes := d.header ++ keyword ++ d.content ++ endKeyword ++ d.afterEnd.bytes

instance : Decidable d.Fits := inferInstanceAs (Decidable (_ ∧ _))

variable {d}

theorem Fits.exact (h : d.Fits) : d.Exact :=
  ⟨Nat.lt_trans h.1 (by decide), Nat.lt_trans h.2 (by decide)⟩

/-- A reference that has the numbers of a header is the one that is read there. -/
theorem Fits.names_iff (h : d.Fits) {r : ObjRef} : d.Names r ↔ d.ref = r := by
  have hclamp : ∀ n < 2 ^ 32, (UInt32.ofNatClamp n).toNat = n := by
    intro n hn
    have hsize : n < UInt32.size := hn
    rw [UInt32.ofNatClamp, dif_pos hsize]
    rfl
  obtain ⟨num, generation⟩ := r
  simp only [Names, ref, ObjRef.mk.injEq, ← UInt32.toNat_inj, hclamp _ h.1, hclamp _ h.2, eq_comm]

end Written

/-- Definitions one after the other. -/
def textOf (ds : List Written) : Bytes := ds.flatMap Written.bytes

/-- A file of definitions between a preamble without the word `obj` and a trailer. -/
structure Layout where
  preamble : Bytes
  definitions : List Written
  /-- What stands behind the word `trailer`. -/
  trailer : Bytes
  preamble_clear : ¬ keyword <:+: preamble

/-- The line that files begin with may be a preamble. -/
theorem firstLine_clear : ¬ keyword <:+: Bytes.ofAscii "%PDF-1.7\n" := by
  decide +kernel

namespace Layout

variable (L : Layout)

def bytes : Bytes := L.preamble ++ (textOf L.definitions ++ (trailerKeyword ++ L.trailer))

/-- What is read at the header of the first of the last definitions `ds`, in its place. -/
def readAt (ds : List Written) : Except Error (ObjRef × Obj) :=
  (Lookahead.ofBytes (textOf ds ++ (trailerKeyword ++ L.trailer))).readDefinition.1

end Layout

/-- The library of what is read at the headers of the last definitions `ds`, put into `lib` in
order. -/
def Layout.collect (L : Layout) (lib : Library) : List Written → Library
  | [] => lib
  | d :: ds =>
    match L.readAt (d :: ds) with
    | .ok (r, o) => L.collect (lib.insert r o) ds
    | .error _ => L.collect lib ds

/-! ## Headers -/

theorem spanSome?_append {p : UInt8 → Bool} {head rest : Bytes} (hne : head ≠ [])
    (hhead : ∀ b ∈ head, p b = true) (hrest : rest.head?.all (fun b => !p b) = true) :
    spanSome? p (head ++ rest) = some (head, rest) := by
  have hstop : rest.takeWhile p = [] ∧ rest.dropWhile p = rest := by
    cases rest with
    | nil => exact ⟨rfl, rfl⟩
    | cons b rest =>
      have hb : p b = false := by simpa using hrest
      simp [hb]
  have htake : (head ++ rest).takeWhile p = head := by
    rw [List.takeWhile_append_of_pos hhead, hstop.1, List.append_nil]
  have hdrop : (head ++ rest).dropWhile p = rest := by
    rw [List.dropWhile_append_of_pos hhead, hstop.2]
  simp [spanSome?, htake, hdrop, hne]

theorem spanSome?_digits (ds : Digits) {rest : Bytes}
    (hrest : rest.head?.all Byte.endsToken = true) :
    spanSome? Byte.isDigit (ds.bytes.reverse ++ rest) = some (ds.bytes.reverse, rest) := by
  have hstop : rest.head?.all (fun b => !Byte.isDigit b) = true := by
    cases rest with
    | nil => rfl
    | cons b rest =>
      have hb : Byte.endsToken b = true := by simpa using hrest
      simp [Byte.isDigit_of_endsToken hb]
  refine spanSome?_append (fun h => ds.nonempty (List.reverse_eq_nil_iff.mp h)) ?_ hstop
  exact fun b hb => ds.digits b (List.mem_reverse.mp hb)

theorem spanSome?_space (ds : Digits) (rest : Bytes) :
    spanSome? Byte.isBlank (0x20 :: (ds.bytes.reverse ++ rest)) =
      some ([0x20], ds.bytes.reverse ++ rest) := by
  have hstop : (ds.bytes.reverse ++ rest).head?.all (fun b => !Byte.isBlank b) = true := by
    cases hreverse : ds.bytes.reverse with
    | nil => exact absurd (List.reverse_eq_nil_iff.mp hreverse) ds.nonempty
    | cons b bs =>
      have hb : b ∈ ds.bytes := List.mem_reverse.mp (hreverse ▸ List.mem_cons_self)
      simp [Byte.isBlank_of_isDigit (ds.digits b hb)]
  have hblank : ∀ b ∈ ([0x20] : Bytes), Byte.isBlank b = true := List.forall_mem_singleton.mpr rfl
  exact spanSome?_append (List.cons_ne_nil _ _) hblank hstop

/-- **A header is seen from the keyword behind it**, if it is set off from what is before it. -/
theorem header?_written (d : Written) {before : Bytes}
    (hbefore : before.head?.all Byte.endsToken = true) :
    header? (d.header.reverse ++ before) = some d.header.reverse := by
  -- from behind, the generation comes before the number
  have hsplit : d.header.reverse ++ before =
      0x20 :: (d.generation.bytes.reverse ++ 0x20 :: (d.number.bytes.reverse ++ before)) := by
    simp [Written.header]
  have hheader : [0x20] ++ d.generation.bytes.reverse ++ [0x20] ++ d.number.bytes.reverse =
      d.header.reverse := by
    simp [Written.header]
  rw [hsplit, header?, spanSome?_space]
  dsimp only [bind, Option.bind]
  rw [spanSome?_digits _ (by rfl)]
  dsimp only
  rw [spanSome?_space]
  dsimp only
  rw [spanSome?_digits _ hbefore]
  dsimp only
  rw [if_pos hbefore, hheader]

/-- The keyword of a definition is set off from what follows it. -/
theorem Written.head?_content (d : Written) (after : Bytes) :
    (d.content ++ after).head?.all Byte.endsToken = true := by
  rw [content]
  cases d.afterKeyword <;> rfl

/-- So the definition is seen as well. -/
theorem definition?_written (d : Written) {before rest : Bytes}
    (hbefore : before.head?.all Byte.endsToken = true)
    (hrest : rest.head?.all Byte.endsToken = true) :
    definition? ⟨(d.header ++ keyword).reverse ++ before, rest⟩ =
      some (d.header ++ keyword ++ rest) := by
  have hdrop : ((d.header ++ keyword).reverse ++ before).drop keyword.length =
      d.header.reverse ++ before := by
    rw [List.reverse_append, List.append_assoc, List.drop_left' (List.length_reverse)]
  rw [definition?, if_pos hrest, hdrop, header?_written d hbefore]
  simp

/-! ## What is read at a header -/

theorem nextToken_keyword {rest : Bytes} (hrest : rest.head?.all Byte.endsToken = true) :
    Lookahead.nextToken (keyword ++ rest) = (.word "obj", rest) := by
  have hspan : (keyword ++ rest).takeWhile (fun b => !Byte.endsToken b) = keyword ∧
      (keyword ++ rest).dropWhile (fun b => !Byte.endsToken b) = rest := by
    have hkeyword : ∀ b ∈ keyword, (!Byte.endsToken b) = true := by decide +kernel
    rw [List.takeWhile_append_of_pos hkeyword, List.dropWhile_append_of_pos hkeyword]
    cases rest with
    | nil => exact ⟨rfl, rfl⟩
    | cons b rest =>
      have hb : Byte.endsToken b = true := by simpa using hrest
      simp [hb]
  have hscan : Token.scan (keyword ++ rest) = Token.scanWord (keyword ++ rest) := rfl
  rw [Lookahead.nextToken_eq, hscan, Token.scanWord, hspan.1, hspan.2]
  rfl

/-- **A header is read as a reference**, and what is then in view is what stands behind it. -/
theorem readHeader_digits {number generation : Digits} {rest : Bytes}
    (hnumber : number.value < 2 ^ 53) (hgeneration : generation.value < 2 ^ 53)
    (hrest : rest.head?.all Byte.endsToken = true) :
    (Lookahead.ofBytes (number.bytes ++ 0x20 :: (generation.bytes ++
      0x20 :: (keyword ++ rest)))).readHeader =
      (.ok ⟨UInt32.ofNatClamp number.value, UInt32.ofNatClamp generation.value⟩,
        Lookahead.ofBytes rest) := by
  rw [Lookahead.ofBytes_digits number generation hnumber hgeneration, Lookahead.readHeader,
    Lookahead.andThen, Lookahead.readIndex_digits _ number hnumber rfl]
  dsimp only
  rw [Lookahead.andThen, Lookahead.readIndex_digits _ generation hgeneration rfl]
  dsimp only [Lookahead.shift]
  rw [Lookahead.nextToken_space, nextToken_keyword hrest]
  rfl

theorem readHeader_written {d : Written} (hexact : d.Exact) {rest : Bytes}
    (hrest : rest.head?.all Byte.endsToken = true) :
    (Lookahead.ofBytes (d.header ++ keyword ++ rest)).readHeader =
      (.ok d.ref, Lookahead.ofBytes rest) := by
  have hsplit : d.header ++ keyword ++ rest = d.number.bytes ++ 0x20 :: (d.generation.bytes ++
      0x20 :: (keyword ++ rest)) := by
    simp [Written.header]
  rw [hsplit]
  exact readHeader_digits hexact.1 hexact.2 hrest

/-- **What is read at a header is the object behind it**, under the reference that the header
writes. -/
theorem readDefinition_written {d : Written} (hexact : d.Exact) (after : Bytes) :
    (Lookahead.ofBytes (d.bytes ++ after)).readDefinition.1 =
      (Obj.ofBytes (d.content ++ (endKeyword ++ d.afterEnd.bytes ++ after))).map fun o =>
        (d.ref, o.definedUnder d.ref) := by
  have hsplit : d.bytes ++ after = d.header ++ keyword ++
      (d.content ++ (endKeyword ++ d.afterEnd.bytes ++ after)) := by
    simp [Written.bytes]
  rw [hsplit, Lookahead.readDefinition_eq, Lookahead.andThen,
    readHeader_written hexact (d.head?_content _)]
  show (Lookahead.andThen _ _ _).1 = _
  rw [Lookahead.andThen, Obj.ofBytes]
  rcases (Lookahead.ofBytes _).readObject with ⟨_ | o, view⟩ <;> rfl

/-! ## From one definition to the next -/

theorem definitions_step (f : Found) (p : Place) : Scan.definitions f p =
    match Place.find? keyword p.before p.after with
    | none => .ok f
    | some q =>
      match (definition? q).map fun source => (Lookahead.ofBytes source).readDefinition.1 with
      | some (.ok (r, o)) =>
        match Place.find? endKeyword q.before q.after with
        | some q' => Scan.definitions (f.add r o) q'
        | none => Scan.definitions (f.add r o) q
      | some (.error (.panic x)) => .error x
      | _ => Scan.definitions f q := by
  rw [Scan.definitions]
  split <;> rename_i hfind <;> rw [hfind]
  dsimp only
  generalize (definition? _).map (fun source => (Lookahead.ofBytes source).readDefinition.1) = read
  rcases read with _ | e | ⟨r, o⟩
  · rfl
  · cases e <;> rfl
  · dsimp only
    split <;> rename_i hend <;> rw [endKeyword, hend]

theorem LineEnd.bytes_isLineEnd (e : LineEnd) : ∀ b ∈ e.bytes, Byte.isLineEnd b = true := by
  cases e <;> simp [LineEnd.bytes, Byte.isLineEnd]

theorem Written.header_bytes (d : Written) :
    ∀ b ∈ d.header, Byte.isDigit b = true ∨ b = 0x20 := by
  intro b hb
  simp only [Written.header, List.mem_append, List.mem_cons, List.not_mem_nil, or_false] at hb
  rcases hb with hb | hb | hb | hb
  · exact .inl (d.number.digits b hb)
  · exact .inr hb
  · exact .inl (d.generation.digits b hb)
  · exact .inr hb

/-- The keyword of a definition is the first one that comes. -/
theorem Written.keyword_first (d : Written) {sep : Bytes} (hsep : ¬ keyword <:+: sep) :
    ¬ keyword <:+: sep ++ d.header ++ keyword.dropLast := by
  have hkeyword : keyword = [0x6F, 0x62] ++ [0x6A] := by decide
  have hlast : (0x6A : UInt8) ∉ d.header ++ keyword.dropLast := by
    intro hmem
    rcases List.mem_append.mp hmem with hmem | hmem
    · have := d.header_bytes _ hmem
      simp [Byte.isDigit] at this
    · exact absurd hmem (by decide)
  rw [hkeyword] at hsep hlast ⊢
  rw [List.append_assoc]
  exact not_isInfix_append hsep hlast

/-- The `endobj` of a definition is the first one after its keyword. -/
theorem Written.endKeyword_first (d : Written) :
    ¬ endKeyword <:+: d.content ++ endKeyword.dropLast := by
  have hend : endKeyword = [0x65, 0x6E, 0x64, 0x6F, 0x62] ++ [0x6A] := by decide
  have hlast : (0x6A : UInt8) ∉ d.afterBody.bytes ++ endKeyword.dropLast := by
    intro hmem
    rcases List.mem_append.mp hmem with hmem | hmem
    · exact absurd (d.afterBody.bytes_isLineEnd _ hmem) (by decide)
    · exact absurd hmem (by decide)
  have hfirst : (0x65 : UInt8) ∉ d.afterKeyword.bytes := fun hmem =>
    absurd (d.afterKeyword.bytes_isLineEnd _ hmem) (by decide)
  have hbody : ¬ endKeyword <:+: d.body ++ (d.afterBody.bytes ++ endKeyword.dropLast) := by
    have hclear := d.body_clear
    rw [hend] at hclear hlast ⊢
    exact not_isInfix_append hclear hlast
  have hcontent : d.content ++ endKeyword.dropLast =
      d.afterKeyword.bytes ++ (d.body ++ (d.afterBody.bytes ++ endKeyword.dropLast)) := by
    simp [Written.content]
  rw [hcontent]
  rw [hend] at hbody ⊢
  exact not_isInfix_prepend hbody hfirst

/-- **The search comes to a definition and, from its keyword, to its end.** Whatever it has passed
before, `sep` stands between that and the definition. -/
theorem Written.found {before sep : Bytes} (d : Written) (after : Bytes)
    (hsep : ¬ keyword <:+: sep) (hbefore : (sep.reverse ++ before).head?.all Byte.endsToken = true) :
    ∃ q : Place, Place.find? keyword before (sep ++ (d.bytes ++ after)) = some q ∧
      definition? q = some (d.bytes ++ after) ∧ Place.find? endKeyword q.before q.after =
        some ⟨(sep ++ d.header ++ keyword ++ d.content ++ endKeyword).reverse ++ before,
          d.afterEnd.bytes ++ after⟩ := by
  obtain ⟨passed, hpassed⟩ : ∃ passed, passed = (d.header ++ keyword).reverse ++
      (sep.reverse ++ before) := ⟨_, rfl⟩
  refine ⟨⟨passed, d.content ++ (endKeyword ++ d.afterEnd.bytes ++ after)⟩, ?_, ?_, ?_⟩
  · have hfirst := Place.find?_eq_some before
      (d.content ++ (endKeyword ++ d.afterEnd.bytes ++ after)) (by decide) (d.keyword_first hsep)
    simpa [hpassed, Written.bytes] using hfirst
  · rw [hpassed, definition?_written d hbefore (d.head?_content _)]
    simp [Written.bytes]
  · have hfirst := Place.find?_eq_some passed (d.afterEnd.bytes ++ after) (by decide)
      d.endKeyword_first
    simpa [hpassed] using hfirst

/-- **The scan goes from a definition to behind its `endobj`.** -/
theorem definitions_written {f : Found} {before sep after : Bytes} {d : Written} {r : ObjRef}
    {o : Obj} (hsep : ¬ keyword <:+: sep)
    (hbefore : (sep.reverse ++ before).head?.all Byte.endsToken = true)
    (hread : (Lookahead.ofBytes (d.bytes ++ after)).readDefinition.1 = .ok (r, o)) :
    Scan.definitions f ⟨before, sep ++ (d.bytes ++ after)⟩ =
      Scan.definitions (f.add r o)
        ⟨(sep ++ d.header ++ keyword ++ d.content ++ endKeyword).reverse ++ before,
          d.afterEnd.bytes ++ after⟩ := by
  obtain ⟨q, hfind, hdefinition, hend⟩ := d.found after hsep hbefore
  rw [definitions_step]
  dsimp only
  rw [hfind]
  dsimp only
  rw [hdefinition, Option.map_some, hread]
  dsimp only
  rw [hend]

/-! ## Through all definitions -/

/-- What the dictionary of a stream names as its type. -/
def streamType? (o : Obj) : Option String :=
  (o.stream?.bind fun s => s.dict.get? "Type").bind Obj.name?

theorem Found.find?_add (f : Found) (r r' : ObjRef) (o : Obj) :
    (f.add r o).library.find? r' = if r = r' then some o else f.library.find? r' := by
  have hobjects : ∀ lib : Library, lib.objects = f.library.objects →
      (lib.insert r o).find? r' = if r = r' then some o else f.library.find? r' := by
    intro lib hlib
    rw [Library.find?_insert, Library.find?, hlib, Library.find?]
  unfold Found.add
  refine hobjects _ ?_
  split
  · rfl
  · dsimp only
    split
    · rfl
    · split <;> rfl

theorem Found.packed_add (f : Found) (r : ObjRef) {o : Obj} (h : streamType? o ≠ some "ObjStm") :
    (f.add r o).packed = f.packed := by
  unfold Found.add
  dsimp only
  split
  · rfl
  · rename_i s hs
    have hkind : (s.dict.get? "Type").bind Obj.name? ≠ some "ObjStm" := by
      simpa [streamType?, hs] using h
    rw [if_neg hkind]
    split <;> rfl

namespace Layout

variable {L : Layout}

/-- **The scan goes through the definitions and takes in what is read at each header.** The place
that it comes to is at the end of the last of them. -/
theorem definitions_eq {ds : List Written} {f : Found} (lib : Library) {before sep : Bytes}
    (hreads : ∀ d after, d :: after <:+ ds → ∃ r o, L.readAt (d :: after) = .ok (r, o) ∧
      streamType? o ≠ some "ObjStm")
    (hsep : ¬ keyword <:+: sep) (hbefore : (sep.reverse ++ before).head?.all Byte.endsToken = true)
    (hlib : ∀ r, f.library.find? r = lib.find? r) :
    ∃ f' before' sep',
      Scan.definitions f ⟨before, sep ++ (textOf ds ++ (trailerKeyword ++ L.trailer))⟩ =
        Scan.definitions f' ⟨before', sep' ++ (trailerKeyword ++ L.trailer)⟩ ∧
      before'.reverse ++ sep' = before.reverse ++ sep ++ textOf ds ∧ ¬ keyword <:+: sep' ∧
      (∀ r, f'.library.find? r = (L.collect lib ds).find? r) ∧ f'.packed = f.packed := by
  induction ds generalizing f lib before sep with
  | nil => exact ⟨f, before, sep, rfl, by simp [textOf], hsep, hlib, rfl⟩
  | cons d ds ih =>
    obtain ⟨r, o, hread, htype⟩ := hreads d ds List.suffix_rfl
    have htext : textOf (d :: ds) ++ (trailerKeyword ++ L.trailer) =
        d.bytes ++ (textOf ds ++ (trailerKeyword ++ L.trailer)) := by
      simp [textOf]
    have hsource : (Lookahead.ofBytes (d.bytes ++ (textOf ds ++
        (trailerKeyword ++ L.trailer)))).readDefinition.1 = .ok (r, o) := by
      rw [← htext]
      exact hread
    have hstep := definitions_written (f := f) hsep hbefore hsource
    -- the line end of this definition is what stands before the next one
    have hlineEnd : ¬ keyword <:+: d.afterEnd.bytes := by
      cases d.afterEnd <;> decide
    have hends : (d.afterEnd.bytes.reverse ++ ((sep ++ d.header ++ keyword ++ d.content ++
        endKeyword).reverse ++ before)).head?.all Byte.endsToken = true := by
      cases d.afterEnd <;> rfl
    obtain ⟨f', before', sep', heq, hplace, hsep', hlib', hpacked⟩ :=
      ih (f := f.add r o) (lib.insert r o)
        (fun d' after h => hreads d' after (h.trans (List.suffix_cons d ds))) hlineEnd hends
        (fun r' => by rw [Found.find?_add, Library.find?_insert, hlib])
    refine ⟨f', before', sep', ?_, ?_, hsep', ?_, hpacked.trans (Found.packed_add f r htype)⟩
    · rw [htext, hstep, heq]
    · rw [hplace]
      simp [Written.bytes, textOf]
    · intro r'
      rw [hlib', collect, hread]

end Layout

end PdfScene.Scan
