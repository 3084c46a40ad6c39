import PdfScene.Content.Operation

/-!
# Comparing objects

Objects can be compared, numbers bit by bit, and so can operations. So what a given file or content is
read as can be computed.
-/

set_option autoImplicit false

namespace PdfScene

namespace Obj

mutual

/-- Whether two objects are the same. -/
def same : Obj → Obj → Bool
  | .null, .null => true
  | .bool b, .bool b' => b == b'
  | .num x, .num x' => decide (x = x')
  | .str bs, .str bs' => bs == bs'
  | .hexStr bs, .hexStr bs' => bs == bs'
  | .name text, .name text' => text == text'
  | .array items, .array items' => sameItems items items'
  | .dict entries, .dict entries' => sameEntries entries entries'
  | .stream entries data r, .stream entries' data' r' =>
    sameEntries entries entries' && data == data' && r == r'
  | .ref r, .ref r' => r == r'
  | .eof, .eof => true
  | .word text, .word text' => text == text'
  | _, _ => false

def sameItems : List Obj → List Obj → Bool
  | [], [] => true
  | o :: rest, o' :: rest' => same o o' && sameItems rest rest'
  | _, _ => false

def sameEntries : List (String × Obj) → List (String × Obj) → Bool
  | [], [] => true
  | (key, o) :: rest, (key', o') :: rest' =>
    key == key' && same o o' && sameEntries rest rest'
  | _, _ => false

end

mutual

theorem same_iff : ∀ a b : Obj, same a b = true ↔ a = b
  | .array items, b => by
    cases b with
    | array items' => simp [same, sameItems_iff items items']
    | _ => simp [same]
  | .dict entries, b => by
    cases b with
    | dict entries' => simp [same, sameEntries_iff entries entries']
    | _ => simp [same]
  | .stream entries data r, b => by
    cases b with
    | stream entries' data' r' => simp [same, sameEntries_iff entries entries', and_assoc]
    | _ => simp [same]
  | .null, b | .bool _, b | .num _, b | .str _, b | .hexStr _, b | .name _, b | .ref _, b | .eof, b
  | .word _, b => by cases b <;> simp [same]

theorem sameItems_iff : ∀ a b : List Obj, sameItems a b = true ↔ a = b
  | [], b => by cases b <;> simp [sameItems]
  | o :: rest, b => by
    cases b with
    | nil => simp [sameItems]
    | cons o' rest' => simp [sameItems, same_iff o o', sameItems_iff rest rest']

theorem sameEntries_iff : ∀ a b : List (String × Obj), sameEntries a b = true ↔ a = b
  | [], b => by cases b <;> simp [sameEntries]
  | (key, o) :: rest, b => by
    cases b with
    | nil => simp [sameEntries]
    | cons e rest' =>
      obtain ⟨key', o'⟩ := e
      simp [sameEntries, same_iff o o', sameEntries_iff rest rest']

end

instance : DecidableEq Obj := fun a b => decidable_of_iff _ (same_iff a b)

end Obj

deriving instance DecidableEq for Operation

end PdfScene
