import Justfile.Json
import Justfile.Text.Quoted

/-!
# Plain data

Syntax trees are shown, traced and encoded as plain data: nothing, flags, whole numbers, texts,
lists, and records with named fields. The text of a datum also identifies conditionals, whose
helper functions are named after its digest.

* `Datum.quoted`: the text of a datum as part of another one.
* `Datum.display`: the text of a datum on its own.
* `Datum.beq_iff`: the test for equality decides equality.
-/

namespace Justfile

/-- Plain data. The fields of a record keep their order. -/
inductive Datum where
  | null
  | flag (b : Bool)
  | number (n : Int)
  | text (s : String)
  | list (items : List Datum)
  | record (kind : String) (fields : List (String × Datum))
  deriving Inhabited

namespace Datum

mutual

/-- Whether two data are the same. -/
def beq : Datum → Datum → Bool
  | .null, .null => true
  | .flag a, .flag b => a == b
  | .number a, .number b => a == b
  | .text a, .text b => a == b
  | .list as, .list bs => beqItems as bs
  | .record k as, .record l bs => k == l && beqFields as bs
  | _, _ => false

/-- Whether two lists of data are the same. -/
def beqItems : List Datum → List Datum → Bool
  | [], [] => true
  | a :: as, b :: bs => beq a b && beqItems as bs
  | _, _ => false

/-- Whether two lists of fields are the same. -/
def beqFields : List (String × Datum) → List (String × Datum) → Bool
  | [], [] => true
  | (k, a) :: as, (l, b) :: bs => k == l && beq a b && beqFields as bs
  | _, _ => false

end

mutual

/-- **The test decides equality.** -/
theorem beq_iff : ∀ a b : Datum, beq a b = true ↔ a = b
  | .null, b => by cases b <;> simp [beq]
  | .flag _, b => by cases b <;> simp [beq]
  | .number _, b => by cases b <;> simp [beq]
  | .text _, b => by cases b <;> simp [beq]
  | .list as, b => by cases b <;> simp [beq, beqItems_iff as]
  | .record _ as, b => by cases b <;> simp [beq, beqFields_iff as]

/-- The test on lists decides equality. -/
theorem beqItems_iff : ∀ as bs : List Datum, beqItems as bs = true ↔ as = bs
  | [], bs => by cases bs <;> simp [beqItems]
  | a :: as, bs => by cases bs <;> simp [beqItems, beq_iff a, beqItems_iff as]

/-- The test on fields decides equality. -/
theorem beqFields_iff : ∀ as bs : List (String × Datum), beqFields as bs = true ↔ as = bs
  | [], bs => by cases bs <;> simp [beqFields]
  | (_, a) :: as, bs => by
    cases bs with
    | nil => simp [beqFields]
    | cons b bs => cases b; simp [beqFields, beq_iff a, beqFields_iff as]

end

instance : DecidableEq Datum := fun a b =>
  decidable_of_iff (beq a b = true) (beq_iff a b)

mutual

/-- The text of a datum inside another one: texts are quoted, lists are in brackets, records are
written like a call with named arguments. -/
def quotedChars : Datum → List Char
  | .null => "None".toList
  | .flag true => "True".toList
  | .flag false => "False".toList
  | .number n => (toString n).toList
  | .text s => Text.quoted s.toList
  | .list items => '[' :: (quotedItems items ++ [']'])
  | .record kind fields => kind.toList ++ '(' :: (quotedFields fields ++ [')'])

/-- The items of a list, separated by a comma and a blank. -/
def quotedItems : List Datum → List Char
  | [] => []
  | [d] => quotedChars d
  | d :: e :: rest => quotedChars d ++ ',' :: ' ' :: quotedItems (e :: rest)

/-- The fields of a record, separated by a comma and a blank. -/
def quotedFields : List (String × Datum) → List Char
  | [] => []
  | [(name, d)] => name.toList ++ '=' :: quotedChars d
  | (name, d) :: f :: rest =>
    name.toList ++ '=' :: (quotedChars d ++ ',' :: ' ' :: quotedFields (f :: rest))

end

/-- The text of a datum as part of another one. -/
def quoted (d : Datum) : String :=
  String.ofList d.quotedChars

/-- The text of a datum on its own: a text is shown as it is. -/
def display : Datum → String
  | .text s => s
  | d => d.quoted

/-- The name of a datum's type in messages. -/
def typeName : Datum → String
  | .null => "NoneType"
  | .flag _ => "bool"
  | .number _ => "int"
  | .text _ => "str"
  | .list _ => "list"
  | .record kind _ => "just_sh.parse." ++ kind

mutual

/-- A datum as a JSON document; a record becomes the object of its fields. -/
def toJson : Datum → Json
  | .null => .null
  | .flag b => .bool b
  | .number n => .int n
  | .text s => .text s
  | .list items => .array (itemsToJson items)
  | .record _ fields => .object (fieldsToJson fields)

/-- The items of a list as JSON documents. -/
def itemsToJson : List Datum → List Json
  | [] => []
  | d :: rest => d.toJson :: itemsToJson rest

/-- The fields of a record as fields of a JSON object. -/
def fieldsToJson : List (String × Datum) → List (String × Json)
  | [] => []
  | (name, d) :: rest => (name, d.toJson) :: fieldsToJson rest

end

/-- The value of a field of a record. -/
def field? (name : String) : Datum → Option Datum
  | .record _ fields => (fields.find? fun f => f.1 == name).map (·.2)
  | _ => none

end Datum

/-- Types whose values are shown as plain data. -/
class ToDatum (α : Type) where
  toDatum : α → Datum

export ToDatum (toDatum)

instance : ToDatum Datum := ⟨id⟩
instance : ToDatum String := ⟨.text⟩
instance : ToDatum Bool := ⟨.flag⟩
instance {α : Type} [ToDatum α] : ToDatum (List α) := ⟨fun as => .list (as.map toDatum)⟩
instance {α : Type} [ToDatum α] : ToDatum (Option α) := ⟨fun a => a.elim .null toDatum⟩
instance : ToDatum Unit := ⟨fun _ => .null⟩

end Justfile
