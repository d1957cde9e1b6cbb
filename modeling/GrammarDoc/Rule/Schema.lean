import GrammarDoc.Problem
import GrammarDoc.Value.Elements

/-!
# The schema of rules

How a document represents a rule: as a mapping with a tag and the fields of that tag. Writing
follows the order of the schema; reading takes the keys in any order and ignores all others. Models
`Rule.to_json` and `rule_from_json`.
-/

namespace GrammarDoc.Rule

variable {Code : Type}

/-- The node of a document with a tag and fields. -/
def node (place : Place) (tag : Tag) (fields : List (String × Value Code)) : Value Code :=
  .mapping ⟨place, (.string "type", .string tag.title) ::
    fields.map fun (key, v) ↦ (.string key, v), false⟩

mutual

/-- The node, made at a place, of a document that represents a rule; a bare node has none. Models
`Rule.to_json`. -/
def toSchema (place : Place) : Rule (Value Code) → Except Fault (Value Code)
  | bare _ => .error .notImplemented
  | string v => .ok (node place .string [("value", v)])
  | pattern v => .ok (node place .pattern [("value", v)])
  | blank => .ok (node place .blank [])
  | symbol v => .ok (node place .symbol [("name", v)])
  | group kind members => do
    let members ← toSchemas (place.part "members") 0 members
    return node place (.group kind) [("members", .list ⟨place.part "members", members, false⟩)]
  | wrap kind content => do
    return node place (.wrap kind) [("content", ← toSchema (place.part "content") content)]
  | prec variant v content => do
    let content ← toSchema (place.part "content") content
    return node place (.prec variant) [("value", v), ("content", content)]
  | field v content => do
    let content ← toSchema (place.part "content") content
    return node place .field [("name", v), ("content", content)]
  | aliased content named v => do
    let content ← toSchema (place.part "content") content
    return node place .aliased [("content", content), ("named", .bool named), ("value", v)]

/-- The nodes, made at the items of a place from a position on, that represent some rules. -/
def toSchemas (place : Place) (index : Nat) :
    List (Rule (Value Code)) → Except Fault (List (Value Code))
  | [] => .ok []
  | r :: rest => do
    return (← toSchema (place.item index) r) :: (← toSchemas place (index + 1) rest)

end

/-- The tag of the node that a mapping is: what its `type` is the title of. -/
def schemaTag? (entries : List (Value Code × Value Code)) : Outcome Code (Option Tag) :=
  match Table.find? entries (.string "type") with
  | none => .ok none
  | some v =>
    if !v.canBeKey then .error (.fault .wrongType)
    else match v with
      | .string title => .ok (Tag.ofTitle? title)
      | _ => .ok none

/-- What is found under a key that a node with the tag has to have. -/
def required {α : Type} (tag : Tag) (node : Entries (Value Code)) (key : String) :
    Option (Outcome Code α) → Outcome Code α
  | some outcome => outcome
  | none => .error (.problem ⟨.incompleteRule tag key (.mapping node), none⟩)

/-- The field of a node under a key. -/
def schemaField (tag : Tag) (node : Entries (Value Code)) (key : String) :
    Outcome Code (Value Code) :=
  required tag node key ((Table.find? node.toList (.string key)).map .ok)

/-- Fails if a collection stands inside of itself, since then it has no end. -/
def requireFinite (again : Bool) : Outcome Code Unit :=
  if again then .error (.fault .tooDeep) else .ok ()

mutual

/-- The rule that a node of a document represents. Models `rule_from_json`. -/
def ofSchema : Value Code → Outcome Code (Rule (Value Code))
  | .mapping ⟨place, entries, again⟩ => do
    requireFinite again
    let node : Entries (Value Code) := ⟨place, entries, again⟩
    let some tag ← schemaTag? entries | throw (.problem ⟨.notARule (.mapping node), none⟩)
    match tag with
    | .string => return string (← schemaField tag node "value")
    | .pattern => return pattern (← schemaField tag node "value")
    | .blank => return blank
    | .symbol => return symbol (← schemaField tag node "name")
    | .group kind => return group kind (← required tag node "members" (membersIn entries))
    | .wrap kind => return wrap kind (← required tag node "content" (contentIn entries))
    | .prec variant => do
      let value ← schemaField tag node "value"
      return prec variant value (← required tag node "content" (contentIn entries))
    | .field => do
      let name ← schemaField tag node "name"
      return field name (← required tag node "content" (contentIn entries))
    | .aliased => do
      let content ← required tag node "content" (contentIn entries)
      let named ← schemaField tag node "named"
      return aliased content named.truth (← schemaField tag node "value")
  | v => throw (.problem ⟨.notARule v, none⟩)

/-- The rule represented under the key `content`, if there is that key. -/
def contentIn : List (Value Code × Value Code) → Option (Outcome Code (Rule (Value Code)))
  | [] => none
  | (key, v) :: rest =>
    if Value.same (.string "content") key then some (ofSchema v) else contentIn rest

/-- The rules represented under the key `members`, if there is that key. -/
def membersIn : List (Value Code × Value Code) → Option (Outcome Code (List (Rule (Value Code))))
  | [] => none
  | (key, v) :: rest =>
    if Value.same (.string "members") key then some (ofElements v) else membersIn rest

/-- The rules that the elements of a value represent. No element of a mapping, of a string or of
references can represent a rule. -/
def ofElements : Value Code → Outcome Code (List (Rule (Value Code)))
  | .list ⟨_, items, again⟩ => do
    requireFinite again
    ofSchemas items
  | .tuple items => ofSchemas items
  | v => do
    match ← Outcome.ofFault v.elements with
    | [] => return []
    | element :: _ => throw (.problem ⟨.notARule element, none⟩)

/-- The rules that some nodes represent, or why the first that represents none does not. -/
def ofSchemas : List (Value Code) → Outcome Code (List (Rule (Value Code)))
  | [] => return []
  | v :: rest => do return (← ofSchema v) :: (← ofSchemas rest)

end

end GrammarDoc.Rule
