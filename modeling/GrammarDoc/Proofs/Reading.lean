import GrammarDoc.Proofs.RoundTrip
import GrammarDoc.Value.Store

/-!
# Nodes of documents

Which documents of rules are read, how they are written again, and which node is to blame if one is
not read. A node is read through the keys of its tag, all others are passed over; what stands under
`content` and `members` is read as further nodes. Of a document that is read, each node is written
with exactly the keys of its tag.
-/

namespace GrammarDoc

variable {Code : Type}

private theorem bind_eq_error {ε α β : Type} {first : Except ε α} {next : α → Except ε β} {e : ε} :
    first >>= next = .error e ↔ first = .error e ∨ ∃ a, first = .ok a ∧ next a = .error e := by
  cases first with
  | error other => simp [bind, Except.bind]
  | ok a => simp [bind, Except.bind]

/-! ### Nodes -/

/-- The keys of a node with a tag, beside `type`, in the order of the schema. -/
def Tag.keys : Tag → List String
  | string | pattern => ["value"]
  | blank => []
  | symbol => ["name"]
  | group _ => ["members"]
  | wrap _ => ["content"]
  | prec _ => ["value", "content"]
  | field => ["name", "content"]
  | aliased => ["content", "named", "value"]

namespace Value

/-- What a value has under a key, if it is a mapping. -/
def field? (v : Value Code) (key : String) : Option (Value Code) :=
  v.object?.bind fun entries ↦ Table.find? entries (.string key)

/-- The tag of a node: what its `type` is the title of. -/
def tag? (v : Value Code) : Option Tag :=
  match v.field? "type" with
  | some (.string title) => Tag.ofTitle? title
  | _ => none

/-- Whether a list or a mapping stands inside of itself. -/
def isAgain : Value Code → Bool
  | list items => items.again
  | mapping entries => entries.again
  | _ => false

/-- What has the members of a node, if it is one that has members. -/
def members? (v : Value Code) : Option (Value Code) :=
  match v.tag? with
  | some (.group _) => v.field? "members"
  | _ => none

/-- Whether a node or the list of its members stands inside of itself. -/
def loops (v : Value Code) : Bool :=
  v.object?.isSome && (v.isAgain || v.members?.any isAgain)

/-- The nodes directly under a node: its content or its members. A node that stands inside of itself
is not gone into once more. -/
def under (v : Value Code) : List (Value Code) :=
  if v.loops then []
  else
    match v.tag? with
    | some (.wrap _) | some (.prec _) | some .field | some .aliased => (v.field? "content").toList
    | _ => (v.members?.bind array?).getD []

/-- A node of a document: the document itself, or a node of what is directly under it. -/
inductive NodeIn (w : Value Code) : Value Code → Prop where
  | self : NodeIn w w
  | under {v u : Value Code} (mem : u ∈ v.under) (within : NodeIn w u) : NodeIn w v

/-- A document in which every `type` can be looked up, and members are an array. -/
inductive Legible : Value Code → Prop where
  | node {v : Value Code} (hashable : ∀ t, v.field? "type" = some t → t.canBeKey = true)
    (array : ∀ m, v.members? = some m → m.array?.isSome = true)
    (under : ∀ u ∈ v.under, Legible u) : Legible v

/-- A document of a rule: a node that has a tag and all the keys of that tag, does not stand inside
of itself, and has only documents of rules under it. -/
inductive Accepted : Value Code → Prop where
  | node {v : Value Code} {tag : Tag} (tagged : v.tag? = some tag)
    (keyed : ∀ key ∈ tag.keys, (v.field? key).isSome = true) (ends : v.loops = false)
    (under : ∀ u ∈ v.under, Accepted u) : Accepted v

/-- What can be wrong with a node itself: it is no mapping, it has no tag, or it lacks a key of its
tag. -/
def Defective (v : Value Code) : Prop :=
  v.object? = none ∨ v.tag? = none ∨
    ∃ tag, v.tag? = some tag ∧ ∃ key ∈ tag.keys, v.field? key = none

private theorem sizeOf_lt_of_field? {u v : Value Code} {key : String}
    (found : v.field? key = some u) : sizeOf u < sizeOf v := by
  obtain ⟨entries, object, found⟩ := Option.bind_eq_some_iff.1 found
  obtain ⟨entry, first, rfl⟩ := Option.map_eq_some_iff.1 found
  have mem := List.sizeOf_lt_of_mem (List.mem_of_find?_eq_some first)
  have inside : sizeOf entry.2 < sizeOf entry := by
    cases entry
    simp only [Prod.mk.sizeOf_spec]
    omega
  cases v with
  | mapping node =>
    obtain ⟨place, toList, again⟩ := node
    cases object
    simp only [mapping.sizeOf_spec, Entries.mk.sizeOf_spec]
    change sizeOf entry < sizeOf toList at mem
    omega
  | _ => cases object

private theorem sizeOf_lt_of_mem_array {u m : Value Code} {items : List (Value Code)}
    (array : m.array? = some items) (mem : u ∈ items) : sizeOf u < sizeOf m := by
  have inside := List.sizeOf_lt_of_mem mem
  cases m with
  | list list =>
    obtain ⟨place, toList, again⟩ := list
    cases array
    simp only [list.sizeOf_spec, Items.mk.sizeOf_spec]
    change sizeOf u < sizeOf toList at inside
    omega
  | tuple =>
    cases array
    simp only [tuple.sizeOf_spec]
    omega
  | _ => cases array

/-- The members of a node are what a group has under that key. -/
theorem members?_eq_some {v m : Value Code} :
    v.members? = some m ↔ (∃ kind, v.tag? = some (.group kind)) ∧ v.field? "members" = some m := by
  unfold members?
  split
  · next kind tagged => simp [tagged]
  · next other =>
    simp only [reduceCtorEq, false_iff, not_and]
    rintro ⟨kind, tagged⟩
    exact absurd tagged (other kind)

private theorem again_of_ends {node : Entries (Value Code)} (ends : (mapping node).loops = false) :
    node.again = false := by
  by_contra again
  simp [loops, object?, isAgain, again] at ends

private theorem isAgain_of_ends {v m : Value Code} (ends : v.loops = false)
    (members : v.members? = some m) : m.isAgain = false := by
  have there : v.object?.isSome = true := by
    obtain ⟨entries, object, -⟩ := Option.bind_eq_some_iff.1 (members?_eq_some.1 members).2
    rw [object, Option.isSome_some]
  by_contra again
  simp [loops, there, members, again] at ends

/-- A node directly under another one is its content, if its tag has that key, or else one of its
members. -/
theorem mem_under {u v : Value Code} (ends : v.loops = false) :
    u ∈ v.under ↔
      (∃ tag, v.tag? = some tag ∧ "content" ∈ tag.keys ∧ v.field? "content" = some u) ∨
      ∃ m items, v.members? = some m ∧ m.array? = some items ∧ u ∈ items := by
  unfold under
  rw [ends, if_neg Bool.false_ne_true]
  cases tagged : v.tag? with
  | none => simp [members?, tagged]
  | some tag =>
    cases tag with
    | string | pattern | blank | symbol => simp [members?, tagged, Tag.keys]
    | wrap | prec | field | aliased => simp [members?, tagged, Tag.keys]
    | group kind =>
      simp only [members?, tagged, Tag.keys, Option.some.injEq, exists_eq_left']
      cases v.field? "members" with
      | none => simp
      | some m => cases array : m.array? <;> simp [array]

/-- What is directly under a node is smaller. -/
theorem sizeOf_lt_of_mem_under {u v : Value Code} (mem : u ∈ v.under) : sizeOf u < sizeOf v := by
  have ends : v.loops = false := by
    by_contra loops
    simp [under, loops] at mem
  obtain ⟨tag, -, -, content⟩ | ⟨m, items, members, array, mem⟩ := (mem_under ends).1 mem
  · exact sizeOf_lt_of_field? content
  · have outer := sizeOf_lt_of_field? (members?_eq_some.1 members).2
    have inner := sizeOf_lt_of_mem_array array mem
    omega

/-- What holds of a document if it holds of what is directly under it holds of all documents. -/
theorem under_induction {P : Value Code → Prop} (step : ∀ v, (∀ u ∈ v.under, P u) → P v)
    (v : Value Code) : P v :=
  step v fun u _ ↦ under_induction step u
termination_by sizeOf v
decreasing_by exact sizeOf_lt_of_mem_under ‹_›

end Value

namespace Rule

open Value (Accepted Legible NodeIn Defective)

/-! ### Reading a node -/

private theorem contentIn_eq (entries : List (Value Code × Value Code)) :
    contentIn entries = (Table.find? entries (.string "content")).map ofSchema := by
  induction entries with
  | nil => rfl
  | cons entry rest ih =>
    obtain ⟨key, v⟩ := entry
    rw [contentIn, Table.find?_cons, ih]
    split <;> rfl

private theorem membersIn_eq (entries : List (Value Code × Value Code)) :
    membersIn entries = (Table.find? entries (.string "members")).map ofElements := by
  induction entries with
  | nil => rfl
  | cons entry rest ih =>
    obtain ⟨key, v⟩ := entry
    rw [membersIn, Table.find?_cons, ih]
    split <;> rfl

/-- The tag of a node whose `type` can be looked up. -/
theorem schemaTag?_eq {node : Entries (Value Code)}
    (hashable : ∀ t, (Value.mapping node).field? "type" = some t → t.canBeKey = true) :
    schemaTag? node.toList = .ok (Value.mapping node).tag? := by
  unfold schemaTag? Value.tag?
  change ∀ t, Table.find? node.toList (.string "type") = some t → _ at hashable
  change _ = Except.ok (match Table.find? node.toList (.string "type") with
    | some (.string title) => Tag.ofTitle? title
    | _ => none)
  cases found : Table.find? node.toList (.string "type") with
  | none => rfl
  | some t =>
    have key := hashable t found
    simp only [key, Bool.not_true, Bool.false_eq_true, if_false]
    cases t <;> rfl

/-- What a node with a tag is read as. -/
def ofNode (tag : Tag) (node : Entries (Value Code)) : Outcome Code (Rule (Value Code)) := do
  let content := required tag node "content"
    ((Table.find? node.toList (.string "content")).map ofSchema)
  match tag with
  | .string => return string (← schemaField tag node "value")
  | .pattern => return pattern (← schemaField tag node "value")
  | .blank => return blank
  | .symbol => return symbol (← schemaField tag node "name")
  | .group kind =>
    return group kind (← required tag node "members"
      ((Table.find? node.toList (.string "members")).map ofElements))
  | .wrap kind => return wrap kind (← content)
  | .prec variant => do
    let value ← schemaField tag node "value"
    return prec variant value (← content)
  | .field => do
    let name ← schemaField tag node "name"
    return field name (← content)
  | .aliased => do
    let content ← content
    let named ← schemaField tag node "named"
    return aliased content named.truth (← schemaField tag node "value")

/-- A node that does not stand inside of itself is read by its tag, if it has one. -/
theorem ofSchema_mapping {node : Entries (Value Code)} (once : node.again = false)
    (hashable : ∀ t, (Value.mapping node).field? "type" = some t → t.canBeKey = true) :
    ofSchema (.mapping node) =
      match (Value.mapping node).tag? with
      | none => .error (.problem ⟨.notARule (.mapping node), none⟩)
      | some tag => ofNode tag node := by
  have tagged := schemaTag?_eq hashable
  obtain ⟨place, entries, again⟩ := node
  obtain rfl : again = false := once
  rw [ofSchema]
  simp only [requireFinite, Bool.false_eq_true, if_false, bind, Except.bind, tagged, contentIn_eq,
    membersIn_eq]
  cases (Value.mapping ⟨place, entries, false⟩).tag? with
  | none => rfl
  | some tag => cases tag <;> rfl

private theorem required_eq_error {α : Type} {tag : Tag} {node : Entries (Value Code)}
    {key : String} {found : Option (Outcome Code α)} {failure : Failure Code} :
    required tag node key found = .error failure ↔
      found = some (.error failure) ∨
        found = none ∧ failure = .problem ⟨.incompleteRule tag key (.mapping node), none⟩ := by
  cases found with
  | none => simp [required, eq_comm]
  | some outcome => simp [required]

private theorem required_eq_ok {α : Type} {tag : Tag} {node : Entries (Value Code)} {key : String}
    {found : Option (Outcome Code α)} {a : α} :
    required tag node key found = .ok a ↔ found = some (.ok a) := by
  cases found <;> simp [required]

private theorem schemaField_eq_error {tag : Tag} {node : Entries (Value Code)} {key : String}
    {failure : Failure Code} :
    schemaField tag node key = .error failure ↔
      Table.find? node.toList (.string key) = none ∧
        failure = .problem ⟨.incompleteRule tag key (.mapping node), none⟩ := by
  unfold schemaField
  rw [required_eq_error]
  cases Table.find? node.toList (.string key) <;> simp

private theorem schemaField_eq_ok {tag : Tag} {node : Entries (Value Code)} {key : String}
    {v : Value Code} :
    schemaField tag node key = .ok v ↔ Table.find? node.toList (.string key) = some v := by
  unfold schemaField
  rw [required_eq_ok]
  cases Table.find? node.toList (.string key) <;> simp

/-- A node that is not read lacks a key of its tag, or its content or its members are not read. -/
theorem ofNode_eq_error {tag : Tag} {node : Entries (Value Code)} {failure : Failure Code}
    (h : ofNode tag node = .error failure) :
    (∃ key ∈ tag.keys, Table.find? node.toList (.string key) = none ∧
      failure = .problem ⟨.incompleteRule tag key (.mapping node), none⟩) ∨
    (∃ u, Table.find? node.toList (.string "content") = some u ∧ "content" ∈ tag.keys ∧
      ofSchema u = .error failure) ∨
    ∃ m, Table.find? node.toList (.string "members") = some m ∧ "members" ∈ tag.keys ∧
      ofElements m = .error failure := by
  unfold ofNode at h
  cases tag with
  | string | pattern | blank | symbol =>
    simp [bind_eq_error, schemaField_eq_error, pure, Except.pure] at h
    try simp [Tag.keys, h]
  | group kind | wrap kind =>
    simp only [bind_eq_error, required_eq_error, pure, Except.pure, Option.map_eq_some_iff,
      Option.map_eq_none_iff, reduceCtorEq, and_false, exists_false, or_false] at h
    simp only [Tag.keys, List.mem_cons, List.not_mem_nil, or_false, exists_eq_left]
    grind
  | prec variant | field | aliased =>
    simp only [bind_eq_error, required_eq_error, schemaField_eq_error, pure, Except.pure,
      Option.map_eq_some_iff, Option.map_eq_none_iff, reduceCtorEq, and_false, exists_false,
      or_false] at h
    simp only [Tag.keys, List.mem_cons, List.not_mem_nil, or_false, exists_eq_or_imp,
      exists_eq_left]
    grind

/-- A node that is read has all the keys of its tag, and its content and its members are read. -/
theorem ofNode_eq_ok {tag : Tag} {node : Entries (Value Code)} {r : Rule (Value Code)}
    (h : ofNode tag node = .ok r) :
    (∀ key ∈ tag.keys, (Table.find? node.toList (.string key)).isSome = true) ∧
    (∀ u, Table.find? node.toList (.string "content") = some u → "content" ∈ tag.keys →
      ∃ s, ofSchema u = .ok s) ∧
    ∀ m, Table.find? node.toList (.string "members") = some m → "members" ∈ tag.keys →
      ∃ rs, ofElements m = .ok rs := by
  unfold ofNode at h
  cases tag with
  | string | pattern | blank | symbol =>
    simp only [bind_eq_ok, schemaField_eq_ok] at h
    simp only [Tag.keys, List.mem_cons, List.not_mem_nil]
    grind
  | group kind | wrap kind =>
    simp only [bind_eq_ok, required_eq_ok, Option.map_eq_some_iff] at h
    simp only [Tag.keys, List.mem_cons, List.not_mem_nil]
    grind
  | prec variant | field | aliased =>
    simp only [bind_eq_ok, required_eq_ok, schemaField_eq_ok, Option.map_eq_some_iff] at h
    simp only [Tag.keys, List.mem_cons, List.not_mem_nil]
    grind

private theorem ofElements_of_array {m : Value Code} {items : List (Value Code)}
    (array : m.array? = some items) (once : m.isAgain = false) :
    ofElements m = ofSchemas items := by
  cases m with
  | list list =>
    obtain ⟨place, toList, again⟩ := list
    obtain rfl : again = false := once
    cases array
    rfl
  | tuple => cases array; rfl
  | _ => cases array

private theorem exists_of_ofSchemas_eq_ok {items : List (Value Code)}
    {rs : List (Rule (Value Code))}
    (h : ofSchemas items = .ok rs) : ∀ v ∈ items, ∃ r, ofSchema v = .ok r := by
  induction items generalizing rs with
  | nil => exact fun _ mem ↦ absurd mem List.not_mem_nil
  | cons v rest ih =>
    simp only [ofSchemas, bind_eq_ok] at h
    obtain ⟨r, one, rs, more, -⟩ := h
    exact List.forall_mem_cons.2 ⟨⟨r, one⟩, ih more⟩

private theorem exists_of_ofSchemas_eq_error {items : List (Value Code)} {failure : Failure Code}
    (h : ofSchemas items = .error failure) : ∃ v ∈ items, ofSchema v = .error failure := by
  induction items with
  | nil => cases h
  | cons v rest ih =>
    simp only [ofSchemas, bind_eq_error] at h
    obtain first | ⟨r, -, more | ⟨rs, -, done⟩⟩ := h
    · exact ⟨v, List.mem_cons_self, first⟩
    · obtain ⟨u, mem, fails⟩ := ih more
      exact ⟨u, List.mem_cons_of_mem v mem, fails⟩
    · cases done

/-! ### Whole documents -/

/-- A node that stands inside of itself, or whose members do, is not read to an end. -/
theorem ofSchema_of_loops {v : Value Code} (legible : v.Legible) (loops : v.loops = true) :
    ofSchema v = .error (.fault .tooDeep) := by
  obtain ⟨hashable, array, -⟩ := legible
  unfold Value.loops at loops
  cases v with
  | mapping node =>
    cases again : node.again with
    | true =>
      -- The entries of a node that stands inside of itself are not looked at.
      obtain ⟨place, entries, _⟩ := node
      obtain rfl : _ = true := again
      rfl
    | false =>
      -- Otherwise its members do. Only a group has members, and reading it comes to them first.
      have inside : (Value.mapping node).members?.any Value.isAgain = true := by
        simpa [Value.object?, Value.isAgain, again] using loops
      obtain ⟨m, members, looping⟩ := (Option.any_eq_true _ _).1 inside
      have here : Table.find? node.toList (.string "members") = some m :=
        (Value.members?_eq_some.1 members).2
      have deep : ofElements m = .error (.fault .tooDeep) := by
        have isArray := array m members
        cases m with
        | list list =>
          obtain ⟨place, items, _⟩ := list
          obtain rfl : _ = true := looping
          rfl
        | tuple => cases looping
        | _ => cases isArray
      obtain ⟨⟨kind, tagged⟩, -⟩ := Value.members?_eq_some.1 members
      rw [ofSchema_mapping again hashable, tagged]
      simp [ofNode, here, deep, required, bind, Except.bind]
  | _ => cases loops

/-- A document that is not read, although its node has a tag and does not stand inside of itself,
lacks a key of that tag, or a node directly under it is not read in the same way. -/
theorem ofSchema_eq_error {v : Value Code} {tag : Tag} {failure : Failure Code}
    (legible : v.Legible) (tagged : v.tag? = some tag) (ends : v.loops = false)
    (h : ofSchema v = .error failure) :
    (∃ key ∈ tag.keys, v.field? key = none ∧
      failure = .problem ⟨.incompleteRule tag key v, none⟩) ∨
    ∃ u ∈ v.under, ofSchema u = .error failure := by
  obtain ⟨hashable, array, -⟩ := legible
  cases v with
  | mapping node =>
    rw [ofSchema_mapping (Value.again_of_ends ends) hashable, tagged] at h
    obtain missing | ⟨u, content, key, fails⟩ | ⟨m, here, key, fails⟩ := ofNode_eq_error h
    · exact .inl missing
    · exact .inr ⟨u, (Value.mem_under ends).2 (.inl ⟨tag, tagged, key, content⟩), fails⟩
    · have members : (Value.mapping node).members? = some m := by
        refine Value.members?_eq_some.2 ⟨?_, here⟩
        cases tag with
        | group kind => exact ⟨kind, tagged⟩
        | _ => simp [Tag.keys] at key
      obtain ⟨items, isArray⟩ := Option.isSome_iff_exists.1 (array m members)
      rw [ofElements_of_array isArray (Value.isAgain_of_ends ends members)] at fails
      obtain ⟨u, mem, fails⟩ := exists_of_ofSchemas_eq_error fails
      exact .inr ⟨u, (Value.mem_under ends).2 (.inr ⟨m, items, members, isArray, mem⟩), fails⟩
  | _ => cases tagged

/-- A document that is read is a node with a tag that does not stand inside of itself. -/
theorem exists_of_ofSchema_eq_ok {v : Value Code} {r : Rule (Value Code)} (legible : v.Legible)
    (h : ofSchema v = .ok r) :
    v.loops = false ∧
      ∃ node tag, v = .mapping node ∧ v.tag? = some tag ∧ ofNode tag node = .ok r := by
  have ends : v.loops = false := by
    by_contra loops
    rw [ofSchema_of_loops legible (by simpa using loops)] at h
    cases h
  refine ⟨ends, ?_⟩
  obtain ⟨hashable, -, -⟩ := legible
  cases v with
  | mapping node =>
    rw [ofSchema_mapping (Value.again_of_ends ends) hashable] at h
    cases tagged : (Value.mapping node).tag? with
    | none =>
      rw [tagged] at h
      cases h
    | some tag =>
      rw [tagged] at h
      exact ⟨node, tag, rfl, rfl, h⟩
  | _ => cases h

/-- Exactly the documents of rules are read. -/
theorem exists_ofSchema_iff {v : Value Code} (legible : v.Legible) :
    (∃ r, ofSchema v = .ok r) ↔ v.Accepted := by
  constructor
  · -- The tree of documents is not that of values: a node is a mapping, and the next one stands
    -- under a key of it, or in an array that does. So the induction is on what is directly under a
    -- node.
    induction v using Value.under_induction with
    | step v ih =>
      rintro ⟨r, h⟩
      obtain ⟨ends, node, tag, rfl, tagged, read⟩ := exists_of_ofSchema_eq_ok legible h
      obtain ⟨keyed, content, members⟩ := ofNode_eq_ok read
      obtain ⟨-, -, legibles⟩ := legible
      refine .node tagged keyed ends fun u mem ↦ ih u mem (legibles u mem) ?_
      obtain ⟨tag', tagged', key, here⟩ | ⟨m, items, here, array, inside⟩ :=
        (Value.mem_under ends).1 mem
      · obtain rfl := Option.some.inj (tagged.symm.trans tagged')
        exact content u here key
      · obtain ⟨⟨kind, tagged'⟩, found⟩ := Value.members?_eq_some.1 here
        obtain rfl := Option.some.inj (tagged.symm.trans tagged')
        obtain ⟨rs, read⟩ := members m found (by simp [Tag.keys])
        rw [ofElements_of_array array (Value.isAgain_of_ends ends here)] at read
        exact exists_of_ofSchemas_eq_ok read u inside
  · intro accepted
    -- To read a document it is enough to know why it is accepted.
    induction accepted with
    | @node v tag tagged keyed ends under ih =>
      cases h : ofSchema v with
      | ok r => exact ⟨r, rfl⟩
      | error failure =>
        obtain ⟨key, mem, missing, -⟩ | ⟨u, mem, fails⟩ := ofSchema_eq_error legible tagged ends h
        · have there := keyed key mem
          simp [missing] at there
        · obtain ⟨-, -, legibles⟩ := legible
          obtain ⟨s, read⟩ := ih u mem (legibles u mem)
          rw [read] at fails
          cases fails

/-- A document that is not read is so for a node of it that is itself defective, or because a node
of it or the members of one stand inside of themselves. -/
theorem blames_of_ofSchema_eq_error {v : Value Code} {failure : Failure Code}
    (legible : v.Legible) (h : ofSchema v = .error failure) :
    (∃ p, failure = .problem p ∧ p.kind = .invalidRule ∧ NodeIn p.value v ∧ p.value.Defective) ∨
      failure = .fault .tooDeep ∧ ∃ u, NodeIn u v ∧ u.loops = true := by
  induction v using Value.under_induction with
  | step v ih =>
    -- A node that loops is to blame itself. Else the failure is its own or comes from under it.
    by_cases loops : v.loops = true
    · rw [ofSchema_of_loops legible loops] at h
      cases h
      exact .inr ⟨rfl, v, .self, loops⟩
    · have ends : v.loops = false := by simpa using loops
      cases tagged : v.tag? with
      | none =>
        -- Both what is no mapping and a node without a tag are reported as no rule.
        have refused : ofSchema v = .error (.problem ⟨.notARule v, none⟩) := by
          cases v with
          | mapping node =>
            obtain ⟨hashable, -, -⟩ := legible
            rw [ofSchema_mapping (Value.again_of_ends ends) hashable, tagged]
          | _ => rfl
        rw [refused] at h
        cases h
        exact .inl ⟨_, rfl, rfl, .self, .inr (.inl tagged)⟩
      | some tag =>
        obtain ⟨key, mem, missing, rfl⟩ | ⟨u, mem, fails⟩ := ofSchema_eq_error legible tagged ends h
        · exact .inl ⟨_, rfl, rfl, .self, .inr (.inr ⟨tag, tagged, key, mem, missing⟩)⟩
        · obtain ⟨-, -, legibles⟩ := legible
          obtain ⟨p, rfl, kind, within, defective⟩ | ⟨rfl, w, within, endless⟩ :=
            ih u mem (legibles u mem) fails
          · exact .inl ⟨p, rfl, kind, .under mem within, defective⟩
          · exact .inr ⟨rfl, w, .under mem within, endless⟩

/-! ### Canonical documents -/

mutual

/-- The node, made at a place, with exactly the keys of its tag in the order of the schema. -/
def canonical (place : Place) : Value Code → Value Code
  | .mapping ⟨made, entries, again⟩ =>
    match (Value.mapping ⟨made, entries, again⟩).tag? with
    | none => .mapping ⟨made, entries, again⟩
    | some tag =>
      let fields := canonicalEntries place entries
      node place tag (tag.keys.map fun key ↦
        (key, (Table.find? fields (.string key)).getD .missing))
  | v => v

/-- Entries with canonical nodes under `content` and `members`, and a truth value under `named`. -/
def canonicalEntries (place : Place) :
    List (Value Code × Value Code) → List (Value Code × Value Code)
  | [] => []
  | (key, v) :: rest =>
    (key,
      if Value.same (.string "content") key then canonical (place.part "content") v
      else if Value.same (.string "members") key then canonicalMembers (place.part "members") v
      else if Value.same (.string "named") key then .bool v.truth
      else v) :: canonicalEntries place rest

/-- Members as a list of canonical nodes. -/
def canonicalMembers (place : Place) : Value Code → Value Code
  | .list ⟨_, items, _⟩ => .list ⟨place, canonicalItems place 0 items, false⟩
  | .tuple items => .list ⟨place, canonicalItems place 0 items, false⟩
  | v => v

/-- Canonical nodes at the items of a place, from a position on. -/
def canonicalItems (place : Place) (index : Nat) : List (Value Code) → List (Value Code)
  | [] => []
  | v :: rest => canonical (place.item index) v :: canonicalItems place (index + 1) rest

end

/-- What a node has under a key in canonical form. -/
def canonicalField (place : Place) (key : String) (v : Value Code) : Value Code :=
  if key = "content" then canonical (place.part "content") v
  else if key = "members" then canonicalMembers (place.part "members") v
  else if key = "named" then .bool v.truth
  else v

/-- What canonical entries have under a key. -/
theorem find?_canonicalEntries (place : Place) (entries : List (Value Code × Value Code))
    (key : String) :
    Table.find? (canonicalEntries place entries) (.string key) =
      (Table.find? entries (.string key)).map (canonicalField place key) := by
  induction entries with
  | nil => rfl
  | cons entry rest ih =>
    obtain ⟨k, v⟩ := entry
    rw [canonicalEntries, Table.find?_cons, Table.find?_cons, ih]
    by_cases here : Value.same (.string key) k = true
    · obtain rfl := (Value.string_same key k).1 here
      have same (s : String) :
          Value.same (.string s) (.string key : Value Code) = true ↔ key = s := by
        simp [Value.string_same]
      simp [canonicalField, same]
    · simp [here]

/-- The canonical form of a node with a tag. -/
theorem canonical_of_tag? {node : Entries (Value Code)} {tag : Tag} (place : Place)
    (tagged : (Value.mapping node).tag? = some tag) :
    canonical place (.mapping node) = Rule.node place tag (tag.keys.map fun key ↦
      (key, ((Table.find? node.toList (.string key)).map (canonicalField place key)).getD
        .missing)) := by
  obtain ⟨made, entries, again⟩ := node
  rw [canonical, tagged]
  simp only [find?_canonicalEntries]

private theorem toSchemas_eq_canonicalItems {items : List (Value Code)}
    {rs : List (Rule (Value Code))} (read : ofSchemas items = .ok rs)
    (each : ∀ v ∈ items, ∀ r, ofSchema v = .ok r →
      ∀ place, r.toSchema place = .ok (canonical place v))
    (place : Place) (index : Nat) :
    toSchemas place index rs = .ok (canonicalItems place index items) := by
  induction items generalizing rs index with
  | nil =>
    cases read
    rfl
  | cons v rest ih =>
    simp only [ofSchemas, bind_eq_ok] at read
    obtain ⟨r, one, rs, more, ⟨⟩⟩ := read
    rw [List.forall_mem_cons] at each
    rw [toSchemas, each.1 r one, ih more each.2]
    rfl

private theorem canonicalMembers_of_array {m : Value Code} {items : List (Value Code)}
    (array : m.array? = some items) (place : Place) :
    canonicalMembers place m = .list ⟨place, canonicalItems place 0 items, false⟩ := by
  cases m with
  | list | tuple =>
    cases array
    rfl
  | _ => cases array

private theorem exists_of_toSchemas {members : List (Rule (Value Code))} {place : Place}
    {index : Nat} {ds : List (Value Code)} (written : toSchemas place index members = .ok ds) :
    ∀ r ∈ members, ∃ place d, r.toSchema place = .ok d := by
  induction members generalizing index ds with
  | nil => exact fun _ mem ↦ absurd mem List.not_mem_nil
  | cons r rest ih =>
    simp only [toSchemas, bind_eq_ok] at written
    obtain ⟨d, one, ds, more, -⟩ := written
    exact List.forall_mem_cons.2 ⟨⟨_, d, one⟩, ih more⟩

/-- A rule that is written has no bare nodes. -/
theorem concrete_of_toSchema (r : Rule (Value Code)) {place : Place} {d : Value Code}
    (written : r.toSchema place = .ok d) : r.Concrete := by
  match r with
  | .bare _ => cases written
  | .string v => exact .string v
  | .pattern v => exact .pattern v
  | .blank => exact .blank
  | .symbol v => exact .symbol v
  | .group kind members =>
    obtain ⟨ds, inner, -⟩ := bind_eq_ok.1 written
    refine .group kind fun s mem ↦ ?_
    obtain ⟨place', e, one⟩ := exists_of_toSchemas inner s mem
    exact concrete_of_toSchema s one
  | .wrap kind content =>
    obtain ⟨e, one, -⟩ := bind_eq_ok.1 written
    exact .wrap kind (concrete_of_toSchema content one)
  | .prec variant v content =>
    obtain ⟨e, one, -⟩ := bind_eq_ok.1 written
    exact .prec variant v (concrete_of_toSchema content one)
  | .field v content =>
    obtain ⟨e, one, -⟩ := bind_eq_ok.1 written
    exact .field v (concrete_of_toSchema content one)
  | .aliased content named v =>
    obtain ⟨e, one, -⟩ := bind_eq_ok.1 written
    exact .aliased (concrete_of_toSchema content one) named v

/-- What a document is read as is written as its canonical form. -/
theorem toSchema_eq_canonical {v : Value Code} {r : Rule (Value Code)} (legible : v.Legible)
    (h : ofSchema v = .ok r) (place : Place) : r.toSchema place = .ok (canonical place v) := by
  induction v using Value.under_induction generalizing r place with
  | step v ih =>
    obtain ⟨ends, node, tag, rfl, tagged, read⟩ := exists_of_ofSchema_eq_ok legible h
    obtain ⟨-, array, legibles⟩ := legible
    have content (u : Value Code) (s : Rule (Value Code)) (key : "content" ∈ tag.keys)
        (here : Table.find? node.toList (.string "content") = some u) (read : ofSchema u = .ok s) :
        s.toSchema (place.part "content") = .ok (canonical (place.part "content") u) := by
      have mem := (Value.mem_under ends).2 (.inl ⟨tag, tagged, key, here⟩)
      exact ih u mem (legibles u mem) read _
    rw [canonical_of_tag? place tagged]
    unfold ofNode at read
    cases tag with
    | string | pattern | symbol =>
      simp only [bind_eq_ok, schemaField_eq_ok] at read
      obtain ⟨value, here, ⟨⟩⟩ := read
      simp [toSchema, Tag.keys, here, canonicalField]
    | blank =>
      cases read
      rfl
    | wrap kind =>
      simp only [bind_eq_ok, required_eq_ok, Option.map_eq_some_iff] at read
      obtain ⟨s, ⟨u, here, one⟩, ⟨⟩⟩ := read
      rw [toSchema, content u s (by simp [Tag.keys]) here one]
      simp [Tag.keys, here, canonicalField]
    | prec variant | field =>
      simp only [bind_eq_ok, required_eq_ok, schemaField_eq_ok, Option.map_eq_some_iff] at read
      obtain ⟨value, there, s, ⟨u, here, one⟩, ⟨⟩⟩ := read
      rw [toSchema, content u s (by simp [Tag.keys]) here one]
      simp [Tag.keys, here, there, canonicalField]
    | aliased =>
      simp only [bind_eq_ok, required_eq_ok, schemaField_eq_ok, Option.map_eq_some_iff] at read
      obtain ⟨s, ⟨u, here, one⟩, named, there, value, given, ⟨⟩⟩ := read
      rw [toSchema, content u s (by simp [Tag.keys]) here one]
      simp [Tag.keys, here, there, given, canonicalField]
    -- Members are written as a list of their own, each at its position in it.
    | group kind =>
      simp only [bind_eq_ok, required_eq_ok, Option.map_eq_some_iff] at read
      obtain ⟨rs, ⟨m, here, elements⟩, ⟨⟩⟩ := read
      have members := Value.members?_eq_some.2 ⟨⟨kind, tagged⟩, here⟩
      obtain ⟨items, isArray⟩ := Option.isSome_iff_exists.1 (array m members)
      rw [ofElements_of_array isArray (Value.isAgain_of_ends ends members)] at elements
      have each : ∀ u ∈ items, ∀ s, ofSchema u = .ok s →
          ∀ place, s.toSchema place = .ok (canonical place u) := by
        intro u inside s one place
        have mem := (Value.mem_under ends).2 (.inr ⟨m, items, members, isArray, inside⟩)
        exact ih u mem (legibles u mem) one place
      rw [toSchema, toSchemas_eq_canonicalItems elements each]
      simp [Tag.keys, here, canonicalField, canonicalMembers_of_array isArray]

/-! ### What is read -/

/-- A document with types that can be looked up and members that are arrays is read if and only if
it is the document of a rule. Then the rule is written as the canonical form of the document, and
read back from that. If it is not read, this is a problem with a node of the document that is itself
defective; but where a node or its members stand inside of themselves, there may be no end to it. -/
theorem reads_documents {v : Value Code} (legible : v.Legible) :
    ((∃ r, ofSchema v = .ok r) ↔ v.Accepted) ∧
    (∀ r, ofSchema v = .ok r → ∀ place,
      r.toSchema place = .ok (canonical place v) ∧ ofSchema (canonical place v) = .ok r) ∧
    ∀ failure, ofSchema v = .error failure →
      (∃ p, failure = .problem p ∧ p.kind = .invalidRule ∧ NodeIn p.value v ∧ p.value.Defective) ∨
        failure = .fault .tooDeep ∧ ∃ u, NodeIn u v ∧ u.loops = true := by
  refine ⟨exists_ofSchema_iff legible, fun r read place ↦ ?_, fun failure unread ↦ ?_⟩
  · have written := toSchema_eq_canonical legible read place
    exact ⟨written, (concrete_of_toSchema r written).ofSchema written⟩
  · exact blames_of_ofSchema_eq_error legible unread

/-- A node of a document with more than the keys of its tag. -/
def blankNode : Value Unit :=
  .mapping ⟨.step 0, [(.string "value", .int 1), (.string "type", .string "BLANK")], false⟩

/-- An alias that lacks a key of its tag. -/
def aliasNode : Value Unit :=
  .mapping ⟨.step 1, [(.string "type", .string "ALIAS"), (.string "value", .string "a"),
    (.string "content", blankNode)], false⟩

/-- A choice with members in a tuple. -/
def choiceNode : Value Unit :=
  .mapping ⟨.step 2, [(.string "type", .string "CHOICE"),
    (.string "members", .tuple [blankNode, aliasNode])], false⟩

private theorem legible_choiceNode : choiceNode.Legible := by
  have blank : blankNode.Legible := by
    refine .node ?_ ?_ ?_ <;>
      simp [blankNode, Value.field?, Value.object?, Value.members?, Value.tag?, Value.under,
        Value.loops, Value.isAgain, Tag.ofTitle?, Value.canBeKey]
  have aliased : aliasNode.Legible := by
    refine .node ?_ ?_ ?_ <;>
      simp [aliasNode, Value.field?, Value.object?, Value.members?, Value.tag?, Value.under,
        Value.loops, Value.isAgain, Tag.ofTitle?, Value.canBeKey, blank]
  refine .node ?_ ?_ ?_ <;>
    simp [choiceNode, Value.field?, Value.object?, Value.members?, Value.tag?, Value.under,
      Value.loops, Value.isAgain, Value.array?, Tag.ofTitle?, Value.canBeKey, blank, aliased]

/-- Not the choice is to blame, but the alias in it. -/
theorem reads_documents_incomplete :
    choiceNode.Legible ∧ ¬ choiceNode.Accepted ∧ NodeIn aliasNode choiceNode ∧
      aliasNode.Defective := by
  obtain ⟨accepts, -, blames⟩ := reads_documents legible_choiceNode
  have unread : ofSchema choiceNode =
      .error (.problem ⟨.incompleteRule .aliased "named" aliasNode, none⟩) := by
    simp [choiceNode, aliasNode, blankNode, ofSchema, ofElements, ofSchemas, requireFinite,
      schemaTag?, schemaField, required, Value.canBeKey, Tag.ofTitle?, pure, Except.pure, bind,
      Except.bind]
  refine ⟨legible_choiceNode, fun accepted ↦ ?_, ?_⟩
  · obtain ⟨r, read⟩ := accepts.2 accepted
    rw [unread] at read
    cases read
  · obtain ⟨p, same, -, within, defective⟩ | ⟨deep, -⟩ := blames _ unread
    · cases same
      exact ⟨within, defective⟩
    · cases deep

/-- A sequence with members in a list. -/
def sequence (items : List (Value Unit)) (again : Bool) : Value Unit :=
  .mapping ⟨.step 0, [(.string "type", .string "SEQ"),
    (.string "members", .list ⟨.step 1, items, again⟩)], false⟩

/-- The list after the sequence itself and a number have been added to it. -/
def endless : Store Unit := { lists := [(.step 1, [sequence [] false, .int 5])] }

private theorem present_sequence :
    endless.present (sequence [] false) =
      sequence [sequence [sequence [] false, .int 5] true, .int 5] false := by
  simp [endless, sequence, Store.present, Store.isEmpty, Store.presentWithin, Value.replaced,
    Value.replacedMapping, Value.replacedEntries, Value.replacedList]

/-- That a document is not read need not be a problem: reading it may have no end, although one of
its nodes is no rule. -/
theorem exists_endless_document :
    ∃ v, v = endless.present (sequence [] false) ∧ v.Legible ∧ ¬ v.Accepted ∧
      NodeIn (.int 5) v ∧ (Value.int 5 : Value Unit).Defective ∧
      ofSchema v = .error (.fault .tooDeep) := by
  refine ⟨_, rfl, ?_⟩
  rw [present_sequence]
  have number : (Value.int 5 : Value Unit).Legible := by
    refine .node ?_ ?_ ?_ <;>
      simp [Value.field?, Value.object?, Value.members?, Value.tag?, Value.under, Value.loops]
  have inner : (sequence [sequence [] false, .int 5] true).Legible := by
    refine .node ?_ ?_ ?_ <;>
      simp [sequence, Value.field?, Value.object?, Value.members?, Value.tag?, Value.under,
        Value.loops, Value.isAgain, Value.array?, Tag.ofTitle?, Value.canBeKey]
  have under : (sequence [sequence [sequence [] false, .int 5] true, .int 5] false).under =
      [sequence [sequence [] false, .int 5] true, .int 5] := by
    simp [sequence, Value.field?, Value.object?, Value.members?, Value.tag?, Value.under,
      Value.loops, Value.isAgain, Value.array?, Tag.ofTitle?]
  have legible : (sequence [sequence [sequence [] false, .int 5] true, .int 5] false).Legible := by
    refine .node ?_ ?_ ?_
    · simp [sequence, Value.field?, Value.object?, Value.canBeKey]
    · simp [sequence, Value.field?, Value.object?, Value.members?, Value.tag?, Tag.ofTitle?,
        Value.array?]
    · simp [under, inner, number]
  have unread : ofSchema (sequence [sequence [sequence [] false, .int 5] true, .int 5] false) =
      .error (.fault .tooDeep) := by
    simp [sequence, ofSchema, ofElements, ofSchemas, requireFinite, schemaTag?, required,
      Value.canBeKey, Tag.ofTitle?, bind, Except.bind]
  refine ⟨legible, fun accepted ↦ ?_, ?_, .inl rfl, unread⟩
  · obtain ⟨r, read⟩ := (exists_ofSchema_iff legible).2 accepted
    rw [unread] at read
    cases read
  · exact .under (by simp [under]) .self

end Rule

end GrammarDoc
