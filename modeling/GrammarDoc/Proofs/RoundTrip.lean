import GrammarDoc.Grammar.Schema
import GrammarDoc.Proofs.Equality

/-!
# Documents read back

Reading what a rule or a grammar is written as gives back what was written, for every rule tree in
which no node is bare. So no two rules and no two grammars are written as the same document, and
documents that are found equal are those of rules and grammars that are found equal.

What a grammar is written as is described part by part by `Grammar.WrittenWith`: writing gives such
a document, reading needs no more than that, and so does a comparison of two.
-/

namespace GrammarDoc

variable {Code : Type}

/-- Two steps have a result together if the first has one and the second has that result on it. -/
theorem bind_eq_ok {ε α β : Type} {first : Except ε α} {next : α → Except ε β} {b : β} :
    first >>= next = .ok b ↔ ∃ a, first = .ok a ∧ next a = .ok b := by
  cases first with
  | error e => simp [bind, Except.bind]
  | ok a => simp [bind, Except.bind]

private theorem forall₂_of_related {α β γ δ : Type} {R : α → γ → Prop} {S : β → δ → Prop}
    {T : γ → δ → Prop} {U : α → β → Prop} {as : List α} {bs : List β} {cs : List γ} {ds : List δ}
    (first : List.Forall₂ R as cs) (second : List.Forall₂ S bs ds)
    (between : List.Forall₂ T cs ds)
    (each : ∀ a ∈ as, ∀ b ∈ bs, ∀ c d, R a c → S b d → T c d → U a b) :
    List.Forall₂ U as bs := by
  induction first generalizing bs ds with
  | nil =>
    cases between
    cases second
    exact .nil
  | @cons a c as cs one more ih =>
    obtain _ | ⟨together, rest⟩ := between
    obtain _ | ⟨one', more'⟩ := second
    exact .cons (each a (by simp) _ (by simp) c _ one one' together)
      (ih more' rest fun a found b found' ↦ each a (by simp [found]) b (by simp [found']))

private theorem exists_mapM_zipIdx {ε α β γ : Type} {step : β × Nat → Except ε γ} {R : α → β → Prop}
    {Q : α → γ → Prop} {as : List α} {bs : List β} (related : List.Forall₂ R as bs)
    (each : ∀ a b, R a b → ∀ i, ∃ c, step (b, i) = .ok c ∧ Q a c) (start : Nat) :
    ∃ cs, (bs.zipIdx start).mapM step = .ok cs ∧ List.Forall₂ Q as cs := by
  induction related generalizing start with
  | nil => exact ⟨[], rfl, .nil⟩
  | @cons a b as bs one _ ih =>
    obtain ⟨c, done, holds⟩ := each a b one start
    obtain ⟨cs, more, hold⟩ := ih (start + 1)
    refine ⟨c :: cs, ?_, .cons holds hold⟩
    rw [List.zipIdx_cons, List.mapM_cons, done]
    show (do let cs ← (bs.zipIdx (start + 1)).mapM step; return c :: cs) = _
    rw [more]
    rfl

private theorem map_eq_of_forall₂ {α β γ : Type} {f : α → γ} {g : β → γ} {as : List α} {bs : List β}
    (same : List.Forall₂ (fun a b ↦ g b = f a) as bs) : bs.map g = as.map f := by
  induction same with
  | nil => rfl
  | cons one _ ih => rw [List.map_cons, List.map_cons, one, ih]

namespace Rule

/-! ## Rules -/

/-- A rule tree in which no node is bare. -/
inductive Concrete {α : Type} : Rule α → Prop where
  | string (value : α) : Concrete (.string value)
  | pattern (value : α) : Concrete (.pattern value)
  | blank : Concrete .blank
  | symbol (name : α) : Concrete (.symbol name)
  | group (kind : Grouping) {members : List (Rule α)} (all : ∀ r ∈ members, Concrete r) :
    Concrete (.group kind members)
  | wrap (kind : Wrapping) {content : Rule α} (inner : Concrete content) :
    Concrete (.wrap kind content)
  | prec (variant : Precedence) (value : α) {content : Rule α} (inner : Concrete content) :
    Concrete (.prec variant value content)
  | field (name : α) {content : Rule α} (inner : Concrete content) : Concrete (.field name content)
  | aliased {content : Rule α} (inner : Concrete content) (named : Bool) (value : α) :
    Concrete (.aliased content named value)

/-- Whether a rule is a literal string, a pattern or a symbol. -/
def isLeaf {α : Type} : Rule α → Bool
  | .string _ | .pattern _ | .symbol _ => true
  | _ => false

/-- Leaves have no bare nodes. -/
theorem concrete_of_isLeaf {α : Type} {r : Rule α} (h : r.isLeaf = true) : r.Concrete := by
  cases r with
  | string | pattern | symbol => constructor
  | bare | blank | group | wrap | prec | field | aliased => cases h

/-- The tag of a node is the one that it is made with. -/
@[simp] theorem schemaTag?_cons (tag : Tag) (fields : List (Value Code × Value Code)) :
    schemaTag? ((.string "type", .string tag.title) :: fields) = .ok (some tag) := by
  simp [schemaTag?, Value.canBeKey, Tag.ofTitle?_title]

/-- The content of a node is represented under the first key of that name. -/
@[simp] theorem contentIn_cons (key : String) (v : Value Code)
    (rest : List (Value Code × Value Code)) :
    contentIn ((.string key, v) :: rest) =
      if "content" = key then some (ofSchema v) else contentIn rest := by
  simp [contentIn, Value.same]

/-- The members of a node are represented under the first key of that name. -/
@[simp] theorem membersIn_cons (key : String) (v : Value Code)
    (rest : List (Value Code × Value Code)) :
    membersIn ((.string key, v) :: rest) =
      if "members" = key then some (ofElements v) else membersIn rest := by
  simp [membersIn, Value.same]

/-- Members that are each read back from what they are written as are read back together. -/
theorem exists_toSchemas {members : List (Rule (Value Code))}
    (each : ∀ r ∈ members, ∀ place, ∃ d, r.toSchema place = .ok d ∧ ofSchema d = .ok r)
    (place : Place) (index : Nat) :
    ∃ ds, toSchemas place index members = .ok ds ∧ ofSchemas ds = .ok members := by
  induction members generalizing index with
  | nil => exact ⟨[], rfl, rfl⟩
  | cons r rest ih =>
    obtain ⟨d, written, back⟩ := each r (by simp) (place.item index)
    obtain ⟨ds, more, backs⟩ := ih (fun s found ↦ each s (by simp [found])) (index + 1)
    refine ⟨d :: ds, ?_, ?_⟩
    · rw [toSchemas, written, more]
      rfl
    · rw [ofSchemas, back, backs]
      rfl

/-- A rule without bare nodes is written as a node that it is read back from. -/
theorem Concrete.exists_toSchema {r : Rule (Value Code)} (concrete : r.Concrete) (place : Place) :
    ∃ d, r.toSchema place = .ok d ∧ ofSchema d = .ok r := by
  induction concrete generalizing place with
  | string | pattern | blank | symbol =>
    exact ⟨_, rfl, by simp [node, ofSchema, requireFinite, schemaField, required, pure, Except.pure,
      bind, Except.bind]⟩
  | group kind all ih =>
    obtain ⟨ds, written, back⟩ := exists_toSchemas ih (place.part "members") 0
    refine ⟨_, by rw [toSchema, written]; rfl, ?_⟩
    simp [node, ofSchema, requireFinite, required, ofElements, back, pure, Except.pure, bind,
      Except.bind]
  | wrap kind inner ih | prec variant value inner ih | field name inner ih
  | aliased inner named value ih =>
    obtain ⟨d, written, back⟩ := ih (place.part "content")
    refine ⟨_, by rw [toSchema, written]; rfl, ?_⟩
    simp [node, ofSchema, requireFinite, schemaField, required, back, Value.truth, pure,
      Except.pure, bind, Except.bind]

/-- A rule without bare nodes is what its node is read as. -/
theorem Concrete.ofSchema {r : Rule (Value Code)} (concrete : r.Concrete) {place : Place}
    {d : Value Code} (written : r.toSchema place = .ok d) : Rule.ofSchema d = .ok r := by
  obtain ⟨e, written', back⟩ := concrete.exists_toSchema place
  cases written.symm.trans written'
  exact back

private theorem exists_eq_node {r : Rule (Value Code)} {place : Place} {d : Value Code}
    (written : r.toSchema place = .ok d) :
    ∃ tag fields, r.tag? = some tag ∧ d = node place tag fields := by
  cases r with
  | bare => cases written
  | string | pattern | blank | symbol =>
    cases written
    exact ⟨_, _, rfl, rfl⟩
  | group | wrap | prec | field | aliased =>
    simp only [toSchema, bind_eq_ok] at written
    obtain ⟨inner, -, written⟩ := written
    cases written
    exact ⟨_, _, rfl, rfl⟩

/-- Nodes that are found equal have the same fields as their mappings. -/
theorem compare_node (place place' : Place) (tag tag' : Tag)
    (fields fields' : List (String × Value Code)) :
    (node place tag fields).compare (node place' tag' fields') = some true ↔
      fields.length = fields'.length ∧ tag = tag' ∧
      Value.compareEntries (fields.map fun (key, v) ↦ (.string key, v))
        ((.string "type", .string tag'.title) :: fields'.map fun (key, v) ↦ (.string key, v)) =
          some true := by
  have title : tag.title = tag'.title ↔ tag = tag' := by
    constructor
    · intro same
      simpa [Tag.ofTitle?_title] using congrArg Tag.ofTitle? same
    · exact congrArg Tag.title
  simp [node, Value.compare, Value.compareMappings_eq_true, title]

private theorem tag?_eq {r s : Rule (Value Code)} {place place' : Place} {d e : Value Code}
    (written : r.toSchema place = .ok d) (written' : s.toSchema place' = .ok e)
    (same : d.compare e = some true) : r.tag? = s.tag? := by
  obtain ⟨tag, fields, tagged, rfl⟩ := exists_eq_node written
  obtain ⟨tag', fields', tagged', rfl⟩ := exists_eq_node written'
  rw [tagged, tagged', ((compare_node _ _ _ _ _ _).1 same).2.1]

private theorem forall₂_toSchemas {members : List (Rule (Value Code))} {place : Place} {index : Nat}
    {ds : List (Value Code)} (written : toSchemas place index members = .ok ds) :
    List.Forall₂ (fun r d ↦ ∃ place, r.toSchema place = .ok d) members ds := by
  induction members generalizing index ds with
  | nil =>
    cases written
    exact .nil
  | cons r rest ih =>
    simp only [toSchemas, bind_eq_ok] at written
    obtain ⟨d, one, ds, more, written⟩ := written
    cases written
    exact .cons ⟨_, one⟩ (ih more)

/-- Rules whose documents are found equal are found equal. -/
theorem Concrete.compareRules {r : Rule (Value Code)} (concrete : r.Concrete)
    {s : Rule (Value Code)} {place place' : Place} {d e : Value Code}
    (written : r.toSchema place = .ok d) (written' : s.toSchema place' = .ok e)
    (same : d.compare e = some true) : Value.compareRules r s = some true := by
  -- A node has the tag of its rule, so the other rule can only be of the same kind. The induction
  -- is on the first rule and takes the second one along.
  induction concrete generalizing s place place' d e with
  | string | pattern | blank | symbol =>
    cases s with
    | string | pattern | blank | symbol =>
      cases written
      cases written'
      simp_all [compare_node, Value.compareRules]
    | bare | group | wrap | prec | field | aliased =>
      cases tag?_eq written written' same
  | group kind all ih =>
    cases s with
    | group kind' members =>
      simp only [toSchema, bind_eq_ok] at written written'
      obtain ⟨ds, inner, written⟩ := written
      obtain ⟨es, inner', written'⟩ := written'
      cases written
      cases written'
      simp [compare_node, Value.compare, Value.compareLists_eq_true] at same
      simp only [Value.compareRules, same.1, if_true, Value.compareMembers_eq_true]
      refine forall₂_of_related (forall₂_toSchemas inner) (forall₂_toSchemas inner') same.2 ?_
      rintro r found s - d e ⟨_, one⟩ ⟨_, one'⟩ alike
      exact ih r found one one' alike
    | bare | string | pattern | blank | symbol | wrap | prec | field | aliased =>
      cases tag?_eq written written' same
  | wrap kind inner ih =>
    cases s with
    | wrap kind' content' =>
      obtain ⟨d, one, ⟨⟩⟩ := bind_eq_ok.1 written
      obtain ⟨e, one', ⟨⟩⟩ := bind_eq_ok.1 written'
      simp [compare_node] at same
      simp [Value.compareRules, same, ih one one' same.2]
    | bare | string | pattern | blank | symbol | group | prec | field | aliased =>
      cases tag?_eq written written' same
  | prec variant value inner ih =>
    cases s with
    | prec variant' value' content' =>
      obtain ⟨d, one, ⟨⟩⟩ := bind_eq_ok.1 written
      obtain ⟨e, one', ⟨⟩⟩ := bind_eq_ok.1 written'
      simp [compare_node] at same
      simp [Value.compareRules, same, ih one one' same.2.2]
    | bare | string | pattern | blank | symbol | group | wrap | field | aliased =>
      cases tag?_eq written written' same
  | field name inner ih =>
    cases s with
    | field name' content' =>
      obtain ⟨d, one, ⟨⟩⟩ := bind_eq_ok.1 written
      obtain ⟨e, one', ⟨⟩⟩ := bind_eq_ok.1 written'
      simp [compare_node] at same
      simp [Value.compareRules, same, ih one one' same.2]
    | bare | string | pattern | blank | symbol | group | wrap | prec | aliased =>
      cases tag?_eq written written' same
  | aliased inner named value ih =>
    cases s with
    | aliased content' named' value' =>
      obtain ⟨d, one, ⟨⟩⟩ := bind_eq_ok.1 written
      obtain ⟨e, one', ⟨⟩⟩ := bind_eq_ok.1 written'
      simp [compare_node] at same
      simp [Value.compareRules, same, ih one one' same.1]
    | bare | string | pattern | blank | symbol | group | wrap | prec | field =>
      cases tag?_eq written written' same

end Rule

namespace Value

/-! ## Values that stand for rules -/

/-- A node is what a value is written as, which is a rule without bare nodes. -/
def HasNode (v d : Value Code) : Prop :=
  ∃ r, v = rule r ∧ r.Concrete ∧ ∃ place, r.toSchema place = .ok d

/-- Values whose nodes are found equal are found equal. -/
theorem HasNode.alike {v w d e : Value Code} (first : v.HasNode d) (second : w.HasNode e)
    (same : Alike d e) : Alike v w := by
  obtain ⟨r, rfl, concrete, place, written⟩ := first
  obtain ⟨s, rfl, -, place', written'⟩ := second
  show compare _ _ = _
  rw [compare]
  exact concrete.compareRules written written' same

/-- Rules are written as nodes one by one. -/
theorem exists_toSchemas {vs : List (Value Code)}
    (each : ∀ v ∈ vs, ∃ r, v = rule r ∧ r.Concrete) (place : Place) (index : Nat) :
    ∃ ds, toSchemas place index vs = .ok ds ∧ List.Forall₂ HasNode vs ds := by
  induction vs generalizing index with
  | nil => exact ⟨[], rfl, .nil⟩
  | cons v rest ih =>
    obtain ⟨r, rfl, concrete⟩ := each v (by simp)
    obtain ⟨d, written, -⟩ := concrete.exists_toSchema (place.item index)
    obtain ⟨ds, more, nodes⟩ := ih (fun w found ↦ each w (by simp [found])) (index + 1)
    refine ⟨d :: ds, ?_, .cons ⟨r, rfl, concrete, _, written⟩ nodes⟩
    rw [toSchemas, toSchema, written, more]
    rfl

/-- Nodes of rules are read as those rules. -/
theorem rulesOf_eq {vs ds : List (Value Code)} (nodes : List.Forall₂ HasNode vs ds) :
    Grammar.rulesOf ds = .ok vs := by
  suffices ∃ rs, Rule.ofSchemas ds = .ok rs ∧ vs = rs.map rule by
    obtain ⟨rs, back, rfl⟩ := this
    rw [Grammar.rulesOf, back]
    rfl
  induction nodes with
  | nil => exact ⟨[], rfl, rfl⟩
  | @cons v d vs ds node _ ih =>
    obtain ⟨r, rfl, concrete, _, written⟩ := node
    obtain ⟨rs, backs, rfl⟩ := ih
    refine ⟨r :: rs, ?_, rfl⟩
    rw [Rule.ofSchemas, concrete.ofSchema written, backs]
    rfl

/-- A list of nodes is what a list of rules is written as. -/
def HasNodes (group d : Value Code) : Prop :=
  ∃ items place ds, group = list items ∧ d = list ⟨place, ds, false⟩ ∧
    List.Forall₂ HasNode items.toList ds

/-- A list holds the same values as another. -/
def HasItems (group d : Value Code) : Prop :=
  ∃ items place, group = list items ∧ d = list ⟨place, items.toList, false⟩

/-- A value that is no list that stands inside of itself. -/
def Once (v : Value Code) : Prop := ∀ items, v = list items → items.again = false

/-- Lists of rules whose lists of nodes are found equal are found equal. -/
theorem HasNodes.alike {v w d e : Value Code} (first : v.HasNodes d) (second : w.HasNodes e)
    (once : v.Once) (once' : w.Once) (same : Alike d e) : Alike v w := by
  obtain ⟨items, place, ds, rfl, rfl, nodes⟩ := first
  obtain ⟨items', place', es, rfl, rfl, nodes'⟩ := second
  simp only [Alike, compare, compareLists_eq_true, once _ rfl, once' _ rfl] at same ⊢
  exact forall₂_of_related nodes nodes' same
    fun _ _ _ _ _ _ node node' alike ↦ node.alike node' alike

/-- Lists are found equal if lists of their items are. -/
theorem HasItems.alike {v w d e : Value Code} (first : v.HasItems d) (second : w.HasItems e)
    (once : v.Once) (once' : w.Once) (same : Alike d e) : Alike v w := by
  obtain ⟨items, place, rfl, rfl⟩ := first
  obtain ⟨items', place', rfl, rfl⟩ := second
  simpa only [Alike, compare, compareLists_eq_true, once _ rfl, once' _ rfl] using same

private theorem exists_groupsToSchema {groups : List (Value Code)}
    (each : ∀ group ∈ groups, ∃ items, group = list items ∧
      ∀ v ∈ items.toList, ∃ r, v = rule r ∧ r.Concrete) (place : Place) (index : Nat) :
    ∃ ds, groupsToSchema place index groups = .ok ds ∧ List.Forall₂ HasNodes groups ds := by
  induction groups generalizing index with
  | nil => exact ⟨[], rfl, .nil⟩
  | cons group rest ih =>
    obtain ⟨⟨origin, vs, again⟩, rfl, concrete⟩ := each group (by simp)
    obtain ⟨ds, written, nodes⟩ := exists_toSchemas concrete (place.item index) 0
    obtain ⟨es, more, lists⟩ := ih (fun group found ↦ each group (by simp [found])) (index + 1)
    refine ⟨_ :: es, ?_, .cons ⟨_, place.item index, ds, rfl, rfl, nodes⟩ lists⟩
    rw [groupsToSchema, groupToSchema, listToSchema, written, more]
    rfl

private theorem exists_entriesToSchema {entries : List (Value Code × Value Code)}
    (each : ∀ entry ∈ entries, ∃ r, entry.2 = rule r ∧ r.Concrete) (place : Place) (index : Nat) :
    ∃ ds, entriesToSchema place index entries = .ok ds ∧
      List.Forall₂ (fun entry d ↦ entry.1 = d.1 ∧ entry.2.HasNode d.2) entries ds := by
  induction entries generalizing index with
  | nil => exact ⟨[], rfl, .nil⟩
  | cons entry rest ih =>
    obtain ⟨key, v⟩ := entry
    obtain ⟨r, rfl, concrete⟩ := each _ (List.mem_cons_self)
    obtain ⟨d, written, -⟩ := concrete.exists_toSchema (place.item index)
    obtain ⟨ds, more, nodes⟩ := ih (fun entry found ↦ each entry (by simp [found])) (index + 1)
    refine ⟨(key, d) :: ds, ?_, .cons ⟨rfl, r, rfl, concrete, _, written⟩ nodes⟩
    rw [entriesToSchema, toSchema, written, more]
    rfl

private theorem definitionsOfSchema_eq {entries ds : List (Value Code × Value Code)}
    (nodes : List.Forall₂ (fun entry d ↦ entry.1 = d.1 ∧ entry.2.HasNode d.2) entries ds) :
    Grammar.definitionsOfSchema ds = .ok entries := by
  induction nodes with
  | nil => rfl
  | @cons entry d _ _ node _ ih =>
    obtain ⟨key, v⟩ := entry
    obtain ⟨key', d⟩ := d
    obtain ⟨rfl, r, rfl, concrete, _, written⟩ := node
    rw [Grammar.definitionsOfSchema, concrete.ofSchema written, ih]
    rfl

private theorem find?_of_related {entries ds : List (Value Code × Value Code)}
    (nodes : List.Forall₂ (fun entry d ↦ entry.1 = d.1 ∧ entry.2.HasNode d.2) entries ds)
    {key d : Value Code} (found : Table.find? ds key = some d) :
    ∃ v, Table.find? entries key = some v ∧ v.HasNode d := by
  induction nodes with
  | nil => simp at found
  | @cons entry first _ _ node _ ih =>
    obtain ⟨name, v⟩ := entry
    obtain ⟨name', w⟩ := first
    obtain ⟨rfl, node⟩ := node
    simp only [Table.find?, List.find?_cons] at found ih ⊢
    cases same : key.same name with
    | true =>
      simp only [same, Option.map_some, Option.some.injEq] at found
      subst found
      exact ⟨v, rfl, node⟩
    | false =>
      simp only [same] at found
      exact ih found

private theorem compareEntries_of_related {entries ds others es : List (Value Code × Value Code)}
    (nodes : List.Forall₂ (fun entry d ↦ entry.1 = d.1 ∧ entry.2.HasNode d.2) entries ds)
    (nodes' : List.Forall₂ (fun entry d ↦ entry.1 = d.1 ∧ entry.2.HasNode d.2) others es)
    (same : compareEntries ds es = some true) : compareEntries entries others = some true := by
  induction nodes with
  | nil => exact compareEntries_nil _
  | @cons entry d _ _ node _ ih =>
    obtain ⟨key, v⟩ := entry
    obtain ⟨key', d⟩ := d
    obtain ⟨rfl, node⟩ := node
    obtain ⟨⟨e, found, alike⟩, rest⟩ := (compareEntries_cons _ _ _ _).1 same
    obtain ⟨w, found', node'⟩ := find?_of_related nodes' found
    exact (compareEntries_cons _ _ _ _).2 ⟨⟨w, found', node.alike node' alike⟩, ih rest⟩

end Value

namespace Grammar

/-! ## Grammars -/

/-- A document in which every rule is a tree without bare nodes, every group of the precedences is a
list of such rules, and every conflict is a list. -/
structure Regular (g : Grammar (Value Code)) : Prop where
  again : g.again = false
  rules : ∀ entry ∈ g.rules.toList, ∃ r, entry.2 = .rule r ∧ r.Concrete
  extras : ∀ v ∈ g.extras.toList, ∃ r, v = .rule r ∧ r.Concrete
  externals : ∀ v ∈ g.externals.toList, ∃ r, v = .rule r ∧ r.Concrete
  conflicts : ∀ group ∈ g.conflicts.toList, ∃ items, group = .list items
  precedences : ∀ group ∈ g.precedences.toList, ∃ items, group = .list items ∧
    ∀ v ∈ items.toList, ∃ r, v = .rule r ∧ r.Concrete

/-- A document does not stand inside of itself, nor does one of its collections. -/
structure Once (g : Grammar (Value Code)) : Prop where
  again : g.again = false
  rules : g.rules.again = false
  extras : g.extras.again = false
  externals : g.externals.again = false
  inline : g.inline.again = false
  conflicts : g.conflicts.again = false
  supertypes : g.supertypes.again = false
  precedences : g.precedences.again = false

/-- None of the collections that a document is made of stands inside of itself, and no group of its
conflicts or its precedences does. -/
structure Finite (g : Grammar (Value Code)) : Prop extends g.Once where
  groups : ∀ group ∈ g.conflicts.toList ++ g.precedences.toList, group.Once

/-- What a document holds, apart from the identities of its collections. -/
structure Content (Code : Type) where
  name : Value Code
  rules : List (Value Code × Value Code)
  extras : List (Value Code)
  externals : List (Value Code)
  inline : List (Value Code)
  /-- The groups of the conflicts, each by its items. -/
  conflicts : List (Option (List (Value Code)))
  word : Value Code
  supertypes : List (Value Code)
  /-- The groups of the precedences, each by its items. -/
  precedences : List (Option (List (Value Code)))

/-- The content of a document. -/
def content (g : Grammar (Value Code)) : Content Code where
  name := g.name
  rules := g.rules.toList
  extras := g.extras.toList
  externals := g.externals.toList
  inline := g.inline.toList
  conflicts := g.conflicts.toList.map Value.array?
  word := g.word
  supertypes := g.supertypes.toList
  precedences := g.precedences.toList.map Value.array?

/-- A grammar is written as a document with the parts of another, whose rules are nodes. -/
structure WrittenWith (g w : Grammar (Value Code)) : Prop where
  name : w.name = g.name
  word : w.word = g.word
  inline : w.inline.toList = g.inline.toList
  supertypes : w.supertypes.toList = g.supertypes.toList
  rules : List.Forall₂ (fun entry d ↦ entry.1 = d.1 ∧ entry.2.HasNode d.2) g.rules.toList
    w.rules.toList
  extras : List.Forall₂ Value.HasNode g.extras.toList w.extras.toList
  externals : List.Forall₂ Value.HasNode g.externals.toList w.externals.toList
  conflicts : List.Forall₂ Value.HasItems g.conflicts.toList w.conflicts.toList
  precedences : List.Forall₂ Value.HasNodes g.precedences.toList w.precedences.toList
  once : w.Once

/-- The document, made at a place, with the parts of a grammar as they are. -/
def document (place : Place) (w : Grammar (Value Code)) : Value Code :=
  .mapping { place, toList := documentEntries w.name w.word [
    ("rules", .mapping w.rules), ("extras", .list w.extras), ("precedences", .list w.precedences),
    ("conflicts", .list w.conflicts), ("externals", .list w.externals), ("inline", .list w.inline),
    ("supertypes", .list w.supertypes)] }

private theorem exists_listsOfEach {groups : List (Value Code)}
    (each : ∀ group ∈ groups, ∃ items, group = Value.list items) (place : Place) :
    ∃ ds, listsOfEach place groups = .ok ds ∧ List.Forall₂ Value.HasItems groups ds := by
  have lists : List.Forall₂ (fun group d ↦ d = group ∧ ∃ items, group = Value.list items)
      groups groups := List.forall₂_same.2 fun group found ↦ ⟨rfl, each group found⟩
  refine exists_mapM_zipIdx lists ?_ 0
  rintro group _ ⟨rfl, items, rfl⟩ i
  exact ⟨_, rfl, items, place.item i, rfl, rfl⟩

/-- A regular document is written with the nodes of its rules. -/
theorem Regular.exists_toSchema {g : Grammar (Value Code)} (regular : g.Regular) (place : Place) :
    ∃ w, g.toSchema place = .ok (document place w) ∧ g.WrittenWith w := by
  obtain ⟨rules, rulesWritten, rulesNodes⟩ :=
    Value.exists_entriesToSchema regular.rules (place.part "rules") 0
  obtain ⟨extras, extrasWritten, extrasNodes⟩ :=
    Value.exists_toSchemas regular.extras (place.part "extras") 0
  obtain ⟨externals, externalsWritten, externalsNodes⟩ :=
    Value.exists_toSchemas regular.externals (place.part "externals") 0
  obtain ⟨conflicts, conflictsWritten, conflictsItems⟩ :=
    exists_listsOfEach regular.conflicts (place.part "conflicts")
  obtain ⟨precedences, precedencesWritten, precedencesNodes⟩ :=
    Value.exists_groupsToSchema regular.precedences (place.part "precedences") 0
  refine ⟨⟨place, g.name, ⟨place.part "rules", rules, false⟩, ⟨place.part "extras", extras, false⟩,
    ⟨place.part "externals", externals, false⟩, ⟨place.part "inline", g.inline.toList, false⟩,
    ⟨place.part "conflicts", conflicts, false⟩, g.word,
    ⟨place.part "supertypes", g.supertypes.toList, false⟩,
    ⟨place.part "precedences", precedences, false⟩, false⟩, ?_, ?_⟩
  · -- The writer goes by the fields of the grammar, so they have to be seen for the parts to fit.
    obtain ⟨origin, name, ⟨p₁, entries, a₁⟩, ⟨p₂, items₂, a₂⟩, ⟨p₃, items₃, a₃⟩, inline,
      ⟨p₅, items₅, a₅⟩, word, supertypes, ⟨p₆, items₆, a₆⟩, again⟩ := g
    cases regular.again
    simp only at rulesWritten extrasWritten externalsWritten conflictsWritten precedencesWritten
    simp [toSchema, Value.grammarToSchema, Value.mappingToSchema, Value.listToSchema,
      Value.listOfGroupsToSchema, rulesWritten, extrasWritten, externalsWritten, conflictsWritten,
      precedencesWritten, document, bind, Except.bind, pure, Except.pure]
  · exact {
      name := rfl, word := rfl, inline := rfl, supertypes := rfl
      rules := rulesNodes, extras := extrasNodes, externals := externalsNodes
      conflicts := conflictsItems, precedences := precedencesNodes
      once := ⟨rfl, rfl, rfl, rfl, rfl, rfl, rfl, rfl⟩ }

private theorem documentEntries_eq (name word : Value Code) (parts : List (String × Value Code)) :
    documentEntries name word parts =
      (((("name", name) :: (word.toOption.map fun v ↦ ("word", v)).toList) ++ parts).map
        fun (key, v) ↦ (.string key, v)) := by
  cases word with
  | missing | bool | int | double | string | list | tuple | mapping | pattern | callable | builder
  | rule | grammar | references => rfl

private theorem exists_rulesOfEach {groups ds : List (Value Code)} (place : Place)
    (nodes : List.Forall₂ Value.HasNodes groups ds) :
    ∃ lists, rulesOfEach place ds = .ok lists ∧
      lists.map Value.array? = groups.map Value.array? := by
  suffices ∃ lists, rulesOfEach place ds = .ok lists ∧
      List.Forall₂ (fun group list ↦ Value.array? list = Value.array? group) groups lists by
    obtain ⟨lists, read, same⟩ := this
    exact ⟨lists, read, map_eq_of_forall₂ same⟩
  refine exists_mapM_zipIdx nodes ?_ 0
  rintro group d ⟨items, origin, ds, rfl, rfl, nodes⟩ i
  refine ⟨.list ⟨place.item i, items.toList, false⟩, ?_, rfl⟩
  simp [Value.elements, Outcome.ofFault, Value.rulesOf_eq nodes, bind, Except.bind, pure,
    Except.pure]

private theorem exists_listsOfEach_of_items {groups ds : List (Value Code)} (place : Place)
    (nodes : List.Forall₂ Value.HasItems groups ds) :
    ∃ lists, listsOfEach place ds = .ok lists ∧
      lists.map Value.array? = groups.map Value.array? := by
  suffices ∃ lists, listsOfEach place ds = .ok lists ∧
      List.Forall₂ (fun group list ↦ Value.array? list = Value.array? group) groups lists by
    obtain ⟨lists, read, same⟩ := this
    exact ⟨lists, read, map_eq_of_forall₂ same⟩
  refine exists_mapM_zipIdx nodes ?_ 0
  rintro group d ⟨items, origin, rfl, rfl⟩ i
  exact ⟨_, rfl, rfl⟩

private theorem find?_documentEntries (name word : Value Code) (parts : List (String × Value Code))
    (key : String) :
    Table.find? (documentEntries name word parts) (.string key) =
      if key = "name" then some name
      else if key = "word" then word.toOption.or (parts.lookup key)
      else parts.lookup key := by
  rw [documentEntries_eq, Table.find?_map_string]
  cases word.toOption with
  | none => simp [Table.lookup_cons_string]
  | some v => simp [Table.lookup_cons_string]

/-- A document is read as a grammar with the content that was written. -/
theorem WrittenWith.exists_ofSchema {g w : Grammar (Value Code)} (written : g.WrittenWith w)
    (place place' : Place) :
    ∃ h, ofSchema place' (document place w) = .ok h ∧ h.content = g.content := by
  obtain ⟨conflicts, conflictsRead, conflictsSame⟩ :=
    exists_listsOfEach_of_items (place'.part "conflicts") written.conflicts
  obtain ⟨precedences, precedencesRead, precedencesSame⟩ :=
    exists_rulesOfEach (place'.part "precedences") written.precedences
  have word : Value.ofOption w.word.toOption = w.word := by
    cases w.word with
    | missing | bool | int | double | string | list | tuple | mapping | pattern | callable
    | builder | rule | grammar | references => rfl
  simp [document, ofSchema, ofEntries, elementsUnder, find?_documentEntries, List.lookup_cons,
    Outcome.ofOption, Outcome.ofFault, Value.elements, Value.definitionsOfSchema_eq written.rules,
    Value.rulesOf_eq written.extras, Value.rulesOf_eq written.externals, conflictsRead,
    precedencesRead, bind, Except.bind, pure, Except.pure, word]
  simp [content, written.name, written.inline, conflictsSame, written.word, written.supertypes,
    precedencesSame]

/-- Documents are found equal only if the grammars whose parts they have are. -/
theorem compareGrammars_of_alike {w w' : Grammar (Value Code)} {place place' : Place}
    (once : w.again = false) (once' : w'.again = false)
    (same : Value.Alike (document place w) (document place' w')) :
    Value.compareGrammars w w' = some true := by
  simp only [Value.Alike, document, Value.compare, Value.compareMappings_eq_true,
    documentEntries_eq] at same
  rw [Value.compareGrammars_eq_true once once']
  -- A word that is missing is left out of the document, so whether there is one shows in the number
  -- of the entries.
  cases given : w.word.toOption with
  | none =>
    cases given' : w'.word.toOption with
    | none =>
      simp [given, given', Value.compare] at same
      obtain ⟨name, rules, extras, precedences, conflicts, externals, inline, supertypes⟩ := same
      refine ⟨name, rules, extras, externals, inline, conflicts, ?_, supertypes, precedences⟩
      rw [Value.eq_missing_of_toOption_eq_none given, Value.eq_missing_of_toOption_eq_none given',
        Value.compare]
    | some v' => simp [given, given'] at same
  | some v =>
    cases given' : w'.word.toOption with
    | none => simp [given, given'] at same
    | some v' =>
      simp [given, given', Value.compare] at same
      obtain ⟨name, word, rules, extras, precedences, conflicts, externals, inline, supertypes⟩ :=
        same
      rw [← Value.eq_of_toOption_eq_some given, ← Value.eq_of_toOption_eq_some given'] at word
      exact ⟨name, rules, extras, externals, inline, conflicts, word, supertypes, precedences⟩

/-- Grammars are found equal if those that they are written with are. -/
theorem WrittenWith.compareGrammars {g h w w' : Grammar (Value Code)} (first : g.WrittenWith w)
    (second : h.WrittenWith w') (finite : g.Finite) (finite' : h.Finite)
    (same : Value.compareGrammars w w' = some true) : Value.compareGrammars g h = some true := by
  rw [Value.compareGrammars_eq_true first.once.again second.once.again] at same
  obtain ⟨name, rules, extras, externals, inline, conflicts, word, supertypes, precedences⟩ := same
  rw [Value.compareGrammars_eq_true finite.again finite'.again]
  rw [Value.compareMappings_eq_true first.once.rules second.once.rules] at rules
  rw [Value.compareLists_eq_true first.once.extras second.once.extras] at extras
  rw [Value.compareLists_eq_true first.once.externals second.once.externals] at externals
  rw [Value.compareLists_eq_true first.once.inline second.once.inline] at inline
  rw [Value.compareLists_eq_true first.once.conflicts second.once.conflicts] at conflicts
  rw [Value.compareLists_eq_true first.once.supertypes second.once.supertypes] at supertypes
  rw [Value.compareLists_eq_true first.once.precedences second.once.precedences] at precedences
  rw [first.name, second.name] at name
  rw [first.word, second.word] at word
  rw [first.inline, second.inline] at inline
  rw [first.supertypes, second.supertypes] at supertypes
  refine ⟨name, ?_, ?_, ?_, ?_, ?_, word, ?_, ?_⟩
  · rw [Value.compareMappings_eq_true finite.rules finite'.rules]
    refine ⟨?_, Value.compareEntries_of_related first.rules second.rules rules.2⟩
    rw [first.rules.length_eq, second.rules.length_eq, rules.1]
  · rw [Value.compareLists_eq_true finite.extras finite'.extras]
    exact forall₂_of_related first.extras second.extras extras
      fun _ _ _ _ _ _ node node' alike ↦ node.alike node' alike
  · rw [Value.compareLists_eq_true finite.externals finite'.externals]
    exact forall₂_of_related first.externals second.externals externals
      fun _ _ _ _ _ _ node node' alike ↦ node.alike node' alike
  · rwa [Value.compareLists_eq_true finite.inline finite'.inline]
  · rw [Value.compareLists_eq_true finite.conflicts finite'.conflicts]
    refine forall₂_of_related first.conflicts second.conflicts conflicts ?_
    intro group found group' found' d e items items' alike
    exact items.alike items' (finite.groups group (by simp [found]))
      (finite'.groups group' (by simp [found'])) alike
  · rwa [Value.compareLists_eq_true finite.supertypes finite'.supertypes]
  · rw [Value.compareLists_eq_true finite.precedences finite'.precedences]
    refine forall₂_of_related first.precedences second.precedences precedences ?_
    intro group found group' found' d e nodes nodes' alike
    exact nodes.alike nodes' (finite.groups group (by simp [found]))
      (finite'.groups group' (by simp [found'])) alike

end Grammar

/-! ## Reading undoes writing -/

/-- Every rule without bare nodes, and every document of such rules, is written, and what it is
written as is read as the same rule, or as a document that holds the same. So what is written as the
same document is the same, and what is written as documents that are found equal is found equal. -/
theorem schema_roundTrip :
    (∀ (r : Rule (Value Code)) (place : Place), r.Concrete →
      ∃ d, r.toSchema place = .ok d ∧ Rule.ofSchema d = .ok r) ∧
    (∀ (g : Grammar (Value Code)) (place place' : Place), g.Regular →
      ∃ d h, g.toSchema place = .ok d ∧ Grammar.ofSchema place' d = .ok h ∧ h.content = g.content) ∧
    (∀ (r s : Rule (Value Code)) (place place' : Place) (d e : Value Code), r.Concrete →
      s.Concrete → r.toSchema place = .ok d → s.toSchema place' = .ok e →
      (d = e → r = s) ∧ (d.compare e = some true → Value.compareRules r s = some true)) ∧
    ∀ (g h : Grammar (Value Code)) (place place' : Place) (d e : Value Code), g.Regular →
      h.Regular → g.toSchema place = .ok d → h.toSchema place' = .ok e →
      (d = e → g.content = h.content) ∧
      (g.Finite → h.Finite → d.compare e = some true →
        Value.compareGrammars g h = some true) := by
  refine ⟨fun r place concrete ↦ concrete.exists_toSchema place, ?_, ?_, ?_⟩
  · intro g place place' regular
    obtain ⟨w, written, parts⟩ := regular.exists_toSchema place
    obtain ⟨h, back, same⟩ := parts.exists_ofSchema place place'
    exact ⟨_, h, written, back, same⟩
  · intro r s place place' d e concrete concrete' written written'
    refine ⟨?_, concrete.compareRules written written'⟩
    rintro rfl
    exact Except.ok.inj ((concrete.ofSchema written).symm.trans (concrete'.ofSchema written'))
  · intro g h place place' d e regular regular' written written'
    obtain ⟨w, one, parts⟩ := regular.exists_toSchema place
    obtain ⟨w', one', parts'⟩ := regular'.exists_toSchema place'
    cases written.symm.trans one
    cases written'.symm.trans one'
    constructor
    · intro same
      obtain ⟨k, back, content⟩ := parts.exists_ofSchema place place
      obtain ⟨k', back', content'⟩ := parts'.exists_ofSchema place' place
      rw [same] at back
      cases back.symm.trans back'
      rw [← content, content']
    · intro finite finite' same
      exact parts.compareGrammars parts' finite finite'
        (Grammar.compareGrammars_of_alike parts.once.again parts'.once.again same)

/-- A token of no members, and a document with one rule, a conflict and a precedence, are written
and read back, and are found equal to what is written as they are. -/
theorem schema_roundTrip_token :
    let r : Rule (Value Unit) := .wrap .token (.group .seq [])
    let g : Grammar (Value Unit) := {
      place := .step 0, name := .string "g"
      rules := ⟨.step 1, [(.string "a", .rule r)], false⟩
      extras := ⟨.step 2, [], false⟩, externals := ⟨.step 3, [], false⟩
      inline := ⟨.step 4, [.string "a"], false⟩
      conflicts := ⟨.step 5, [.list ⟨.step 6, [.string "a", .string "b"], false⟩], false⟩
      word := .missing, supertypes := ⟨.step 7, [], false⟩
      precedences := ⟨.step 8, [.list ⟨.step 9, [.rule (.symbol (.string "a"))], false⟩], false⟩ }
    (∃ d, r.toSchema (.step 0) = .ok d ∧ Rule.ofSchema d = .ok r) ∧
      (∃ d h, g.toSchema (.step 0) = .ok d ∧ Grammar.ofSchema (.step 1) d = .ok h ∧
        h.content = g.content) ∧
      Value.compareRules r r = some true ∧ Value.compareGrammars g g = some true := by
  intro r g
  have concrete : r.Concrete := .wrap _ (.group _ (by simp))
  have regular : g.Regular := {
    again := rfl
    rules := by simpa [g] using concrete
    extras := by simp [g], externals := by simp [g], conflicts := by simp [g]
    precedences := by simpa [g] using Rule.Concrete.symbol _ }
  have finite : g.Finite := {
    again := rfl, rules := rfl, extras := rfl, externals := rfl, inline := rfl, conflicts := rfl
    supertypes := rfl, precedences := rfl, groups := by simp [g, Value.Once] }
  obtain ⟨d, written, back⟩ := schema_roundTrip.1 r (.step 0) concrete
  obtain ⟨e, h, written', back'⟩ := schema_roundTrip.2.1 g (.step 0) (.step 1) regular
  refine ⟨⟨d, written, back⟩, ⟨e, h, written', back'⟩, ?_, ?_⟩
  · refine (schema_roundTrip.2.2.1 r r _ _ d d concrete concrete written written).2 ?_
    cases written
    simp [Rule.compare_node, Value.compare, Value.compareLists, Value.compareItems]
  · refine (schema_roundTrip.2.2.2 g g _ _ e e regular regular written' written').2 finite finite ?_
    cases written'
    simp [Grammar.documentEntries, Value.compare, Value.compareMappings_eq_true,
      Value.compareLists, Value.compareItems, Rule.compare_node]

end GrammarDoc
