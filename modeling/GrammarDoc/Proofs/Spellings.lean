import GrammarDoc.Assembly
import GrammarDoc.Proofs.Build.Likewise
import GrammarDoc.Proofs.Build.Sections
import GrammarDoc.Proofs.Presence

/-!
# Spellings of a reference

A rule may be referred to by a symbol or by a function of its name, and in a list of names also by
the name itself. Wherever a reference is expected, it makes no difference how it is spelled.
-/

namespace GrammarDoc

open Build (Likewise)

variable {Code : Type}

/-! ### Values that refer to a rule -/

namespace Value

/-- Whether a value is the symbol of a name or a function of that name. -/
inductive StandsFor (name : String) : Value Code → Prop
  | symbol : StandsFor name (.symbol (.string name))
  | callable {f : Callable (Value Code) Code} : f.name = some name → StandsFor name (.callable f)

/-- Whether a value is a name, the symbol of it or a function of that name. -/
inductive Names (name : String) : Value Code → Prop
  | string : Names name (.string name)
  | standsFor {v : Value Code} : v.StandsFor name → Names name v

/-- Two values that are the same where a rule is wanted: they are the same, or both stand for the
same name, which has the form of one. -/
inductive SameRule : Value Code → Value Code → Prop
  | refl (v : Value Code) : SameRule v v
  | reference {name : String} {v w : Value Code} : Text.isIdentifier name = true →
      v.StandsFor name → w.StandsFor name → SameRule v w

/-- Two values that are the same where a name is wanted: they are the same, or both give the same
name, whether it has the form of one or not. -/
inductive SameName : Value Code → Value Code → Prop
  | refl (v : Value Code) : SameName v v
  | reference {name : String} {v w : Value Code} : v.Names name → w.Names name → SameName v w

/-- Two values that are the same, or are arrays of which each two items are in a relation. -/
inductive SameItems (R : Value Code → Value Code → Prop) : Value Code → Value Code → Prop
  | refl (v : Value Code) : SameItems R v v
  | items {v w : Value Code} {vs ws : List (Value Code)} : v.array? = some vs → w.array? = some ws →
      List.Forall₂ R vs ws → SameItems R v w

variable {name : String} {v w : Value Code}

/-- What stands for a proper name is a symbol where a rule is wanted. -/
theorem StandsFor.toRule_eq (valid : Text.isIdentifier name = true) (h : v.StandsFor name) :
    v.toRule = .ok (.symbol (.string name)) := by
  cases h with
  | symbol => rfl
  | callable named => simp [toRule, named, valid]

/-- What stands for a proper name gives the name of a node where the target of an alias is
wanted. -/
theorem StandsFor.aliasTarget_eq (valid : Text.isIdentifier name = true) (h : v.StandsFor name) :
    Rule.aliasTarget v = .ok (true, .string name) := by
  cases h with
  | symbol => rfl
  | callable named => simp [Rule.aliasTarget, named, valid]

/-- What gives a name gives it in a list of names. -/
theorem Names.nameOf_eq (h : v.Names name) : v.nameOf = .string name := by
  rcases h with _ | (_ | named)
  · rfl
  · rfl
  · simp [nameOf, named]

private theorem Names.isAlias_eq (h : v.Names name) : GrammarDoc.Names.isAlias v = false := by
  rcases h with _ | (_ | _) <;> rfl

/-- A function that gives a name has that name. -/
theorem Names.name_eq {f : Callable (Value Code) Code} (h : v.Names name)
    (callable : v.callable? = some f) : f.name = some name := by
  rcases h with _ | (_ | named)
  · cases callable
  · cases callable
  · cases callable
    exact named

/-- What gives a name is always the same. -/
theorem Names.present_eq (h : v.Names name) (store : Store Code) : store.present v = v := by
  rcases h with _ | _ | _
  · exact (store.present_eq_string _ _).2 rfl
  · obtain same | ⟨new, eq, -⟩ := store.present_cases
    · simp [same]
    · simp [eq, symbol, replaced, replacedRule]
  · exact store.present_callable _

/-- Values that are the same where a rule is wanted are so at any time. -/
theorem SameRule.present (h : v.SameRule w) (store : Store Code) :
    (store.present v).SameRule (store.present w) := by
  cases h with
  | refl => exact .refl _
  | reference valid first second =>
    rw [(Names.standsFor first).present_eq, (Names.standsFor second).present_eq]
    exact .reference valid first second

/-- How a rule is spelled makes no difference to the rule. -/
theorem SameRule.toRule_eq (h : v.SameRule w) : v.toRule = w.toRule := by
  cases h with
  | refl => rfl
  | reference valid first second => rw [first.toRule_eq valid, second.toRule_eq valid]

/-- How the target of an alias is spelled makes no difference to it. -/
theorem SameRule.aliasTarget_eq (h : v.SameRule w) : Rule.aliasTarget v = Rule.aliasTarget w := by
  cases h with
  | refl => rfl
  | reference valid first second => rw [first.aliasTarget_eq valid, second.aliasTarget_eq valid]

/-- How a name is spelled makes no difference to it. -/
theorem SameName.nameOf_eq (h : v.SameName w) : v.nameOf = w.nameOf := by
  cases h with
  | refl => rfl
  | reference first second => rw [first.nameOf_eq, second.nameOf_eq]

/-- However a name is spelled, it is no alias. -/
theorem SameName.isAlias_eq (h : v.SameName w) :
    GrammarDoc.Names.isAlias v = GrammarDoc.Names.isAlias w := by
  cases h with
  | refl => rfl
  | reference first second => rw [first.isAlias_eq, second.isAlias_eq]

end Value

/-! ### Sections of references -/

section

variable {α β γ : Type} {R : Value Code → Value Code → Prop} {v w : Value Code}

/-- Going through items comes to the same if it does for each two of them. -/
theorem Build.filterMap_congr {T : α → β → Prop} {step₁ : α → Build Code (Option γ)}
    {step₂ : β → Build Code (Option γ)} {items₁ : List α} {items₂ : List β}
    (h : ∀ a b, T a b → step₁ a = step₂ b) (items : List.Forall₂ T items₁ items₂) :
    filterMap step₁ items₁ = filterMap step₂ items₂ := by
  induction items with
  | nil => rfl
  | cons head _ ih => rw [filterMap, filterMap, h _ _ head, ih]

private theorem forall₂_zipIdx {T : α → β → Prop} {items₁ : List α} {items₂ : List β}
    (items : List.Forall₂ T items₁ items₂) (n : Nat) :
    List.Forall₂ (fun a b ↦ T a.1 b.1 ∧ a.2 = b.2) (items₁.zipIdx n) (items₂.zipIdx n) := by
  induction items generalizing n with
  | nil => exact .nil
  | cons head _ ih => exact .cons ⟨head, rfl⟩ (ih (n + 1))

private theorem Build.filterMapIdx_congr {T : α → β → Prop}
    {step₁ : Nat → α → Build Code (Option γ)}
    {step₂ : Nat → β → Build Code (Option γ)} {items₁ : List α} {items₂ : List β}
    (h : ∀ i a b, T a b → step₁ i a = step₂ i b) (items : List.Forall₂ T items₁ items₂) :
    filterMapIdx step₁ items₁ = filterMapIdx step₂ items₂ := by
  refine filterMap_congr ?_ (forall₂_zipIdx items 0)
  rintro ⟨a, i⟩ ⟨b, _⟩ ⟨related, rfl⟩
  exact h i a b related

/-- A section of items does the same for values with the same items, if its handler does for lists
of which each two items are in a relation. -/
theorem guarded_congr {title : String} {fallback other : α}
    {handler : List (Value Code) → Build Code α}
    (h : ∀ vs ws, List.Forall₂ R vs ws → handler vs = handler ws) (same : v.SameItems R w) :
    guarded pure [⟨.present, fallback⟩, ⟨.array title, other⟩]
        (fun v ↦ handler (v.array?.getD [])) v =
      guarded pure [⟨.present, fallback⟩, ⟨.array title, other⟩]
        (fun v ↦ handler (v.array?.getD [])) w := by
  cases same with
  | refl => rfl
  | items first second related =>
    rw [Build.guarded_of_array handler first, Build.guarded_of_array handler second]
    exact h _ _ related

/-- How inline names are spelled makes no difference. -/
theorem Names.validateInline_congr (same : v.SameItems Value.SameName w) :
    validateInline v = validateInline w := by
  refine guarded_congr (fun vs ws ↦ Build.filterMap_congr fun v w same ↦ ?_) same
  rw [inlineName, inlineName, same.nameOf_eq]

/-- How supertypes are spelled makes no difference. -/
theorem Names.validateSupertypes_congr (same : v.SameItems Value.SameName w) :
    validateSupertypes v = validateSupertypes w := by
  refine guarded_congr (fun vs ws ↦ Build.filterMap_congr fun v w same ↦ ?_) same
  cases same with
  | refl => rfl
  | reference first second =>
    rw [supertype, supertype, first.isAlias_eq, second.isAlias_eq, first.nameOf_eq,
      second.nameOf_eq]
    rfl

/-- What gives a name as the word gives it as the name itself does. -/
theorem Names.validateWord_eq {name : String} (h : v.Names name) :
    validateWord v = validateWord (.string name) := by
  rcases h with _ | (_ | named)
  · rfl
  · rfl
  · simp only [validateWord, Value.nameOf, named]

/-- How the word is spelled makes no difference. -/
theorem Names.validateWord_congr (same : v.SameName w) : validateWord v = validateWord w := by
  cases same with
  | refl => rfl
  | reference first second => rw [validateWord_eq first, validateWord_eq second]

/-- How references in extras are spelled makes no difference. -/
theorem Extras.validate_congr {references : Bool} (same : v.SameItems Value.SameRule w) :
    validate references v = validate references w := by
  refine guarded_congr (fun vs ws ↦ Build.filterMap_congr fun v w same ↦ ?_) same
  rw [fromItem, fromItem, Build.normalize, Build.normalize, same.toRule_eq]

/-- How a reference in a group of precedences is spelled makes no difference. -/
theorem Precedences.fromItem_congr (group entry : Nat) (same : v.SameRule w) :
    fromItem group entry v = fromItem group entry w := by
  cases same with
  | refl => rfl
  | reference valid first second =>
    rw [fromItem, fromItem, Build.normalize, Build.normalize, first.toRule_eq valid,
      second.toRule_eq valid]
    rfl

/-- How references in precedences are spelled makes no difference. -/
theorem Precedences.validate_congr (same : v.SameItems (Value.SameItems Value.SameRule) w) :
    validate v = validate w := by
  refine guarded_congr (fun vs ws ↦ Build.filterMapIdx_congr fun i v w same ↦ ?_) same
  cases same with
  | refl => rfl
  | @items _ vs ws first second related =>
    have group : Build.filterMapIdx (fromItem i) vs = Build.filterMapIdx (fromItem i) ws :=
      Build.filterMapIdx_congr (fun j _ _ same ↦ fromItem_congr i j same) related
    rw [fromGroup, fromGroup, first, second]
    dsimp only
    rw [group]

end

/-! ### Conflicts and mappings of externals -/

/-- Two causes that are the same, but for the group as it is given that is kept with a conflict that
is too short. -/
inductive Cause.SameButGroup : Cause Code → Cause Code → Prop
  | refl (cause : Cause Code) : SameButGroup cause cause
  | shortConflict (names : List (Value Code)) (v w : Value Code) :
      SameButGroup (.shortConflict names v) (.shortConflict names w)

/-- Two causes that are the same, but for what is kept as it is given: the group of a conflict that
is too short, an entry of a mapping of externals that has another name, and the rules if there are
none among them. -/
inductive Cause.SameButGiven : Cause Code → Cause Code → Prop
  | refl (cause : Cause Code) : SameButGiven cause cause
  | shortConflict (names : List (Value Code)) (v w : Value Code) :
      SameButGiven (.shortConflict names v) (.shortConflict names w)
  | misnamedExternal (key name v w : Value Code) :
      SameButGiven (.misnamedExternal key name v) (.misnamedExternal key name w)
  | noRules (v w : Value Code) : SameButGiven (.noRules v) (.noRules w)

/-- Causes that only differ in what is kept as it is given are told in the same words. -/
theorem Cause.SameButGiven.message_eq {cause₁ cause₂ : Cause Code}
    (h : SameButGiven cause₁ cause₂) : cause₁.message = cause₂.message := by
  cases h <;> rfl

section

variable {L : Cause Code → Cause Code → Prop} {v w : Value Code}

/-- How the names of a conflict are spelled makes no difference but to the group that is kept with
a problem. -/
theorem Names.likewise_conflict (refl : ∀ cause, L cause cause)
    (short : ∀ names v w, L (.shortConflict names v) (.shortConflict names w))
    (same : v.SameItems Value.SameName w) :
    Likewise L Eq (conflict v) (conflict w) := by
  cases same with
  | refl =>
    have made : Build.MadeOf (fun _ ↦ True) (conflict v) := madeOf_conflict v fun _ ↦ trivial
    exact made.likewise refl
  | @items _ vs ws first second related =>
    have names : Build.filterMap conflictName vs = Build.filterMap conflictName ws := by
      refine Build.filterMap_congr (fun v w same ↦ ?_) related
      rw [conflictName, conflictName, same.nameOf_eq]
    have made : Build.MadeOf (fun _ ↦ True) (Build.filterMap conflictName ws) :=
      .filterMap ws fun entry _ ↦ madeOf_conflictName entry fun _ ↦ trivial
    rw [conflict, conflict, first, second]
    dsimp only
    rw [names]
    refine (made.likewise refl).bind_same fun names ↦ ?_
    split
    · exact (Likewise.reportIn (short names v w)).bind fun _ _ _ ↦ .pure rfl
    · exact .pure rfl

/-- How the names of conflicts are spelled makes no difference but to the groups that are kept with
problems. -/
theorem Names.likewise_validateConflicts (refl : ∀ cause, L cause cause)
    (short : ∀ names v w, L (.shortConflict names v) (.shortConflict names w))
    (same : v.SameItems (Value.SameItems Value.SameName) w) :
    Likewise L Eq (validateConflicts v) (validateConflicts w) := by
  cases same with
  | refl =>
    have made : Build.MadeOf (fun _ ↦ True) (validateConflicts v) :=
      madeOf_validateConflicts v fun _ ↦ trivial
    exact made.likewise refl
  | items first second related =>
    rw [validateConflicts, Build.guarded_of_array (Build.filterMap conflict) first,
      Build.guarded_of_array (Build.filterMap conflict) second]
    exact .filterMap_eq (fun v w same ↦ likewise_conflict refl short same) related

end

/-- Two externals that only differ in how references are spelled: the same value, arrays, or
mappings with the same keys. -/
inductive Externals.Same : Value Code → Value Code → Prop
  | items {v w : Value Code} : v.SameItems Value.SameRule w → Same v w
  | entries {v w : Value Code} {entries₁ entries₂ : List (Value Code × Value Code)} :
      v.object? = some entries₁ → w.object? = some entries₂ →
      List.Forall₂ (fun a b ↦ a.1 = b.1 ∧ a.2.SameRule b.2) entries₁ entries₂ → Same v w

/-- How the reference in an entry of externals is spelled makes no difference but to what is kept
with a problem. -/
theorem Externals.likewise_fromEntry {key v w : Value Code} (same : v.SameRule w) :
    Likewise Cause.SameButGiven Eq (fromEntry (key, v)) (fromEntry (key, w)) := by
  have valid : Build.MadeOf (fun _ ↦ True) (Build.requireValidName "externals" none key) :=
    .requireValidName key rfl fun _ ↦ trivial
  have normal : Build.MadeOf (fun _ ↦ True) (Build.normalize "externals" w) :=
    .normalize w fun _ ↦ trivial
  have declared : Build.MadeOf (fun _ ↦ True) (discard (Build.declare key "externals" none)) :=
    .discard (.declareName rfl (fun _ ↦ trivial) trivial)
  unfold fromEntry
  refine (valid.likewise .refl).bind_same fun valid ↦ ?_
  split
  · have normalizes : Build.normalize "externals" v = Build.normalize "externals" w := by
      rw [Build.normalize, Build.normalize, same.toRule_eq]
    rw [normalizes]
    refine (normal.likewise .refl).bind_same fun result ↦ ?_
    split
    · exact .pure rfl
    · split
      · exact (Likewise.reportIn (.misnamedExternal _ _ v w)).bind fun _ _ _ ↦ .pure rfl
      · exact (declared.likewise .refl).bind fun _ _ _ ↦ .pure rfl
  · exact .pure rfl

/-- How references in externals are spelled makes no difference but to the entry that is kept with a
problem. -/
theorem Externals.likewise_validate {v w : Value Code} (same : Same v w) :
    Likewise Cause.SameButGiven Eq (validate v) (validate w) := by
  have made (v : Value Code) : Build.MadeOf (fun _ ↦ True) (validate v) :=
    madeOf_validate v (fun _ ↦ trivial) fun _ ↦ trivial
  cases same with
  | items same =>
    have congr : validate v = validate w := by
      cases same with
      | refl => rfl
      | items first second related =>
        rw [validate, validate, first, second]
        refine Build.filterMap_congr (fun v w same ↦ ?_) related
        rw [fromItem, fromItem, Build.normalize, Build.normalize, same.toRule_eq]
    rw [congr]
    exact (made w).likewise .refl
  | entries first second related =>
    rw [validate, validate, Value.array?_of_object? first, Value.array?_of_object? second]
    dsimp only
    rw [fromMapping, Build.guarded_of_object (Build.filterMap fromEntry) first,
      Build.guarded_of_object (Build.filterMap fromEntry) second]
    refine .filterMap_eq ?_ related
    rintro ⟨key, v⟩ ⟨_, w⟩ ⟨rfl, same⟩
    exact likewise_fromEntry same

/-! ### Rules that are put together -/

/-- How a rule is put together: a leaf, or a call of a combinator with what stands for its rules. A
leaf also stands for the target of an alias. All that is no rule is given as it is. -/
inductive Combination (Code ι : Type) where
  | leaf (i : ι)
  | grouped (kind : Grouping) (members : List (Combination Code ι))
  | optional (args : List (Combination Code ι))
  | repeated (args : List (Combination Code ι))
  | repeated1 (args : List (Combination Code ι))
  | wrapped (kind : Wrapping) (content : Combination Code ι)
  | named (name : Value Code) (content : Combination Code ι)
  | renamed (content target : Combination Code ι)
  /-- A precedence comes before the rules, with an associativity or without. -/
  | withPrecedence (caller : Combinator) (variant : Precedence) (value : Value Code)
      (args : List (Combination Code ι))
  /-- An associativity, and no precedence. -/
  | associative (caller : Combinator) (variant : Precedence) (content : Combination Code ι)

namespace Combination

variable {ι : Type}

mutual

/-- What a combination comes to, given what is at the leaves. What stands for the rules is put
together first, from left to right. -/
def value (leaves : ι → Value Code) : Combination Code ι → Except (Cause Code) (Value Code)
  | leaf i => return leaves i
  | grouped kind members => do return .rule (← Rule.grouped kind (← values leaves members))
  | optional args => do return .rule (← Rule.optional (← values leaves args))
  | repeated args => do return .rule (← Rule.repeated (← values leaves args))
  | repeated1 args => do return .rule (← Rule.repeated1 (← values leaves args))
  | wrapped kind content => do return .rule (← Rule.wrapped kind (← value leaves content))
  | named name content => do return .rule (← Rule.named name (← value leaves content))
  | renamed content target => do
    let content ← value leaves content
    return .rule (← Rule.renamed content (← value leaves target))
  | withPrecedence caller variant v args => do
    return .rule (← Rule.withPrecedence caller variant v (← values leaves args))
  | associative caller variant content => do
    return .rule (← Rule.associative caller variant [← value leaves content])

/-- What some combinations come to. -/
def values (leaves : ι → Value Code) :
    List (Combination Code ι) → Except (Cause Code) (List (Value Code))
  | [] => return []
  | c :: rest => do return (← value leaves c) :: (← values leaves rest)

end

/-- The rule that a combination stands for, given what is at the leaves. -/
def rule (leaves : ι → Value Code) (c : Combination Code ι) :
    Except (Cause Code) (Rule (Value Code)) := do
  (← c.value leaves).toRule

end Combination

private theorem Value.toRules_congr {vs ws : List (Value Code)}
    (h : List.Forall₂ Value.SameRule vs ws) : toRules vs = toRules ws := by
  induction h with
  | nil => rfl
  | cons head _ ih => rw [toRules, toRules, head.toRule_eq, ih]

namespace Rule

variable {vs ws : List (Value Code)} {v w : Value Code}

/-- What is made of the one rule of a combinator does not depend on how references are spelled, if
it only depends on the rule. -/
theorem theRule_congr {α : Type} {f : Value Code → Except (Cause Code) α}
    (hf : ∀ v w : Value Code, v.SameRule w → f v = f w) (caller : Combinator)
    (h : List.Forall₂ Value.SameRule vs ws) :
    (do f (← caller.theRule vs)) = (do f (← caller.theRule ws)) := by
  rcases h with _ | ⟨head, _ | _⟩
  · rfl
  · exact hf _ _ head
  · rfl

private theorem grouped_congr (kind : Grouping) (h : List.Forall₂ Value.SameRule vs ws) :
    grouped kind vs = grouped kind ws := by
  rw [grouped, grouped, Value.toRules_congr h]

private theorem optional_congr (h : List.Forall₂ Value.SameRule vs ws) :
    optional vs = optional ws :=
  theRule_congr (fun _ _ same ↦ by rw [same.toRule_eq]) .optional h

/-- How what is wrapped is spelled makes no difference to it. -/
theorem wrapped_congr (kind : Wrapping) (h : v.SameRule w) : wrapped kind v = wrapped kind w := by
  rw [wrapped, wrapped, h.toRule_eq]

private theorem repeated_congr (h : List.Forall₂ Value.SameRule vs ws) :
    repeated vs = repeated ws :=
  theRule_congr (fun _ _ ↦ wrapped_congr .repeated) .repeated h

private theorem repeated1_congr (h : List.Forall₂ Value.SameRule vs ws) :
    repeated1 vs = repeated1 ws :=
  theRule_congr (fun _ _ ↦ wrapped_congr .repeated1) .repeated1 h

private theorem named_congr (name : Value Code) (h : v.SameRule w) :
    named name v = named name w := by
  rw [named, named, h.toRule_eq]

private theorem renamed_congr {v' w' : Value Code} (h : v.SameRule w) (h' : v'.SameRule w') :
    renamed v v' = renamed w w' := by
  rw [renamed, renamed, h.toRule_eq, h'.aliasTarget_eq]

private theorem withPrecedence_congr (caller : Combinator) (variant : Precedence)
    (value : Value Code) (h : List.Forall₂ Value.SameRule vs ws) :
    withPrecedence caller variant value vs = withPrecedence caller variant value ws := by
  unfold withPrecedence
  refine bind_congr fun value ↦ ?_
  exact theRule_congr (fun _ _ same ↦ by rw [same.toRule_eq]) caller h

end Rule

namespace Combination

variable {ι : Type} {leaves₁ leaves₂ : ι → Value Code}

private theorem related_rule {outcome₁ outcome₂ : Except (Cause Code) (Rule (Value Code))}
    (h : outcome₁ = outcome₂) :
    Related Eq Value.SameRule (do return Value.rule (← outcome₁))
      (do return Value.rule (← outcome₂)) :=
  h ▸ .refl (fun _ ↦ rfl) .refl _

mutual

/-- How the references at the leaves are spelled makes no difference to what a combination comes to,
unless it is a leaf itself; then that is spelled differently. -/
theorem related_value (same : ∀ i, (leaves₁ i).SameRule (leaves₂ i)) :
    ∀ c : Combination Code ι, Related Eq Value.SameRule (c.value leaves₁) (c.value leaves₂)
  | leaf i => .ok (same i)
  | grouped kind members =>
    (related_values same members).bind fun _ _ h ↦ related_rule (Rule.grouped_congr kind h)
  | optional args =>
    (related_values same args).bind fun _ _ h ↦ related_rule (Rule.optional_congr h)
  | repeated args =>
    (related_values same args).bind fun _ _ h ↦ related_rule (Rule.repeated_congr h)
  | repeated1 args =>
    (related_values same args).bind fun _ _ h ↦ related_rule (Rule.repeated1_congr h)
  | wrapped kind content =>
    (related_value same content).bind fun _ _ h ↦ related_rule (Rule.wrapped_congr kind h)
  | named name content =>
    (related_value same content).bind fun _ _ h ↦ related_rule (Rule.named_congr name h)
  | renamed content target =>
    (related_value same content).bind fun _ _ h ↦ (related_value same target).bind fun _ _ h' ↦
      related_rule (Rule.renamed_congr h h')
  | withPrecedence caller variant v args =>
    (related_values same args).bind fun _ _ h ↦
      related_rule (Rule.withPrecedence_congr caller variant v h)
  | associative caller variant content =>
    (related_value same content).bind fun _ _ h ↦
      related_rule (Rule.withPrecedence_congr caller variant _ (.cons h .nil))

private theorem related_values (same : ∀ i, (leaves₁ i).SameRule (leaves₂ i)) :
    ∀ cs : List (Combination Code ι),
      Related Eq (List.Forall₂ Value.SameRule) (values leaves₁ cs) (values leaves₂ cs)
  | [] => .ok .nil
  | c :: rest =>
    (related_value same c).bind fun _ _ h ↦ (related_values same rest).bind fun _ _ h' ↦
      .ok (.cons h h')

end

/-- How the references at the leaves are spelled makes no difference to the rule that a combination
stands for. -/
theorem rule_congr (same : ∀ i, (leaves₁ i).SameRule (leaves₂ i)) (c : Combination Code ι) :
    c.rule leaves₁ = c.rule leaves₂ :=
  (related_value same c).bind_eq fun _ _ same ↦ same.toRule_eq

end Combination

end GrammarDoc
