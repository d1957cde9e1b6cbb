import GrammarDoc.Value.Basic

/-!
# Equality of values

Numbers are equal across their kinds, mappings are equal in any order, and a callable, a builder
or a bare node equals itself only. A value that stands inside of itself equals itself, and a
comparison with another such value may have no end. Values that contain a mapping or a list, which
may change, cannot be looked up in a namespace.
-/

namespace GrammarDoc

/-- What a comparison finds, if it ends. -/
abbrev Verdict := Option Bool

/-- Whether two comparisons both find equality; the second is only made if the first has. -/
@[macro_inline]
def Verdict.both (first second : Verdict) : Verdict :=
  match first with
  | some true => second
  | verdict => verdict

namespace Value

variable {Code : Type}

/-- The integer that a number or a truth value equals, if it equals one. -/
def integer? : Value Code → Option Int
  | bool b => some (if b then 1 else 0)
  | int i => some i
  | double x => x.toInt?
  | _ => none

/-- Equality of numbers and truth values: two doubles by their own rule, others as integers. -/
def sameNumber (a b : Value Code) : Bool :=
  match a, b with
  | double x, double y => x = y || x.eq y
  | a, b => match a.integer?, b.integer? with
    | some i, some j => i == j
    | _, _ => false

/-- Equality of two collections, of which one stands inside of itself: they are equal if they are
one and the same, and cannot be if they differ in length. -/
def sameAgain (a b : Place) (differ : Bool) : Verdict :=
  if a = b then some true else if differ then some false else none

mutual

/-- Whether two values are one and the same or equal. -/
def compare : Value Code → Value Code → Verdict
  | missing, missing => some true
  | bool a, b => some (sameNumber (bool a) b)
  | int a, b => some (sameNumber (int a) b)
  | double a, b => some (sameNumber (double a) b)
  | string a, string b => some (a == b)
  | list as, list bs => compareLists as bs
  | tuple as, tuple bs => compareItems as bs
  | mapping as, mapping bs => compareMappings as bs
  | pattern a, pattern b => some (a = b)
  | callable a, callable b => some (a.place = b.place)
  | builder a, builder b => some (a = b)
  | rule a, rule b => compareRules a b
  | grammar a, grammar b => compareGrammars a b
  | references a, references b => some (a.place = b.place)
  | _, _ => some false

/-- Equality of lists. -/
def compareLists : Items (Value Code) → Items (Value Code) → Verdict
  | ⟨place, as, again⟩, bs =>
    let differ := as.length != bs.toList.length
    if again || bs.again then sameAgain place bs.place differ
    else if differ then some false
    else compareItems as bs.toList

/-- Equality item by item. -/
def compareItems : List (Value Code) → List (Value Code) → Verdict
  | [], [] => some true
  | a :: as, b :: bs => (compare a b).both (compareItems as bs)
  | _, _ => some false

/-- Equality of mappings. -/
def compareMappings : Entries (Value Code) → Entries (Value Code) → Verdict
  | ⟨place, as, again⟩, bs =>
    let differ := as.length != bs.toList.length
    if again || bs.again then sameAgain place bs.place differ
    else if differ then some false
    else compareEntries as bs.toList

/-- Whether each entry of the first list is among those of the second. -/
def compareEntries : List (Value Code × Value Code) → List (Value Code × Value Code) → Verdict
  | [], _ => some true
  | (key, v) :: rest, other =>
    match other.find? fun entry ↦ compare key entry.1 == some true with
    | none => some false
    | some entry => (compare v entry.2).both (compareEntries rest other)

/-- Equality node by node. -/
def compareRules : Rule (Value Code) → Rule (Value Code) → Verdict
  | .bare a, .bare b => some (a = b)
  | .string a, .string b => compare a b
  | .pattern a, .pattern b => compare a b
  | .blank, .blank => some true
  | .symbol a, .symbol b => compare a b
  | .group k as, .group l bs => if k = l then compareMembers as bs else some false
  | .wrap k a, .wrap l b => if k = l then compareRules a b else some false
  | .prec k v a, .prec l w b =>
    (compare v w).both ((compareRules a b).both (some (k = l)))
  | .field v a, .field w b => (compare v w).both (compareRules a b)
  | .aliased a n v, .aliased b m w =>
    (compareRules a b).both (Verdict.both (some (n == m)) (compare v w))
  | _, _ => some false

/-- Equality rule by rule. -/
def compareMembers : List (Rule (Value Code)) → List (Rule (Value Code)) → Verdict
  | [], [] => some true
  | a :: as, b :: bs => (compareRules a b).both (compareMembers as bs)
  | _, _ => some false

/-- Equality part by part; the order of the rules does not count. -/
def compareGrammars : Grammar (Value Code) → Grammar (Value Code) → Verdict
  | ⟨place, name, rules, extras, externals, inline, conflicts, word, supertypes, precedences,
      again⟩, g =>
    if again || g.again then sameAgain place g.place false
    else (compare name g.name).both <| (compareMappings rules g.rules).both <|
      (compareLists extras g.extras).both <| (compareLists externals g.externals).both <|
      (compareLists inline g.inline).both <| (compareLists conflicts g.conflicts).both <|
      (compare word g.word).both <| (compareLists supertypes g.supertypes).both <|
      compareLists precedences g.precedences

end

/-- Whether two values are one and the same or equal. -/
def same (a b : Value Code) : Bool := a.compare b == some true

/-- Equality as a description asks for it: as by `compare`, but what is no number does not equal
itself. -/
def eq? (a b : Value Code) : Verdict :=
  match a, b with
  | double x, double y => some (x.eq y)
  | a, b => a.compare b

mutual

/-- Whether a value may be looked up in a namespace: no list, mapping or grammar is part of it. -/
def canBeKey : Value Code → Bool
  | list _ | mapping _ | grammar _ => false
  | tuple items => allCanBeKeys items
  | rule r => ruleCanBeKey r
  | _ => true

/-- Whether all items may be looked up. -/
def allCanBeKeys : List (Value Code) → Bool
  | [] => true
  | v :: rest => canBeKey v && allCanBeKeys rest

/-- Whether all scalars of a rule may be looked up. -/
def ruleCanBeKey : Rule (Value Code) → Bool
  | .bare _ | .blank => true
  | .string v | .pattern v | .symbol v => canBeKey v
  | .group _ members => allRulesCanBeKeys members
  | .wrap _ content => ruleCanBeKey content
  | .prec _ v content | .field v content | .aliased content _ v =>
    canBeKey v && ruleCanBeKey content

/-- Whether all scalars of some rules may be looked up. -/
def allRulesCanBeKeys : List (Rule (Value Code)) → Bool
  | [] => true
  | r :: rest => ruleCanBeKey r && allRulesCanBeKeys rest

end

/-- Whether an equal value is among those given. -/
def isIn (v : Value Code) (values : List (Value Code)) : Bool := values.any (same v)

/-- The values without those that equal an earlier one. -/
def distinct (values : List (Value Code)) : List (Value Code) :=
  values.foldl (fun found v ↦ if v.isIn found then found else found ++ [v]) []

end Value

end GrammarDoc
