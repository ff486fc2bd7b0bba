import Marginalia.Outline.Build
import Mathlib.Data.List.InsertIdx

/-!
# Comments in concrete syntax

A grammar may put a comment among the children of any node. The outline reads
children by field, by type or out of a list of the named ones, and a comment is
none of those it looks for. In two places it counts named children: the fields
of a tuple structure, and the one child of a statement that is a macro
invocation. A comment that is put there changes the outline, and one that is
put anywhere else does not.
-/

namespace Marginalia

section

variable {α β : Type} {l : List α}

theorem exists_append_of_insertIdx {k : Nat} (h : k ≤ l.length) (a : α) :
    ∃ front back, l = front ++ back ∧ l.insertIdx k a = front ++ a :: back := by
  obtain ⟨front, back, hl, -, hk⟩ := List.exists_of_modifyTailIdx (List.cons a) h
  exact ⟨front, back, hl, hk⟩

theorem find?_insertIdx {test : α → Bool} {a : α} (ha : test a = false) (k : Nat) :
    (l.insertIdx k a).find? test = l.find? test := by
  by_cases h : k ≤ l.length
  · obtain ⟨front, back, hl, hk⟩ := exists_append_of_insertIdx h a
    rw [hk, hl, List.find?_append, List.find?_append, List.find?_cons_of_neg (by simp [ha])]
  · rw [List.insertIdx_of_length_lt (Nat.lt_of_not_le h)]

theorem filter_insertIdx {test : α → Bool} {a : α} (ha : test a = false) (k : Nat) :
    (l.insertIdx k a).filter test = l.filter test := by
  by_cases h : k ≤ l.length
  · obtain ⟨front, back, hl, hk⟩ := exists_append_of_insertIdx h a
    rw [hk, hl, List.filter_append, List.filter_append, List.filter_cons_of_neg (by simp [ha])]
  · rw [List.insertIdx_of_length_lt (Nat.lt_of_not_le h)]

theorem map_modify {change : α → α} {f : α → β} (h : ∀ a, f (change a) = f a) (i : Nat) :
    (l.modify i change).map f = l.map f := by
  apply List.ext_getElem?
  intro j
  rw [List.getElem?_map, List.getElem?_map, List.getElem?_modify]
  split_ifs with hij
  · cases l[j]? with
    | none => rfl
    | some a => simp [h]
  · cases l[j]? <;> rfl

theorem map_find?_congr {test : α → Bool} {f : α → β} {l l' : List α}
    (h : l'.map (fun a => (test a, f a)) = l.map fun a => (test a, f a)) :
    (l'.find? test).map f = (l.find? test).map f := by
  have hvalues : ∀ l : List α, (l.find? test).map f =
      ((l.map fun a => (test a, f a)).find? Prod.fst).map Prod.snd := by
    intro l
    rw [List.find?_map, Option.map_map]
    rfl
  rw [hvalues, h, ← hvalues]

theorem map_filter_congr {test : α → Bool} {f : α → β} {l l' : List α}
    (h : l'.map (fun a => (test a, f a)) = l.map fun a => (test a, f a)) :
    (l'.filter test).map f = (l.filter test).map f := by
  have hvalues : ∀ l : List α, (l.filter test).map f =
      ((l.map fun a => (test a, f a)).filter Prod.fst).map Prod.snd := by
    intro l
    rw [List.filter_map, List.map_map]
    rfl
  rw [hvalues, h, ← hvalues]

theorem find?_modify {test : α → Bool} {change : α → α} (h : ∀ a, test (change a) = test a)
    (i : Nat) :
    (l.modify i change).find? test =
      if l.findIdx? test = some i then (l.find? test).map change else l.find? test := by
  induction l generalizing i with
  | nil => simp
  | cons a l ih =>
    cases i with
    | zero =>
      cases ha : test a with
      | true => simp [List.modify_cons, List.findIdx?_cons, h, ha]
      | false => simp [List.modify_cons, List.findIdx?_cons, h, ha]
    | succ i =>
      cases ha : test a with
      | true => simp [List.findIdx?_cons, ha]
      | false => simp [List.findIdx?_cons, ha, ih]

theorem filterMap_replace_iff {f : α → Option β} {front back : List α} {a b : α} :
    (front ++ b :: back).filterMap f = (front ++ a :: back).filterMap f ↔ f b = f a := by
  rw [List.filterMap_append, List.filterMap_append, List.append_cancel_left_eq]
  cases ha : f a <;> cases hb : f b <;> simp [ha, hb]

end

namespace Grammar
namespace Node

def withChildren (children : List Node) : Node → Node
  | mk type text start stop _ isNamed field hasError isMissing =>
    mk type text start stop children isNamed field hasError isMissing

@[simp] theorem children_withChildren (children : List Node) (n : Node) :
    (n.withChildren children).children = children := by
  cases n
  rfl

/-- A node as it is without its children. -/
def face (n : Node) : Node := n.withChildren []

theorem face_withChildren (children : List Node) (n : Node) :
    (n.withChildren children).face = n.face := by
  cases n
  rfl

/-- The descendant of a node that a path of indices of children leads to. -/
def descendant? : List Nat → Node → Option Node
  | [], n => some n
  | i :: path, n => n.children[i]?.bind (descendant? path)

/-- Inserts a node at an index among the children of the descendant that a path leads to. -/
def insertInto (c : Node) (k : Nat) : List Nat → Node → Node
  | [], n => n.withChildren (n.children.insertIdx k c)
  | i :: path, n => n.withChildren (n.children.modify i (insertInto c k path))

/-- A comment of a grammar: it is named, and no field holds it. -/
structure IsComment (c : Node) : Prop where
  type : c.type = "line_comment" ∨ c.type = "block_comment"
  isNamed : c.isNamed = true
  field : c.field = none

/-- A reading of nodes that does not see what is inserted below them. -/
def Ignores {α : Type} (c : Node) (f : Node → α) : Prop :=
  ∀ k path n, f (c.insertInto k path n) = f n

section

variable {α β : Type} {c : Node}

theorem face_insertInto (c : Node) (k : Nat) (path : List Nat) (n : Node) :
    (c.insertInto k path n).face = n.face := by
  cases path <;> exact face_withChildren _ n

theorem ignores_of_face {f : Node → α} (h : ∀ n, f n.face = f n) : Ignores c f := by
  intro k path n
  rw [← h, face_insertInto, h]

theorem ignores_type : Ignores c type := ignores_of_face fun n => by cases n; rfl

theorem ignores_text : Ignores c text := ignores_of_face fun n => by cases n; rfl

theorem ignores_isNamed : Ignores c isNamed := ignores_of_face fun n => by cases n; rfl

theorem ignores_field : Ignores c field := ignores_of_face fun n => by cases n; rfl

theorem Ignores.prod {f : Node → α} {g : Node → β} (hf : Ignores c f) (hg : Ignores c g) :
    Ignores c fun n => (f n, g n) :=
  fun k path n => Prod.ext (hf k path n) (hg k path n)

theorem Ignores.comp {f : Node → α} (hf : Ignores c f) (g : α → β) : Ignores c fun n => g (f n) :=
  fun k path n => congrArg g (hf k path n)

/-- Below a child, an insertion is not seen by what is ignored in the children. -/
theorem map_children_insertInto {f : Node → α} (hf : Ignores c f) (k i : Nat) (path : List Nat)
    (n : Node) : (c.insertInto k (i :: path) n).children.map f = n.children.map f := by
  rw [insertInto, children_withChildren, map_modify (hf k path)]

theorem ignores_find? {test : Node → Bool} (htest : Ignores c test) (hc : test c = false)
    {f : Node → α} (hf : Ignores c f) : Ignores c fun n => (n.children.find? test).map f := by
  intro k path n
  cases path with
  | nil =>
    dsimp only
    rw [insertInto, children_withChildren, find?_insertIdx hc]
  | cons i path => exact map_find?_congr (map_children_insertInto (htest.prod hf) k i path n)

theorem namedChildren_filter (n : Node) (test : Node → Bool) :
    n.namedChildren.filter test = n.children.filter fun c => test c && c.isNamed := by
  rw [namedChildren, List.filter_filter]

theorem map_filter_insertInto_cons {test : Node → Bool} (htest : Ignores c test) {f : Node → α}
    (hf : Ignores c f) (k i : Nat) (path : List Nat) (n : Node) :
    ((c.insertInto k (i :: path) n).namedChildren.filter test).map f =
      (n.namedChildren.filter test).map f := by
  have hboth : Ignores c fun n => test n && n.isNamed :=
    (htest.prod ignores_isNamed).comp fun p => p.1 && p.2
  rw [namedChildren_filter, namedChildren_filter]
  exact map_filter_congr (map_children_insertInto (hboth.prod hf) k i path n)

theorem ignores_filter {test : Node → Bool} (htest : Ignores c test) (hc : test c = false)
    {f : Node → α} (hf : Ignores c f) :
    Ignores c fun n => (n.namedChildren.filter test).map f := by
  intro k path n
  cases path with
  | nil =>
    dsimp only
    rw [namedChildren_filter, namedChildren_filter, insertInto, children_withChildren,
      filter_insertIdx (by simp [hc])]
  | cons i path => exact map_filter_insertInto_cons htest hf k i path n

theorem IsComment.ignores_child? (hc : c.IsComment) {f : Node → α} (hf : Ignores c f)
    (name : String) : Ignores c fun n => (n.child? name).map f :=
  ignores_find? (ignores_field.comp (· == some name)) (by simp [hc.field]) hf

theorem IsComment.type_ne (hc : c.IsComment) {type : String}
    (h : type ∉ ["line_comment", "block_comment"]) : c.type ≠ type := by
  rintro rfl
  simp only [List.mem_cons, List.not_mem_nil, or_false] at h
  exact h hc.type

theorem IsComment.ignores_childOfType? (hc : c.IsComment) {f : Node → α} (hf : Ignores c f)
    {type : String} (htype : type ∉ ["line_comment", "block_comment"]) :
    Ignores c fun n => (n.childOfType? type).map f :=
  ignores_find? (ignores_type.comp (· == type)) (by simpa using hc.type_ne htype) hf

theorem IsComment.ignores_fieldText (hc : c.IsComment) (name : String) :
    Ignores c fun n => n.fieldText name :=
  (hc.ignores_child? ignores_text name).comp (·.getD "")

end

end Node
end Grammar

namespace Outline

open Grammar (Node)
open Grammar.Node

section

variable {c : Node}

theorem ignores_spanOf (index : LineIndex) : Ignores c (spanOf index) :=
  ignores_of_face fun n => by cases n; rfl

theorem ignores_site (hc : c.IsComment) (index : LineIndex) (name : String) :
    Ignores c fun n => siteOf index (n.child? name) :=
  (hc.ignores_child? (ignores_spanOf index) name).comp Site.bare

theorem ignores_keyword (hc : c.IsComment) (index : LineIndex) {type : String}
    (htype : type ∉ ["line_comment", "block_comment"]) :
    Ignores c fun n => siteOf index (n.childOfType? type) :=
  (hc.ignores_childOfType? (ignores_spanOf index) htype).comp Site.bare

theorem ignores_hasChild (hc : c.IsComment) (name : String) :
    Ignores c fun n => (n.child? name).isNone := by
  have h := (hc.ignores_child? ignores_text name).comp Option.isNone
  simpa only [Option.isNone_map] using h

theorem ignores_hasChildOfType (hc : c.IsComment) {type : String}
    (htype : type ∉ ["line_comment", "block_comment"]) :
    Ignores c fun n => (n.childOfType? type).isSome := by
  have h := (hc.ignores_childOfType? ignores_text htype).comp Option.isSome
  simpa only [Option.isSome_map] using h

theorem ignores_isAsync (hc : c.IsComment) : Ignores c isAsync := by
  have hmodifiers : Ignores c fun n => (n.childOfType? "function_modifiers").map text :=
    hc.ignores_childOfType? ignores_text (by decide)
  have h := hmodifiers.comp fun o => o.any fun text =>
    (Text.words text.toList).contains "async".toList
  simp only [Option.any_map] at h
  exact h

theorem ignores_abiOf (hc : c.IsComment) : Ignores c abiOf := by
  have hmodifier : Ignores c fun n => (n.childOfType? "extern_modifier").map text :=
    hc.ignores_childOfType? ignores_text (by decide)
  have h := hmodifier.comp fun o => o.bind fun text => (quotedPart? text.toList).map String.ofList
  simp only [Option.bind_map] at h
  exact h

def paramsIn (list : Node) : List String :=
  (list.namedChildren.filter fun p => parameterTypes.contains p.type).map fun p =>
    ((p.child? "pattern").map Node.text).getD p.text

theorem paramsOf_eq (n : Node) :
    paramsOf n = ((n.child? "parameters").map paramsIn).getD [] := by
  unfold paramsOf
  cases n.child? "parameters" <;> rfl

theorem ignores_paramsOf (hc : c.IsComment) : Ignores c paramsOf := by
  have hpattern : Ignores c fun p => ((p.child? "pattern").map Node.text).getD p.text :=
    ((hc.ignores_child? ignores_text "pattern").prod ignores_text).comp fun r => r.1.getD r.2
  have htest : parameterTypes.contains c.type = false := by
    rcases hc.type with h | h <;> rw [h] <;> decide
  have hin : Ignores c paramsIn :=
    ignores_filter (ignores_type.comp parameterTypes.contains) htest hpattern
  have h := (hc.ignores_child? hin "parameters").comp (·.getD [])
  simpa only [← paramsOf_eq] using h

def namesIn (type : String) (body : Node) : List String :=
  (body.namedChildren.filter fun c => c.type == type).map fun c => c.fieldText "name"

theorem ignores_namesIn (hc : c.IsComment) {type : String}
    (htype : type ∉ ["line_comment", "block_comment"]) : Ignores c (namesIn type) :=
  ignores_filter (ignores_type.comp (· == type)) (by simpa using hc.type_ne htype)
    (hc.ignores_fieldText "name")

theorem variantsOf_eq (n : Node) :
    variantsOf n = ((n.child? "body").map (namesIn "enum_variant")).getD [] := by
  unfold variantsOf
  cases n.child? "body" <;> rfl

theorem ignores_variantsOf (hc : c.IsComment) : Ignores c variantsOf := by
  have hin : Ignores c (namesIn "enum_variant") := ignores_namesIn hc (by decide)
  have h := (hc.ignores_child? hin "body").comp (·.getD [])
  simpa only [← variantsOf_eq] using h

/-- A named child of a tuple that counts as a field. -/
def isTupleField (c : Node) : Bool := c.type != "visibility_modifier" && c.type != "attribute_item"

def tupleFields (body : Node) : List Node := body.namedChildren.filter isTupleField

def fieldsIn (body : Node) : List String :=
  if body.type == "field_declaration_list" then namesIn "field_declaration" body
  else (List.range (tupleFields body).length).map toString

theorem fieldsOf_eq (n : Node) : fieldsOf n = ((n.child? "body").map fieldsIn).getD [] := by
  unfold fieldsOf
  cases n.child? "body" <;> rfl

def statementItem (n : Node) : Item :=
  match n.namedChildren with
  | [inner] =>
    if inner.type == "macro_invocation" then .macroItem (inner.fieldText "macro")
    else .verbatim n.text
  | _ => .verbatim n.text

/-- Two nodes that become the same item, unless one of their lists of children is counted. -/
structure ReadAlike (index : LineIndex) (n n' : Node) : Prop where
  type : n'.type = n.type
  text : n'.text = n.text
  fieldText : ∀ name, n'.fieldText name = n.fieldText name
  traitName : (n'.child? "trait").map Node.text = (n.child? "trait").map Node.text
  isExternal : (n'.child? "body").isNone = (n.child? "body").isNone
  isPublic : isPublic n' = isPublic n
  isMutable : (n'.childOfType? "mutable_specifier").isSome =
    (n.childOfType? "mutable_specifier").isSome
  isAsync : isAsync n' = isAsync n
  abiOf : abiOf n' = abiOf n
  paramsOf : paramsOf n' = paramsOf n
  variantsOf : variantsOf n' = variantsOf n
  site : ∀ name, siteOf index (n'.child? name) = siteOf index (n.child? name)
  implKeyword : siteOf index (n'.childOfType? "impl") = siteOf index (n.childOfType? "impl")
  useKeyword : siteOf index (n'.childOfType? "use") = siteOf index (n.childOfType? "use")

theorem readAlike_insertInto (hc : c.IsComment) (index : LineIndex) (k : Nat) (path : List Nat)
    (n : Node) : ReadAlike index n (c.insertInto k path n) where
  type := ignores_type k path n
  text := ignores_text k path n
  fieldText := fun name => hc.ignores_fieldText name k path n
  traitName := hc.ignores_child? ignores_text "trait" k path n
  isExternal := ignores_hasChild hc "body" k path n
  isPublic := ignores_hasChildOfType hc (by decide) k path n
  isMutable := ignores_hasChildOfType hc (by decide) k path n
  isAsync := ignores_isAsync hc k path n
  abiOf := ignores_abiOf hc k path n
  paramsOf := ignores_paramsOf hc k path n
  variantsOf := ignores_variantsOf hc k path n
  site := fun name => ignores_site hc index name k path n
  implKeyword := ignores_keyword hc index (by decide) k path n
  useKeyword := ignores_keyword hc index (by decide) k path n

theorem ofNode?_congr {index : LineIndex} {n n' : Node} (h : ReadAlike index n n')
    (hfields : n.type = "struct_item" → fieldsOf n' = fieldsOf n)
    (hstatement : n.type = "expression_statement" → statementItem n' = statementItem n) :
    Item.ofNode? index n' = Item.ofNode? index n := by
  unfold Item.ofNode?
  rw [h.type]
  split_ifs
  · rfl
  · congr 1
    split
    case h_3 htype => rw [hfields htype, h.fieldText, h.isPublic]
    case h_15 htype => exact hstatement htype
    all_goals simp only [bodyOf, h.text, h.fieldText, h.traitName, h.isExternal, h.isPublic,
      h.isMutable, h.isAsync, h.abiOf, h.paramsOf, h.variantsOf, h.site, h.implKeyword,
      h.useKeyword]

end

/-- A statement whose one named child is a macro invocation. -/
def IsMacroStatement (n : Node) : Prop :=
  n.type = "expression_statement" ∧
    ∃ inner, n.namedChildren = [inner] ∧ inner.type = "macro_invocation"

/-- The child of a structure that is its body, where the body is no list of declared fields. -/
def IsTupleBody (n : Node) (i : Nat) : Prop :=
  n.type = "struct_item" ∧ n.children.findIdx? (fun c => c.field == some "body") = some i ∧
    ∀ body, n.child? "body" = some body → body.type ≠ "field_declaration_list"

/-- The descendants of an item whose children are counted, by the paths to them. -/
def IsCounted (n : Node) : List Nat → Prop
  | [] => IsMacroStatement n
  | [i] => IsTupleBody n i
  | _ => False

/-- There is a place at an index among the children of the descendant that a path leads to. -/
def HasPlace (k : Nat) (path : List Nat) (n : Node) : Prop :=
  ∃ host, n.descendant? path = some host ∧ k ≤ host.children.length

section

variable {c : Node} {k : Nat} {n : Node}

theorem namedChildren_insertInto_nil (hc : c.IsComment) (hk : k ≤ n.children.length) :
    ∃ front back, n.namedChildren = front ++ back ∧
      (c.insertInto k [] n).namedChildren = front ++ c :: back := by
  obtain ⟨front, back, hl, hi⟩ := exists_append_of_insertIdx hk c
  refine ⟨front.filter isNamed, back.filter isNamed, ?_, ?_⟩
  · rw [namedChildren, hl, List.filter_append]
  · rw [namedChildren, insertInto, children_withChildren, hi, List.filter_append,
      List.filter_cons_of_pos hc.isNamed]

theorem statementItem_eq_verbatim
    (h : ∀ inner, n.namedChildren = [inner] → inner.type ≠ "macro_invocation") :
    statementItem n = .verbatim n.text := by
  unfold statementItem
  split
  · next inner hinner => rw [if_neg (by simpa using h inner hinner)]
  · rfl

/-- With a comment in it a statement is not its one child any more. -/
theorem statementItem_insertInto_nil (hc : c.IsComment) (hk : k ≤ n.children.length) :
    statementItem (c.insertInto k [] n) = .verbatim n.text := by
  rw [statementItem_eq_verbatim, ignores_text]
  intro inner hinner
  obtain ⟨front, back, -, hchildren⟩ := namedChildren_insertInto_nil hc hk
  have hmem : c ∈ [inner] := by
    rw [← hinner, hchildren]
    simp
  rw [← List.mem_singleton.mp hmem]
  exact hc.type_ne (by decide)

/-- What a statement is, by the types of its named children and the macros that they name. -/
def readStatement (text : String) : List (String × String) → Item
  | [(type, name)] => if type == "macro_invocation" then .macroItem name else .verbatim text
  | _ => .verbatim text

theorem statementItem_eq (n : Node) :
    statementItem n =
      readStatement n.text (n.namedChildren.map fun c => (c.type, c.fieldText "macro")) := by
  unfold statementItem
  rcases n.namedChildren with _ | ⟨a, _ | ⟨b, rest⟩⟩ <;> rfl

theorem statementItem_insertInto_cons (hc : c.IsComment) (i : Nat) (path : List Nat) :
    statementItem (c.insertInto k (i :: path) n) = statementItem n := by
  have hchildren : (c.insertInto k (i :: path) n).namedChildren.map
      (fun c => (c.type, c.fieldText "macro")) =
        n.namedChildren.map fun c => (c.type, c.fieldText "macro") :=
    map_filter_congr (map_children_insertInto
      (ignores_isNamed.prod (ignores_type.prod (hc.ignores_fieldText "macro"))) k i path n)
  rw [statementItem_eq, statementItem_eq, hchildren, ignores_text]

theorem length_tupleFields_insertInto_nil (hc : c.IsComment) (hk : k ≤ n.children.length) :
    (tupleFields (c.insertInto k [] n)).length = (tupleFields n).length + 1 := by
  obtain ⟨front, back, hbefore, hafter⟩ := namedChildren_insertInto_nil hc hk
  have htest : isTupleField c = true := by
    rcases hc.type with h | h <;> rw [isTupleField, h] <;> decide
  rw [tupleFields, tupleFields, hbefore, hafter, List.filter_append, List.filter_append,
    List.filter_cons_of_pos htest]
  simp
  omega

theorem length_tupleFields_insertInto_cons (i : Nat) (path : List Nat) :
    (tupleFields (c.insertInto k (i :: path) n)).length = (tupleFields n).length := by
  have htest : Ignores c isTupleField :=
    ignores_type.comp fun type => type != "visibility_modifier" && type != "attribute_item"
  have h := congrArg List.length (map_filter_insertInto_cons htest ignores_type k i path n)
  rwa [List.length_map, List.length_map] at h

theorem fieldsIn_insertInto (hc : c.IsComment) {path : List Nat}
    (h : path = [] → n.type = "field_declaration_list") :
    fieldsIn (c.insertInto k path n) = fieldsIn n := by
  unfold fieldsIn
  rw [ignores_type k path n, ignores_namesIn hc (by decide) k path n]
  cases path with
  | nil => simp [h rfl]
  | cons i path => rw [length_tupleFields_insertInto_cons]

theorem length_fieldsIn_insertInto_nil (hc : c.IsComment) (hk : k ≤ n.children.length)
    (htype : n.type ≠ "field_declaration_list") :
    (fieldsIn (c.insertInto k [] n)).length = (fieldsIn n).length + 1 := by
  unfold fieldsIn
  rw [ignores_type k [] n, if_neg (by simpa using htype), if_neg (by simpa using htype)]
  simp only [List.length_map, List.length_range]
  exact length_tupleFields_insertInto_nil hc hk

theorem child?_insertInto_cons (name : String) (i : Nat) (path : List Nat) :
    (c.insertInto k (i :: path) n).child? name =
      if n.children.findIdx? (fun c => c.field == some name) = some i then
        (n.child? name).map (c.insertInto k path)
      else n.child? name := by
  rw [child?, insertInto, children_withChildren]
  exact find?_modify (ignores_field.comp (· == some name) k path) i

theorem fieldsOf_insertInto (hc : c.IsComment) {path : List Nat} (htype : n.type = "struct_item")
    (h : ¬ IsCounted n path) : fieldsOf (c.insertInto k path n) = fieldsOf n := by
  rw [fieldsOf_eq, fieldsOf_eq]
  cases path with
  | nil =>
    have hbody : (c.insertInto k [] n).child? "body" = n.child? "body" := by
      rw [child?, insertInto, children_withChildren, find?_insertIdx (by simp [hc.field])]
      rfl
    rw [hbody]
  | cons i path =>
    rw [child?_insertInto_cons]
    split_ifs with hfound
    · cases hbody : n.child? "body" with
      | none => rfl
      | some body =>
        have hin : fieldsIn (c.insertInto k path body) = fieldsIn body := by
          apply fieldsIn_insertInto hc
          rintro rfl
          by_contra hne
          apply h
          refine ⟨htype, hfound, fun b hb => ?_⟩
          rwa [← Option.some.inj (hbody.symm.trans hb)]
        rw [Option.map_some, Option.map_some, Option.map_some, hin]
    · rfl

/-- The body of a tuple structure has one field more with a comment in it. -/
theorem length_fieldsOf_insertInto (hc : c.IsComment) {i : Nat} (hplace : HasPlace k [i] n)
    (h : IsTupleBody n i) :
    (fieldsOf (c.insertInto k [i] n)).length = (fieldsOf n).length + 1 := by
  obtain ⟨-, hfound, htype⟩ := h
  obtain ⟨host, hhost, hk⟩ := hplace
  have hbody : n.child? "body" = some host := by
    rw [child?, List.find?_eq_bind_findIdx?_getElem?, hfound]
    simpa [descendant?] using hhost
  rw [fieldsOf_eq, fieldsOf_eq, child?_insertInto_cons, if_pos hfound, hbody]
  exact length_fieldsIn_insertInto_nil hc hk (htype host hbody)

theorem ofNode?_struct (index : LineIndex) (h : n.type = "struct_item") :
    Item.ofNode? index n = some (.struct (n.fieldText "name") (isPublic n) (fieldsOf n)) := by
  rw [Item.ofNode?, h]
  rfl

theorem ofNode?_statement (index : LineIndex) (h : n.type = "expression_statement") :
    Item.ofNode? index n = some (statementItem n) := by
  rw [Item.ofNode?, h]
  rfl

/-- A comment changes an item exactly if it is put where children are counted. -/
theorem ofNode?_insertInto_iff (hc : c.IsComment) {path : List Nat} (hplace : HasPlace k path n)
    (index : LineIndex) :
    Item.ofNode? index (c.insertInto k path n) = Item.ofNode? index n ↔ ¬ IsCounted n path := by
  constructor
  · intro heq hcounted
    match path, hcounted with
    | [], ⟨htype, inner, hinner, hinvocation⟩ =>
      obtain ⟨host, hhost, hk⟩ := hplace
      obtain rfl : n = host := Option.some.inj hhost
      have htype' := (ignores_type (c := c) k [] n).trans htype
      rw [ofNode?_statement index htype, ofNode?_statement index htype',
        statementItem_insertInto_nil hc hk, statementItem, hinner] at heq
      simp [hinvocation] at heq
    | [i], hbody =>
      have htype' := (ignores_type (c := c) k [i] n).trans hbody.1
      rw [ofNode?_struct index hbody.1, ofNode?_struct index htype'] at heq
      have hlen := length_fieldsOf_insertInto hc hplace hbody
      simp only [Option.some.injEq, Item.struct.injEq] at heq
      rw [heq.2.2] at hlen
      omega
  · intro h
    refine ofNode?_congr (readAlike_insertInto hc index k path n)
      (fun htype => fieldsOf_insertInto hc htype h) (fun htype => ?_)
    cases path with
    | nil =>
      obtain ⟨host, hhost, hk⟩ := hplace
      obtain rfl : n = host := Option.some.inj hhost
      rw [statementItem_insertInto_nil hc hk, statementItem_eq_verbatim]
      exact fun inner hinner hinvocation => h ⟨htype, inner, hinner, hinvocation⟩
    | cons i path => exact statementItem_insertInto_cons hc i path

def itemOf? (index : LineIndex) (n : Node) : Option Item :=
  if n.isNamed then Item.ofNode? index n else none

theorem itemOf?_comment (hc : c.IsComment) (index : LineIndex) : itemOf? index c = none := by
  have hskipped : skippedTypes.contains c.type = true := by
    rcases hc.type with h | h <;> rw [h] <;> decide
  rw [itemOf?, if_pos hc.isNamed, Item.ofNode?, if_pos hskipped]

theorem itemOf?_insertInto_iff (hc : c.IsComment) {path : List Nat} (hplace : HasPlace k path n)
    (index : LineIndex) :
    itemOf? index (c.insertInto k path n) = itemOf? index n ↔
      ¬ (n.isNamed = true ∧ IsCounted n path) := by
  rw [itemOf?, itemOf?, ignores_isNamed]
  by_cases hnamed : n.isNamed = true
  · rw [if_pos hnamed, if_pos hnamed, ofNode?_insertInto_iff hc hplace, and_iff_right hnamed]
  · simp [hnamed]

theorem items_build (root : Node) (source : String) :
    (build root source).items = root.children.filterMap (itemOf? (.ofSource source.toList)) := by
  rw [build, namedChildren, List.filterMap_filter]
  rfl

theorem build_eq_iff (root root' : Node) (source : String) :
    build root' source = build root source ↔
      (build root' source).items = (build root source).items := by
  simp [build]

/-- The descendants of a root whose children are counted: those of its items. -/
def IsCountedBelow (root : Node) : List Nat → Prop
  | [] => False
  | i :: path => ∃ n, root.children[i]? = some n ∧ n.isNamed = true ∧ IsCounted n path

/-- A comment, wherever it is put in the concrete syntax, changes the outline exactly if it is put
where children are counted: in the body of a tuple structure, or in a statement that is a macro
invocation and nothing else. -/
theorem build_insertInto_iff (hc : c.IsComment) {path : List Nat} {root : Node}
    (hplace : HasPlace k path root) (source : String) :
    build (c.insertInto k path root) source = build root source ↔
      ¬ IsCountedBelow root path := by
  rw [build_eq_iff, items_build, items_build]
  cases path with
  | nil =>
    obtain ⟨host, hhost, hk⟩ := hplace
    obtain rfl : root = host := Option.some.inj hhost
    obtain ⟨front, back, hbefore, hafter⟩ := exists_append_of_insertIdx hk c
    rw [insertInto, children_withChildren, hafter, hbefore, List.filterMap_append,
      List.filterMap_append, List.filterMap_cons_none (itemOf?_comment hc _)]
    simp [IsCountedBelow]
  | cons i path =>
    obtain ⟨host, hhost, hk⟩ := hplace
    obtain ⟨n, hn, hbelow⟩ := Option.bind_eq_some_iff.mp hhost
    have hlt : i < root.children.length := (List.getElem?_eq_some_iff.mp hn).1
    obtain ⟨front, child, back, hbefore, hlength, hafter⟩ :=
      List.exists_of_modify (c.insertInto k path) hlt
    obtain rfl : child = n := by simpa [hbefore, ← hlength] using hn
    have hcounted : IsCountedBelow root (i :: path) ↔
        child.isNamed = true ∧ IsCounted child path := by
      simp [IsCountedBelow, hn]
    rw [hcounted, insertInto, children_withChildren, hafter, hbefore, filterMap_replace_iff]
    exact itemOf?_insertInto_iff hc ⟨host, hbelow, hk⟩ _

end

def plainNode (type text : String) (field : Option String) (children : List Node) : Node :=
  .mk type text ⟨.int 0, .int 0⟩ ⟨.int 0, .int 0⟩ children true field false false

/-- A comment among the parameters of a function. -/
theorem build_insertInto_iff_parameters :
    let list := plainNode "parameters" "(a: u8)" (some "parameters")
      [plainNode "parameter" "a: u8" none [plainNode "identifier" "a" (some "pattern") []]]
    let root := plainNode "source_file" "" none
      [plainNode "function_item" "" none [plainNode "identifier" "f" (some "name") [], list]]
    let c := plainNode "block_comment" "/* x */" none []
    c.IsComment ∧ HasPlace 1 [0, 1] root ∧
      build (c.insertInto 1 [0, 1] root) "" = build root "" := by
  intro list root c
  have hc : c.IsComment := ⟨.inr rfl, rfl, rfl⟩
  have hplace : HasPlace 1 [0, 1] root := ⟨list, rfl, by decide⟩
  refine ⟨hc, hplace, (build_insertInto_iff hc hplace "").mpr ?_⟩
  rintro ⟨n, hn, -, htype, -⟩
  obtain rfl := Option.some.inj hn
  exact absurd htype (by decide)

/-- A comment in a tuple structure counts as one of its fields. -/
theorem comment_in_tuple_counted :
    let body := plainNode "ordered_field_declaration_list" "(u8)" (some "body")
      [plainNode "primitive_type" "u8" none []]
    let root := plainNode "source_file" "" none
      [plainNode "struct_item" "struct T(u8);" none
        [plainNode "type_identifier" "T" (some "name") [], body]]
    let c := plainNode "block_comment" "/* x */" none []
    c.IsComment ∧ HasPlace 0 [0, 1] root ∧
      build root "" = ⟨[.struct "T" false ["0"]], none⟩ ∧
      build (c.insertInto 0 [0, 1] root) "" = ⟨[.struct "T" false ["0", "1"]], none⟩ := by
  intro body root c
  exact ⟨⟨.inr rfl, rfl, rfl⟩, ⟨body, rfl, by decide⟩, by decide +kernel, by decide +kernel⟩

end Outline
end Marginalia
