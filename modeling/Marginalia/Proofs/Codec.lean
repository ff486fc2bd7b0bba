import Marginalia.Outline.Decode
import Marginalia.Outline.Layout
import Marginalia.Proofs.Checked
import Marginalia.Proofs.JsonText

/-!
# Outlines survive being written and read

An item is written member by member and read by name, so what matters is which
value stands under each name. The four structural names are read alike for all
kinds; the own fields differ and are compared kind by kind. Empty lists of
comments are not written and do not come back.
-/

namespace Marginalia

open Schema

/-- A number that is an integer and not below the given one. -/
def Number.IsFrom (least : Int) (x : Number) : Prop :=
  ∃ n : Int, x = .int n ∧ least ≤ n

namespace Span

/-- A span of integers: its lines count from one, its columns and offsets from zero. -/
structure Integral (s : Span) : Prop where
  startLine : s.start.line.IsFrom 1
  startColumn : s.start.column.IsFrom 0
  endLine : s.stop.line.IsFrom 1
  endColumn : s.stop.column.IsFrom 0
  startOffset : s.startOffset.IsFrom 0
  endOffset : s.endOffset.IsFrom 0

def numbers (s : Span) : List Number :=
  [s.start.line, s.start.column, s.stop.line, s.stop.column, s.startOffset, s.endOffset]

/-- A span that can be stored: its numbers are below the bound up to which all integers are kept. -/
structure Storable (s : Span) : Prop extends s.Integral where
  bounded : ∀ x ∈ s.numbers, x < .int (2 ^ 53)

theorem integer_of_isFrom {least : Int} {x : Number} (h : x.IsFrom least) :
    integer least (.num x) = .ok x := by
  obtain ⟨n, rfl, hn⟩ := h
  exact integer_int hn

theorem ofJson_toJson {s : Span} (h : s.Integral) : ofJson s.toJson = .ok s := by
  refine object_obj ?_ (by simp)
  rw [required_of_lookup rfl (integer_of_isFrom h.startLine),
    required_of_lookup rfl (integer_of_isFrom h.startColumn),
    required_of_lookup rfl (integer_of_isFrom h.endLine),
    required_of_lookup rfl (integer_of_isFrom h.endColumn),
    withDefault_of_lookup rfl (integer_of_isFrom h.startOffset),
    withDefault_of_lookup rfl (integer_of_isFrom h.endOffset)]
  rfl

theorem Integral.isFrom_zero {s : Span} (h : s.Integral) : ∀ x ∈ s.numbers, x.IsFrom 0 := by
  have hline : ∀ x : Number, x.IsFrom 1 → x.IsFrom 0 :=
    fun x ⟨n, hx, hn⟩ => ⟨n, hx, by omega⟩
  simp only [numbers, List.forall_mem_cons]
  exact ⟨hline _ h.startLine, h.startColumn, hline _ h.endLine, h.endColumn, h.startOffset,
    h.endOffset, by simp⟩

theorem Storable.exact_num {s : Span} (h : s.Storable) : ∀ x ∈ s.numbers, (Json.num x).Exact := by
  intro x hx
  have hbound := h.bounded x hx
  obtain ⟨n, rfl, hn⟩ := h.isFrom_zero x hx
  rw [Number.int_lt_int] at hbound
  have htwo : Number.twoTo 53 = 2 ^ 53 := rfl
  exact .num (by omega)

theorem exact_toJson {s : Span} (h : s.Storable) : s.toJson.Exact := by
  refine .of_names (by simp) (by simp; decide) ?_
  simpa [numbers] using h.exact_num

end Span

namespace Comment

theorem ofJson_toJson {c : Comment} (h : c.span.Integral) : ofJson (c.toJson false) = .ok c := by
  have hkind : Kind.choices.lookup c.kind.name = some c.kind := by
    cases c.kind <;> decide
  refine object_obj ?_ (by simp)
  rw [required_of_lookup (a := c.text) rfl rfl,
    required_of_lookup rfl (choice_of_lookup hkind),
    required_of_lookup rfl (Span.ofJson_toJson h)]
  rfl

theorem exact_toJson {c : Comment} (h : c.span.Storable) : (c.toJson false).Exact := by
  refine .of_names (by simp) (by simp; decide) ?_
  simp only [Bool.false_eq_true, if_false, List.cons_append, List.nil_append, List.forall_mem_cons]
  exact ⟨.str _, .str _, Span.exact_toJson h, by simp⟩

end Comment

namespace Outline

theorem dropEmpty_dropEmpty (cs : Option (List Comment)) :
    dropEmpty (dropEmpty cs) = dropEmpty cs := by
  rcases cs with _ | _ | ⟨c, cs⟩ <;> rfl

theorem mem_of_dropEmpty {cs : Option (List Comment)} {l : List Comment} {c : Comment}
    (h : dropEmpty cs = some l) (hc : c ∈ l) : c ∈ cs.getD [] := by
  rcases cs with _ | _ | ⟨d, cs⟩
  · cases h
  · cases h
  · cases h
    exact hc

def commentsJson (cs : List Comment) : Json := .arr (cs.map (Comment.toJson false))

/-- A member that is written only where there is a value for it. -/
def optionalMember {α : Type} (key : String) (encode : α → Json) (x : Option α) : Json.Members :=
  (x.map fun a => (key, encode a)).toList

section OptionalMember

variable {α : Type} (key : String) (encode : α → Json) (x : Option α)

theorem lookup_optionalMember (name : String) :
    (optionalMember key encode x).lookup name = if name = key then x.map encode else none := by
  by_cases h : name = key
  · cases x <;> simp [optionalMember, h]
  · cases x <;> simp [optionalMember, List.lookup_cons, beq_false_of_ne h, h]

theorem mem_optionalMember {m : String × Json} :
    m ∈ optionalMember key encode x ↔ ∃ a, x = some a ∧ m = (key, encode a) := by
  cases x <;> simp [optionalMember]

theorem names_optionalMember :
    ((optionalMember key encode x).map Prod.fst).Sublist [key] := by
  cases x <;> simp [optionalMember]

end OptionalMember

theorem spanMember_eq (span : Option Span) :
    spanMember false span = optionalMember "span" Span.toJson span := rfl

theorem commentsMember_eq (cs : Option (List Comment)) :
    commentsMember false cs = optionalMember "comments" commentsJson (dropEmpty cs) := by
  rcases cs with _ | _ | ⟨c, cs⟩ <;> rfl

theorem blockMember_eq (body : Option Site) :
    (body.map (blockMember false)).getD [] =
      optionalMember "block" (fun b => .obj (b.members false)) body := by
  cases body <;> rfl

section Sites

variable {ms : Json.Members} {span : Option Span} {cs : Option (List Comment)}

theorem readComments_of_lookup (h : ms.lookup "comments" = (dropEmpty cs).map commentsJson)
    (hc : ∀ c ∈ cs.getD [], c.span.Integral) : readComments ms = .ok (dropEmpty cs) := by
  have hread : optional "comments" (array Comment.ofJson) ms = .ok (dropEmpty cs) := by
    refine optional_of_lookup h fun l hl => ?_
    exact array_map_self fun c hmem => Comment.ofJson_toJson (hc c (mem_of_dropEmpty hl hmem))
  rw [readComments, hread, Checked.map_ok, dropEmpty_dropEmpty]

theorem Site.read_of_lookup (hspan : ms.lookup "span" = span.map Span.toJson)
    (hcomments : ms.lookup "comments" = (dropEmpty cs).map commentsJson)
    (hs : ∀ s ∈ span, s.Integral) (hc : ∀ c ∈ cs.getD [], c.span.Integral) :
    Site.read ms = .ok ⟨span, dropEmpty cs⟩ := by
  rw [Site.read, optional_of_lookup hspan fun s hmem => Span.ofJson_toJson (hs s hmem),
    readComments_of_lookup hcomments hc]
  rfl

end Sites

def Site.spans (s : Site) : List Span := s.span.toList ++ (s.comments.getD []).map Comment.span

theorem Site.mem_spans_of_span {s : Site} {x : Span} (h : s.span = some x) : x ∈ s.spans := by
  simp [Site.spans, h]

theorem Site.mem_spans_of_comments {s : Site} {c : Comment} (h : c ∈ s.comments.getD []) :
    c.span ∈ s.spans :=
  List.mem_append_right _ (List.mem_map_of_mem h)

def Site.dropEmptyList (s : Site) : Site := { s with comments := dropEmpty s.comments }

theorem Site.members_eq (s : Site) :
    s.members false = optionalMember "span" Span.toJson s.span ++
      optionalMember "comments" commentsJson (dropEmpty s.comments) := by
  rw [Site.members, spanMember_eq, commentsMember_eq]

theorem Site.ofJson_members {s : Site} (h : ∀ x ∈ s.spans, x.Integral) :
    Site.ofJson (.obj (s.members false)) = .ok s.dropEmptyList := by
  have hspan : (s.members false).lookup "span" = s.span.map Span.toJson := by
    simp [Site.members_eq, List.lookup_append, lookup_optionalMember]
  have hcomments : (s.members false).lookup "comments" =
      (dropEmpty s.comments).map commentsJson := by
    simp [Site.members_eq, List.lookup_append, lookup_optionalMember]
  refine object_obj (Site.read_of_lookup hspan hcomments ?_ ?_) ?_
  · intro x hx
    exact h x (Site.mem_spans_of_span hx)
  · intro c hc
    exact h c.span (Site.mem_spans_of_comments hc)
  · intro m hm
    rw [Site.members_eq, List.mem_append, mem_optionalMember, mem_optionalMember] at hm
    rcases hm with ⟨_, _, rfl⟩ | ⟨_, _, rfl⟩ <;> simp

theorem exact_commentsJson {cs : List Comment} (h : ∀ c ∈ cs, c.span.Storable) :
    (commentsJson cs).Exact := by
  refine .arr fun v hv => ?_
  obtain ⟨c, hc, rfl⟩ := List.mem_map.mp hv
  exact Comment.exact_toJson (h c hc)

theorem Site.exact_members {s : Site} (h : ∀ x ∈ s.spans, x.Storable) :
    (Json.obj (s.members false)).Exact := by
  have hnames : ((s.members false).map Prod.fst).Sublist ["span", "comments"] := by
    rw [Site.members_eq, List.map_append]
    exact (names_optionalMember _ _ _).append (names_optionalMember _ _ _)
  refine .of_sublist hnames (by decide) (by decide) fun m hm => ?_
  rw [Site.members_eq, List.mem_append, mem_optionalMember, mem_optionalMember] at hm
  rcases hm with ⟨x, hx, rfl⟩ | ⟨cs, hcs, rfl⟩
  · exact Span.exact_toJson (h x (Site.mem_spans_of_span hx))
  · refine exact_commentsJson fun c hc => h c.span ?_
    exact Site.mem_spans_of_comments (mem_of_dropEmpty hcs hc)

namespace Item

variable (i : Item)

def spans : List Span :=
  i.span?.toList ++ (i.comments?.getD []).map Comment.span ++ (i.body?.map Site.spans).getD []

theorem mem_spans_of_span? {s : Span} (h : i.span? = some s) : s ∈ i.spans := by
  simp [spans, h]

theorem mem_spans_of_comments? {c : Comment} (h : c ∈ i.comments?.getD []) : c.span ∈ i.spans := by
  simp only [spans, List.mem_append]
  exact Or.inl (Or.inr (List.mem_map_of_mem h))

theorem mem_spans_of_body? {body : Site} {s : Span} (hb : i.body? = some body)
    (hs : s ∈ body.spans) : s ∈ i.spans := by
  simp [spans, hb, hs]

/-- An item without empty lists of comments. -/
def dropEmptyLists : Item :=
  (i.setComments (dropEmpty i.comments?)).setBodyComments (dropEmpty i.bodyComments?)

theorem members_eq :
    i.members false = ("kind", .str i.kind.name) :: (i.ownMembers ++
      (optionalMember "span" Span.toJson i.span? ++
        (optionalMember "comments" commentsJson (dropEmpty i.comments?) ++
          optionalMember "block" (fun b => .obj (b.members false)) i.body?))) := by
  rw [members, spanMember_eq, commentsMember_eq, blockMember_eq]
  simp only [List.cons_append, List.append_assoc]

theorem ownNames_subperm :
    (i.ownMembers.map Prod.fst).Subperm ((knownMembers i.kind).filter Layout.isFieldName) := by
  cases i with
  | impl selfType traitName site body =>
    cases traitName <;> simp only [ownMembers, kind, List.map_cons, List.map_nil, Option.map_none,
      Option.map_some, Option.toList_some, Option.toList_none] <;> decide
  | foreignModule abi comments =>
    cases abi <;> simp only [ownMembers, kind, List.map_cons, List.map_nil, Option.map_none,
      Option.map_some, Option.toList_some, Option.toList_none] <;> decide
  | _ =>
    simp only [ownMembers, kind, List.map_cons, List.map_nil]
    decide

theorem mem_of_mem_ownMembers {m : String × Json} (h : m ∈ i.ownMembers) :
    m.1 ∈ knownMembers i.kind ∧ m.1 ∉ Layout.structural := by
  have hname := i.ownNames_subperm.subset (List.mem_map_of_mem h)
  rw [List.mem_filter] at hname
  refine ⟨hname.1, ?_⟩
  have hfield := hname.2
  simp only [Layout.isFieldName, Bool.and_eq_true, Bool.not_eq_true', List.contains_eq_mem,
    decide_eq_false_iff_not] at hfield
  exact hfield.1

theorem lookup_ownMembers {name : String} (h : name ∈ Layout.structural) :
    i.ownMembers.lookup name = none := by
  rw [List.lookup_eq_none_iff]
  intro m hm
  have hne := (i.mem_of_mem_ownMembers hm).2
  simp only [bne_iff_ne, ne_eq]
  rintro rfl
  exact hne h

theorem lookup_members_kind : (i.members false).lookup "kind" = some (.str i.kind.name) := by
  simp [members_eq]

theorem lookup_members_span : (i.members false).lookup "span" = i.span?.map Span.toJson := by
  simp [members_eq, List.lookup_cons, List.lookup_append, lookup_optionalMember,
    i.lookup_ownMembers (show "span" ∈ Layout.structural by decide)]

theorem lookup_members_comments :
    (i.members false).lookup "comments" = (dropEmpty i.comments?).map commentsJson := by
  simp [members_eq, List.lookup_cons, List.lookup_append, lookup_optionalMember,
    i.lookup_ownMembers (show "comments" ∈ Layout.structural by decide)]

theorem lookup_members_block :
    (i.members false).lookup "block" = i.body?.map fun b => .obj (b.members false) := by
  simp [members_eq, List.lookup_cons, List.lookup_append, lookup_optionalMember,
    i.lookup_ownMembers (show "block" ∈ Layout.structural by decide)]

theorem lookup_members {name : String} (h : name ∉ Layout.structural) :
    (i.members false).lookup name = i.ownMembers.lookup name := by
  obtain ⟨hkind, hspan, hcomments, hblock⟩ :
      name ≠ "kind" ∧ name ≠ "span" ∧ name ≠ "comments" ∧ name ≠ "block" := by
    simpa [Layout.structural] using h
  simp [members_eq, List.lookup_cons, List.lookup_append, lookup_optionalMember,
    beq_false_of_ne hkind, hspan, hcomments, hblock]

theorem optional_members {α : Type} {name : String} (h : name ∉ Layout.structural)
    (reader : Reader α) :
    optional name reader (i.members false) = optional name reader i.ownMembers := by
  rw [Schema.optional, Schema.optional, i.lookup_members h]

theorem array_texts (xs : List String) : array string (texts xs) = .ok xs :=
  array_map_self fun _ _ => rfl

section Integral

variable {i} (h : ∀ s ∈ i.spans, s.Integral)

include h

theorem readComments_members : readComments (i.members false) = .ok (dropEmpty i.comments?) := by
  refine readComments_of_lookup i.lookup_members_comments fun c hc => ?_
  exact h c.span (i.mem_spans_of_comments? hc)

theorem siteRead_members : Site.read (i.members false) = .ok ⟨i.span?, dropEmpty i.comments?⟩ := by
  refine Site.read_of_lookup i.lookup_members_span i.lookup_members_comments ?_ ?_
  · intro s hs
    exact h s (i.mem_spans_of_span? hs)
  · intro c hc
    exact h c.span (i.mem_spans_of_comments? hc)

theorem readBody_members {body : Site} (hb : i.body? = some body) :
    readBody (i.members false) = .ok body.dropEmptyList := by
  have hlookup := i.lookup_members_block
  rw [hb] at hlookup
  refine required_of_lookup hlookup (Site.ofJson_members fun s hs => ?_)
  exact h s (i.mem_spans_of_body? hb hs)

/-- Reading the members of an item by the names of its kind gives the item. -/
theorem read_members : read i.kind (i.members false) = .ok i.dropEmptyLists := by
  have hcomments := readComments_members h
  have hsite := siteRead_members h
  have hbody := fun (b : Site) (hb : i.body? = some b) => readBody_members h hb
  -- Own fields stand in front, so a lookup finds them by computation; only lists and fields that
  -- may be absent need a lemma.
  cases i with
  | fn name isPublic isAsync params site body =>
    rw [kind, read, required_of_lookup rfl (array_texts params), hsite, hbody body rfl]
    rfl
  | enum name isPublic variants site =>
    rw [kind, read, required_of_lookup rfl (array_texts variants), hsite]
    rfl
  | struct name isPublic fields =>
    rw [kind, read, required_of_lookup rfl (array_texts fields)]
    rfl
  | trait name isPublic site body => rw [kind, read, hsite, hbody body rfl]; rfl
  | impl selfType traitName site body =>
    rw [kind, read, optional_members _ (by decide), hsite, hbody body rfl]
    cases traitName <;> rfl
  | useDecl | constant | static | typeAlias => rw [kind, read, hsite]; rfl
  | union => rw [kind, read, hcomments]; rfl
  | foreignModule abi comments =>
    rw [kind, read, optional_members _ (by decide), hcomments]
    cases abi <;> rfl
  | module | macroItem | externCrate | verbatim => rfl

end Integral

theorem structural_knownMembers (k : Kind) :
    "kind" ∈ knownMembers k ∧ ("span" ∈ knownMembers k ↔ k.capabilities.span) ∧
      ("comments" ∈ knownMembers k ↔ k.capabilities.comments) ∧
      ("block" ∈ knownMembers k ↔ k.capabilities.block) := by
  cases k <;> decide

theorem capabilities_of_span? {s : Span} (h : i.span? = some s) : i.kind.capabilities.span := by
  rw [← site?_isSome]
  cases hsite : i.site? with
  | none => simp [span?, hsite] at h
  | some site => rfl

theorem capabilities_of_comments? {cs : List Comment} (h : dropEmpty i.comments? = some cs) :
    i.kind.capabilities.comments := by
  cases i <;> first | rfl | simp [comments?, site?, dropEmpty] at h

theorem capabilities_of_body? {body : Site} (h : i.body? = some body) :
    i.kind.capabilities.block := by
  rw [← body?_isSome, h]
  rfl

theorem mem_knownMembers {m : String × Json} (h : m ∈ i.members false) :
    m.1 ∈ knownMembers i.kind := by
  obtain ⟨hkind, hspan, hcomments, hblock⟩ := structural_knownMembers i.kind
  rw [members_eq] at h
  simp only [List.mem_cons, List.mem_append, mem_optionalMember] at h
  rcases h with rfl | h | ⟨s, hs, rfl⟩ | ⟨cs, hcs, rfl⟩ | ⟨body, hb, rfl⟩
  · exact hkind
  · exact (i.mem_of_mem_ownMembers h).1
  · exact hspan.mpr (i.capabilities_of_span? hs)
  · exact hcomments.mpr (i.capabilities_of_comments? hcs)
  · exact hblock.mpr (i.capabilities_of_body? hb)

theorem ofJson_toJson {i : Item} (h : ∀ s ∈ i.spans, s.Integral) :
    ofJson (i.toJson false) = .ok i.dropEmptyLists := by
  have hkind : kindOf? (i.members false) = some i.kind := by
    rw [kindOf?, lookup_members_kind]
    exact Kind.ofName?_name i.kind
  rw [toJson, ofJson, hkind]
  exact object_obj (read_members h) fun m hm => i.mem_knownMembers hm

theorem indexOf?_knownMembers (k : Kind) :
    ∀ name ∈ knownMembers k, Json.indexOf? name = none := by
  cases k <;> decide

theorem nodup_knownMembers (k : Kind) : (knownMembers k).Nodup := by
  cases k <;> decide

theorem nodup_ownNames : (i.ownMembers.map Prod.fst).Nodup := by
  obtain ⟨names, hperm, hsub⟩ := i.ownNames_subperm
  exact hperm.nodup_iff.mp (hsub.nodup ((nodup_knownMembers i.kind).filter _))

theorem nodup_names : ((i.members false).map Prod.fst).Nodup := by
  have hsub : ((i.members false).map Prod.fst).Sublist
      ("kind" :: (i.ownMembers.map Prod.fst ++ ["span", "comments", "block"])) := by
    rw [members_eq]
    simp only [List.map_cons, List.map_append]
    refine .cons_cons _ (.append (.refl _) ?_)
    exact (names_optionalMember _ _ _).append
      ((names_optionalMember _ _ _).append (names_optionalMember _ _ _))
  have hown : ∀ name ∈ Layout.structural, name ∉ i.ownMembers.map Prod.fst := by
    intro name hname hmem
    obtain ⟨m, hm, rfl⟩ := List.mem_map.mp hmem
    exact (i.mem_of_mem_ownMembers hm).2 hname
  refine hsub.nodup (List.nodup_cons.mpr ⟨?_, ?_⟩)
  · have hkind := hown "kind" (by decide)
    simpa using hkind
  · refine i.nodup_ownNames.append (by decide) fun name hmem hname => ?_
    exact hown name (List.mem_cons_of_mem _ hname) hmem

theorem exact_ownMembers : ∀ m ∈ i.ownMembers, m.2.Exact := by
  have htexts : ∀ xs, (texts xs).Exact := by
    intro xs
    refine .arr fun v hv => ?_
    obtain ⟨x, -, rfl⟩ := List.mem_map.mp hv
    exact .str x
  cases i with
  | impl selfType traitName site body => cases traitName <;> simp [ownMembers, Json.Exact.str]
  | foreignModule abi comments => cases abi <;> simp [ownMembers, Json.Exact.str]
  | _ => simp [ownMembers, Json.Exact.str, Json.Exact.bool, htexts]

theorem exact_toJson {i : Item} (h : ∀ s ∈ i.spans, s.Storable) : (i.toJson false).Exact := by
  refine .of_names i.nodup_names (fun m hm => indexOf?_knownMembers _ _ (i.mem_knownMembers hm)) ?_
  intro m hm
  rw [members_eq] at hm
  simp only [List.mem_cons, List.mem_append, mem_optionalMember] at hm
  rcases hm with rfl | hm | ⟨s, hs, rfl⟩ | ⟨cs, hcs, rfl⟩ | ⟨body, hb, rfl⟩
  · exact .str _
  · exact i.exact_ownMembers m hm
  · exact Span.exact_toJson (h s (i.mem_spans_of_span? hs))
  · refine exact_commentsJson fun c hc => h c.span ?_
    exact i.mem_spans_of_comments? (mem_of_dropEmpty hcs hc)
  · exact Site.exact_members fun s hs => h s (i.mem_spans_of_body? hb hs)

end Item

def spans (f : Outline) : List Span :=
  f.items.flatMap Item.spans ++ (f.comments.getD []).map Comment.span

theorem mem_spans_of_items {f : Outline} {i : Item} {s : Span} (hi : i ∈ f.items)
    (hs : s ∈ i.spans) : s ∈ f.spans :=
  List.mem_append_left _ (List.mem_flatMap.mpr ⟨i, hi, hs⟩)

theorem mem_spans_of_comments {f : Outline} {c : Comment} (h : c ∈ f.comments.getD []) :
    c.span ∈ f.spans :=
  List.mem_append_right _ (List.mem_map_of_mem h)

/-- An outline without empty lists of comments. -/
def dropEmptyLists (f : Outline) : Outline :=
  { items := f.items.map Item.dropEmptyLists, comments := dropEmpty f.comments }

theorem toJson_eq (f : Outline) :
    f.toJson false = .obj (("items", .arr (f.items.map (Item.toJson false))) ::
      optionalMember "comments" commentsJson (dropEmpty f.comments)) := by
  rw [toJson, commentsMember_eq]

theorem ofJson_toJson {f : Outline} (h : ∀ s ∈ f.spans, s.Integral) :
    ofJson (f.toJson false) = .ok f.dropEmptyLists := by
  have hitems : array Item.ofJson (.arr (f.items.map (Item.toJson false))) =
      .ok (f.items.map Item.dropEmptyLists) := by
    refine array_map fun i hi => Item.ofJson_toJson fun s hs => ?_
    exact h s (mem_spans_of_items hi hs)
  have hcomments : readComments (("items", .arr (f.items.map (Item.toJson false))) ::
      optionalMember "comments" commentsJson (dropEmpty f.comments)) =
      .ok (dropEmpty f.comments) := by
    refine readComments_of_lookup ?_ fun c hc => ?_
    · simp [List.lookup_cons, lookup_optionalMember]
    · exact h c.span (mem_spans_of_comments hc)
  rw [toJson_eq]
  refine object_obj ?_ ?_
  · rw [required_of_lookup rfl hitems, hcomments]
    rfl
  · intro m hm
    rw [List.mem_cons, mem_optionalMember] at hm
    rcases hm with rfl | ⟨_, _, rfl⟩ <;> simp

theorem exact_toJson {f : Outline} (h : ∀ s ∈ f.spans, s.Storable) : (f.toJson false).Exact := by
  rw [toJson_eq]
  refine .of_sublist ((names_optionalMember _ _ _).cons_cons "items") (by decide) (by decide) ?_
  intro m hm
  rw [List.mem_cons, mem_optionalMember] at hm
  rcases hm with rfl | ⟨cs, hcs, rfl⟩
  · refine .arr fun v hv => ?_
    obtain ⟨i, hi, rfl⟩ := List.mem_map.mp hv
    exact Item.exact_toJson fun s hs => h s (mem_spans_of_items hi hs)
  · refine exact_commentsJson fun c hc => h c.span ?_
    exact mem_spans_of_comments (mem_of_dropEmpty hcs hc)

/-- Writing an outline as text and reading the text gives the outline, less its empty lists. -/
theorem decodeText_toText (f : Outline) (pretty : Bool) (h : ∀ s ∈ f.spans, s.Storable) :
    decodeText (f.toText ⟨false, pretty⟩) = .ok f.dropEmptyLists := by
  have hread := (exact_toJson h).read?_render pretty
  have hdecode := ofJson_toJson fun s hs => (h s hs).toIntegral
  rw [decodeText, toText, hread]
  simp only [decode, hdecode]

/-- A name with characters that are escaped, an empty list and a comment. -/
theorem decodeText_toText_escapes :
    let s : Span := ⟨.ofNat 1 0, .ofNat 2 8, .int 0, .int 9007199254740991⟩
    let c : Comment := ⟨"say \"hi\"\t\u0001", .line, s⟩
    (∀ x ∈ spans ⟨[.trait "a\\b" true ⟨some s, some []⟩ ⟨none, some [c]⟩], some []⟩, x.Storable) ∧
      decodeText (toText ⟨false, true⟩
          ⟨[.trait "a\\b" true ⟨some s, some []⟩ ⟨none, some [c]⟩], some []⟩) =
        .ok ⟨[.trait "a\\b" true ⟨some s, none⟩ ⟨none, some [c]⟩], none⟩ := by
  intro s c
  have hs : s.Storable :=
    { startLine := ⟨1, rfl, by decide⟩
      startColumn := ⟨0, rfl, by decide⟩
      endLine := ⟨2, rfl, by decide⟩
      endColumn := ⟨8, rfl, by decide⟩
      startOffset := ⟨0, rfl, by decide⟩
      endOffset := ⟨9007199254740991, rfl, by decide⟩
      bounded := by decide }
  have hspans : ∀ x ∈ spans ⟨[.trait "a\\b" true ⟨some s, some []⟩ ⟨none, some [c]⟩], some []⟩,
      x.Storable := by
    intro x hx
    obtain rfl : x = s := by
      simpa [spans, Item.spans, Item.span?, Item.site?, Item.comments?, Item.body?, Site.spans, c]
        using hx
    exact hs
  exact ⟨hspans, decodeText_toText _ true hspans⟩

end Outline
end Marginalia
