import Marginalia.Proofs.Description

/-!
# Reading accepts what describes an outline

The names that an item may have depend on its kind, and so do the parts that it
is read from. The own fields of an item are compared with those that are written
for it name by name; its span, its comments and its body are read alike for all
kinds that can have them and are absent from all others.
-/

namespace Marginalia

open Schema

namespace Outline

namespace Item

structure DescribedBy (i : Item) (v : Json) : Prop where
  agrees : v.AgreesExcept ["span", "comments", "block"] (i.toJson false)
  span : Option.Rel Span.DescribedBy i.span? (v.get? "span")
  comments : CommentsDescribedBy i.holdsComments i.comments? (v.get? "comments")
  block : Option.Rel Site.DescribedBy i.body? (v.get? "block")

/-- The own fields of an item stand under their names. -/
def OwnFieldsIn (i : Item) (ms : Json.Members) : Prop :=
  ∀ name ∈ knownMembers i.kind, name ∉ Layout.structural → ms.lookup name = i.ownMembers.lookup name

theorem kind_of_read {kind : Kind} {ms : Json.Members} {i : Item} (h : read kind ms = .ok i) :
    i.kind = kind := by
  cases kind <;>
    simp only [read, Checked.seq_eq_ok, Checked.map_eq_ok, ↓existsAndEq, and_true] at h <;>
    grind [Item.kind]

theorem array_string {v : Json} {xs : List String} : array string v = .ok xs ↔ v = texts xs := by
  have hall : ∀ vs, List.Forall₂ (fun x v => v = Json.str x) xs vs ↔ vs = xs.map .str := by
    induction xs with
    | nil => simp
    | cons x xs ih => simp [List.forall₂_cons_left_iff, ih]
  simp [array_eq_ok, string_eq_ok, hall, texts]

theorem optional_string {name : String} {ms : Json.Members} {x : Option String} :
    optional name string ms = .ok x ↔ ms.lookup name = x.map .str := by
  rw [optional_eq_ok]
  cases x <;> cases ms.lookup name <;> simp [string_eq_ok]

theorem lookup_optionalText (name : String) (x : Option String) :
    (x.map fun a => (name, Json.str a)).toList.lookup name = x.map .str := by
  cases x <;> simp

/-- Reading by the names of a kind gives an item of this kind if its own fields stand under their
names and the parts that the kind can have are read. -/
theorem read_eq_ok {i : Item} {ms : Json.Members} :
    read i.kind ms = .ok i ↔ i.OwnFieldsIn ms ∧
      (i.kind.capabilities.span = true → optional "span" Span.ofJson ms = .ok i.span?) ∧
      (i.kind.capabilities.comments = true → readComments ms = .ok i.comments?) ∧
      ∀ body ∈ i.body?, readBody ms = .ok body := by
  cases i <;>
    simp [read, kind, OwnFieldsIn, knownMembers, Layout.structural, ownMembers, List.lookup_cons,
      readName, readPublic, Checked.seq_eq_ok, Checked.map_eq_ok, required_eq_ok, string_eq_ok,
      boolean_eq_ok, array_string, optional_string, lookup_optionalText, Site.read_eq_ok,
      Kind.capabilities, span?, comments?, site?, body?, -Bool.exists_bool]
  all_goals tauto

theorem kindOf?_eq_some {ms : Json.Members} {k : Kind} :
    kindOf? ms = some k ↔ ms.lookup "kind" = some (.str k.name) := by
  constructor
  · intro h
    unfold kindOf? at h
    split at h
    · rename_i s hs
      have hname : k.name = s := by simpa using List.find?_some h
      rw [hs, hname]
    · simp at h
  · intro h
    rw [kindOf?, h]
    exact Kind.ofName?_name k

theorem ofJson_eq_ok {v : Json} {i : Item} :
    ofJson v = .ok i ↔ ∃ ms, v = .obj ms ∧ ms.lookup "kind" = some (.str i.kind.name) ∧
      read i.kind ms = .ok i ∧ ∀ m ∈ ms, m.1 ∈ knownMembers i.kind := by
  cases v with
  | obj ms =>
    simp only [Json.obj.injEq, ↓existsAndEq, true_and, ← kindOf?_eq_some]
    cases hkind : kindOf? ms with
    | none => simp [ofJson, hkind]
    | some k =>
      simp only [ofJson, hkind, object_eq_ok, Json.obj.injEq, ↓existsAndEq, true_and,
        Option.some.injEq]
      constructor
      · rintro ⟨hread, hknown⟩
        obtain rfl := kind_of_read hread
        exact ⟨rfl, hread, hknown⟩
      · rintro ⟨rfl, hread, hknown⟩
        exact ⟨hread, hknown⟩
  | _ => simp [ofJson]

section DropEmpty

variable (i : Item)

theorem kind_dropEmptyLists : i.dropEmptyLists.kind = i.kind := by
  cases i <;> rfl

theorem ownMembers_dropEmptyLists : i.dropEmptyLists.ownMembers = i.ownMembers := by
  cases i <;> rfl

theorem span?_dropEmptyLists : i.dropEmptyLists.span? = i.span? := by
  cases i <;> rfl

theorem comments?_dropEmptyLists : i.dropEmptyLists.comments? = dropEmpty i.comments? := by
  cases i <;> rfl

theorem body?_dropEmptyLists : i.dropEmptyLists.body? = i.body?.map Site.dropEmptyList := by
  cases i <;> rfl

theorem bodyComments?_dropEmptyLists :
    i.dropEmptyLists.bodyComments? = dropEmpty i.bodyComments? := by
  cases i <;> rfl

variable {i}

theorem dropEmptyLists_eq_self (hcomments : dropEmpty i.comments? = i.comments?)
    (hbody : dropEmpty i.bodyComments? = i.bodyComments?) : i.dropEmptyLists = i := by
  rw [dropEmptyLists, hcomments, hbody]
  cases i <;> rfl

end DropEmpty

section Absent

variable {i : Item}

theorem span?_eq_none (h : ¬ i.kind.capabilities.span = true) : i.span? = none :=
  Option.eq_none_iff_forall_ne_some.mpr fun _ hs => h (i.capabilities_of_span? hs)

theorem comments?_eq_none (h : ¬ i.kind.capabilities.comments = true) : i.comments? = none := by
  cases i <;> first | rfl | exact (h rfl).elim

end Absent

theorem readBody_eq_ok {ms : Json.Members} {body : Site} :
    readBody ms = .ok body ↔ ∃ w, ms.lookup "block" = some w ∧ Site.ofJson w = .ok body :=
  required_eq_ok

/-- The own fields of an item and its kind are all that it has outside the structural parts. -/
theorem agreesExcept_of_ownFieldsIn {i : Item} {ms : Json.Members}
    (hkind : ms.lookup "kind" = some (.str i.kind.name)) (hown : i.OwnFieldsIn ms)
    (hknown : ∀ m ∈ ms, m.1 ∈ knownMembers i.kind) :
    (Json.obj ms).AgreesExcept ["span", "comments", "block"] (i.toJson false) := by
  refine Json.agreesExcept_of_known hknown (fun m hm => i.mem_knownMembers hm) ?_
  intro name hname hopen
  by_cases hk : name = "kind"
  · rw [hk, hkind, lookup_members_kind]
  · have hfield : name ∉ Layout.structural := by
      simp only [Layout.structural, List.mem_cons] at hopen ⊢
      exact not_or.mpr ⟨hk, hopen⟩
    rw [i.lookup_members hfield]
    exact hown name hname hfield

theorem ownFieldsIn_of_agreesExcept {i : Item} {ms : Json.Members}
    (h : (Json.obj ms).AgreesExcept ["span", "comments", "block"] (i.toJson false)) :
    ms.lookup "kind" = some (.str i.kind.name) ∧ i.OwnFieldsIn ms := by
  have hlookup : ∀ name ∉ ["span", "comments", "block"],
      ms.lookup name = (i.members false).lookup name := h.get?_eq
  constructor
  · rw [hlookup "kind" (by decide), lookup_members_kind]
  · intro name _ hfield
    have hopen : name ∉ ["span", "comments", "block"] :=
      fun hmem => hfield (List.mem_cons_of_mem _ hmem)
    rw [hlookup name hopen, i.lookup_members hfield]

section Parts

variable {i : Item} {ms : Json.Members} (hknown : ∀ m ∈ ms, m.1 ∈ knownMembers i.kind)

include hknown

theorem described_span
    (h : i.kind.capabilities.span = true → optional "span" Span.ofJson ms = .ok i.span?) :
    Option.Rel Span.DescribedBy i.span? (ms.lookup "span") ∧ ∀ s ∈ i.span?, s.Integral := by
  by_cases hcan : i.kind.capabilities.span = true
  · exact optional_span.mp (h hcan)
  · have hname := mt (structural_knownMembers i.kind).2.1.mp hcan
    rw [span?_eq_none hcan, Json.lookup_eq_none_of_notMem hknown hname]
    exact ⟨.none, by simp⟩

theorem described_comments
    (h : i.kind.capabilities.comments = true → readComments ms = .ok i.comments?) :
    CommentsDescribedBy i.holdsComments i.comments? (ms.lookup "comments") ∧
      (∀ c ∈ i.comments?.getD [], c.span.Integral) ∧ dropEmpty i.comments? = i.comments? := by
  by_cases hcan : i.kind.capabilities.comments = true
  · rw [holdsComments, hcan]
    exact described_of_readComments (h hcan)
  · have hname := mt (structural_knownMembers i.kind).2.2.1.mp hcan
    rw [comments?_eq_none hcan, Json.lookup_eq_none_of_notMem hknown hname]
    exact ⟨rfl, by simp, rfl⟩

theorem described_body (h : ∀ body ∈ i.body?, readBody ms = .ok body) :
    Option.Rel Site.DescribedBy i.body? (ms.lookup "block") ∧
      ∀ body ∈ i.body?, (∀ s ∈ body.spans, s.Integral) ∧ body.dropEmptyList = body := by
  cases hbody : i.body? with
  | none =>
    have hcan : ¬ i.kind.capabilities.block = true := by simp [← body?_isSome, hbody]
    have hname := mt (structural_knownMembers i.kind).2.2.2.mp hcan
    rw [Json.lookup_eq_none_of_notMem hknown hname]
    exact ⟨.none, by simp⟩
  | some body =>
    obtain ⟨w, hw, hread⟩ := readBody_eq_ok.mp (h body hbody)
    obtain ⟨hdescribed, hrest⟩ := Site.described_of_ofJson hread
    rw [hw]
    refine ⟨.some hdescribed, fun b hb => ?_⟩
    rwa [← Option.some.inj hb]

end Parts

theorem spans_integral {i : Item} (hspan : ∀ s ∈ i.span?, s.Integral)
    (hcomments : ∀ c ∈ i.comments?.getD [], c.span.Integral)
    (hbody : ∀ body ∈ i.body?, ∀ s ∈ body.spans, s.Integral) : ∀ s ∈ i.spans, s.Integral := by
  intro s hs
  simp only [spans, List.mem_append] at hs
  rcases hs with (hs | hs) | hs
  · exact hspan s (Option.mem_toList.mp hs)
  · obtain ⟨c, hc, rfl⟩ := List.mem_map.mp hs
    exact hcomments c hc
  · cases hb : i.body? with
    | none => simp [hb] at hs
    | some body =>
      rw [hb] at hs
      exact hbody body hb s hs

theorem described_of_ofJson {v : Json} {i : Item} (h : ofJson v = .ok i) :
    i.DescribedBy v ∧ (∀ s ∈ i.spans, s.Integral) ∧ i.dropEmptyLists = i := by
  obtain ⟨ms, rfl, hkind, hread, hknown⟩ := ofJson_eq_ok.mp h
  obtain ⟨hown, hspan, hcomments, hbody⟩ := read_eq_ok.mp hread
  obtain ⟨hspan, hspanInt⟩ := described_span hknown hspan
  obtain ⟨hcomments, hcommentsInt, hdrop⟩ := described_comments hknown hcomments
  obtain ⟨hbody, hbodyRest⟩ := described_body hknown hbody
  refine ⟨⟨agreesExcept_of_ownFieldsIn hkind hown hknown, hspan, hcomments, hbody⟩, ?_, ?_⟩
  · exact spans_integral hspanInt hcommentsInt fun body hb => (hbodyRest body hb).1
  · refine dropEmptyLists_eq_self hdrop ?_
    cases hb : i.body? with
    | none => rw [bodyComments?, hb]; rfl
    | some body =>
      rw [bodyComments?, hb]
      exact congrArg Site.comments (hbodyRest body hb).2

theorem mem_known_of_described {i : Item} {ms : Json.Members} (h : i.DescribedBy (.obj ms)) :
    ∀ m ∈ ms, m.1 ∈ knownMembers i.kind := by
  obtain ⟨-, hspanName, hcommentsName, hblockName⟩ := structural_knownMembers i.kind
  refine h.agrees.mem_known (fun m hm => i.mem_knownMembers hm) fun name hname hsome => ?_
  obtain ⟨w, hw⟩ := Option.isSome_iff_exists.mp hsome
  have hget : (Json.obj ms).get? name = some w := hw
  simp only [List.mem_cons, List.not_mem_nil, or_false] at hname
  rcases hname with rfl | rfl | rfl
  · obtain ⟨s, hs, -⟩ := exists_of_rel_some (hget ▸ h.span)
    exact hspanName.mpr (i.capabilities_of_span? hs)
  · have hcomments := h.comments
    rw [hget] at hcomments
    exact hcommentsName.mpr hcomments.1
  · obtain ⟨body, hbody, -⟩ := exists_of_rel_some (hget ▸ h.block)
    exact hblockName.mpr (i.capabilities_of_body? hbody)

theorem readBody_of_described {i : Item} {ms : Json.Members} (h : i.DescribedBy (.obj ms))
    (hint : ∀ s ∈ i.spans, s.Integral) :
    ∀ body ∈ i.body?.map Site.dropEmptyList, readBody ms = .ok body := by
  intro body hmem
  obtain ⟨b, hb, rfl⟩ := Option.map_eq_some_iff.mp hmem
  have hrel : Option.Rel Site.DescribedBy i.body? (ms.lookup "block") := h.block
  rw [hb] at hrel
  cases hw : ms.lookup "block" with
  | none => rw [hw] at hrel; cases hrel
  | some w =>
    rw [hw] at hrel
    obtain ⟨hdescribed⟩ := hrel
    exact readBody_eq_ok.mpr
      ⟨w, hw, Site.ofJson_of_described hdescribed fun s hs => hint s (i.mem_spans_of_body? hb hs)⟩

theorem ofJson_of_described {v : Json} {i : Item} (h : i.DescribedBy v)
    (hint : ∀ s ∈ i.spans, s.Integral) : ofJson v = .ok i.dropEmptyLists := by
  obtain ⟨ms, rfl⟩ := h.agrees.isObject
  obtain ⟨hkind, hown⟩ := ownFieldsIn_of_agreesExcept h.agrees
  have hspan : optional "span" Span.ofJson ms = .ok i.span? :=
    optional_span.mpr ⟨h.span, fun s hs => hint s (i.mem_spans_of_span? hs)⟩
  have hcomments : readComments ms = .ok (dropEmpty i.comments?) :=
    readComments_of_described h.comments fun c hc => hint c.span (i.mem_spans_of_comments? hc)
  have hread : read i.dropEmptyLists.kind ms = .ok i.dropEmptyLists := by
    rw [read_eq_ok, OwnFieldsIn, kind_dropEmptyLists, ownMembers_dropEmptyLists,
      span?_dropEmptyLists, comments?_dropEmptyLists, body?_dropEmptyLists]
    exact ⟨hown, fun _ => hspan, fun _ => hcomments, readBody_of_described h hint⟩
  refine ofJson_eq_ok.mpr ⟨ms, rfl, ?_, hread, ?_⟩
  · rwa [kind_dropEmptyLists]
  · rw [kind_dropEmptyLists]
    exact mem_known_of_described h

end Item

/-- A value describes an outline. -/
structure DescribedBy (f : Outline) (v : Json) : Prop where
  agrees : v.AgreesExcept ["items", "comments"] (f.toJson false)
  items : ∃ vs, v.get? "items" = some (.arr vs) ∧ List.Forall₂ Item.DescribedBy f.items vs
  comments : CommentsDescribedBy true f.comments (v.get? "comments")

theorem names_toJson (f : Outline) :
    ∀ m ∈ ("items", Json.arr (f.items.map (Item.toJson false))) :: commentsMember false f.comments,
      m.1 ∈ ["items", "comments"] := by
  intro m hm
  rw [commentsMember_eq, List.mem_cons, mem_optionalMember] at hm
  rcases hm with rfl | ⟨_, _, rfl⟩ <;> simp

theorem ofJson_eq_ok {v : Json} {f : Outline} :
    ofJson v = .ok f ↔ ∃ ms, v = .obj ms ∧
      required "items" (array Item.ofJson) ms = .ok f.items ∧ readComments ms = .ok f.comments ∧
        ∀ m ∈ ms, m.1 ∈ ["items", "comments"] := by
  cases f
  simp [ofJson, object_eq_ok, Checked.seq_eq_ok, Checked.map_eq_ok, and_assoc, and_left_comm]

theorem described_of_ofJson {v : Json} {f : Outline} (h : ofJson v = .ok f) :
    f.DescribedBy v ∧ (∀ s ∈ f.spans, s.Integral) ∧ f.dropEmptyLists = f := by
  obtain ⟨ms, rfl, hitems, hcomments, hknown⟩ := ofJson_eq_ok.mp h
  obtain ⟨w, hw, hread⟩ := required_eq_ok.mp hitems
  obtain ⟨vs, rfl, hall⟩ := array_eq_ok.mp hread
  obtain ⟨hcomments, hint, hdrop⟩ := described_of_readComments hcomments
  obtain ⟨hitem, hall⟩ := (List.forall₂_and_left f.items vs).mp
    (hall.imp fun _ _ hi => (Item.described_of_ofJson hi).symm)
  refine ⟨⟨?_, ⟨vs, hw, hall⟩, hcomments⟩, ?_, ?_⟩
  · exact Json.agreesExcept_of_known hknown f.names_toJson fun name hname hopen =>
      (hopen hname).elim
  · intro s hs
    rcases List.mem_append.mp hs with hs | hs
    · obtain ⟨i, hi, hs⟩ := List.mem_flatMap.mp hs
      exact (hitem i hi).1 s hs
    · obtain ⟨c, hc, rfl⟩ := List.mem_map.mp hs
      exact hint c hc
  · have hmap : f.items.map Item.dropEmptyLists = f.items.map id :=
      List.map_congr_left fun i hi => (hitem i hi).2
    rw [dropEmptyLists, hmap, List.map_id, hdrop]

theorem ofJson_of_described {v : Json} {f : Outline} (h : f.DescribedBy v)
    (hint : ∀ s ∈ f.spans, s.Integral) : ofJson v = .ok f.dropEmptyLists := by
  obtain ⟨ms, rfl⟩ := h.agrees.isObject
  obtain ⟨vs, hvs, hall⟩ := h.items
  have hitem : ∀ i ∈ f.items, ∀ s ∈ i.spans, s.Integral :=
    fun i hi s hs => hint s (mem_spans_of_items hi hs)
  have hread : List.Forall₂ (fun i w => Item.ofJson w = .ok i)
      (f.items.map Item.dropEmptyLists) vs := by
    rw [List.forall₂_map_left_iff]
    exact ((List.forall₂_and_left _ _).mpr ⟨hitem, hall⟩).imp fun i w hi =>
      Item.ofJson_of_described hi.2 hi.1
  have hcomments := readComments_of_described h.comments
    fun c hc => hint c.span (mem_spans_of_comments hc)
  exact ofJson_eq_ok.mpr ⟨ms, rfl, required_of_lookup hvs (array_eq_ok.mpr ⟨vs, rfl, hread⟩),
    hcomments, h.agrees.mem_known f.names_toJson fun name hname _ => hname⟩

theorem decode_eq_ok {v : Json} {g : Outline} : decode v = .ok g ↔ ofJson v = .ok g := by
  unfold decode
  cases ofJson v <;> simp

theorem decode_eq_ok_iff {v : Json} {g : Outline} :
    decode v = .ok g ↔
      ∃ f : Outline, (∀ s ∈ f.spans, s.Integral) ∧ f.DescribedBy v ∧ f.dropEmptyLists = g := by
  rw [decode_eq_ok]
  constructor
  · intro h
    obtain ⟨hdescribed, hint, hdrop⟩ := described_of_ofJson h
    exact ⟨g, hint, hdescribed, hdrop⟩
  · rintro ⟨f, hint, hdescribed, rfl⟩
    exact ofJson_of_described hdescribed hint

theorem decode_toJson_of_decode {v : Json} {g : Outline} (h : decode v = .ok g) :
    decode (g.toJson false) = .ok g := by
  obtain ⟨-, hint, hdrop⟩ := described_of_ofJson (decode_eq_ok.mp h)
  rw [decode_eq_ok, ofJson_toJson hint, hdrop]

/-- Reading accepts exactly the values that describe an outline of integral spans and gives that
outline without its empty lists. What it gives is written in a form that reads back to the same
outline, and every other value ends in the failure of an invalid tree. -/
theorem decode_accepts_described (v : Json) :
    (∀ g, decode v = .ok g ↔
      ∃ f : Outline, (∀ s ∈ f.spans, s.Integral) ∧ f.DescribedBy v ∧ f.dropEmptyLists = g) ∧
    (∀ g, decode v = .ok g → decode (g.toJson false) = .ok g) ∧
    ((¬ ∃ f : Outline, (∀ s ∈ f.spans, s.Integral) ∧ f.DescribedBy v) →
      ∃ e, decode v = .error e ∧ e.failure.code = .invalidTree) := by
  refine ⟨fun _ => decode_eq_ok_iff, fun _ => decode_toJson_of_decode, fun hnone => ?_⟩
  cases h : decode v with
  | error e => exact ⟨e, rfl, rfl⟩
  | ok g =>
    obtain ⟨f, hint, hdescribed, -⟩ := decode_eq_ok_iff.mp h
    exact (hnone ⟨f, hint, hdescribed⟩).elim

end Outline
end Marginalia
