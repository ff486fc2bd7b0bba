import Marginalia.Proofs.Acceptance
import Marginalia.Proofs.Building

/-!
# What is produced can be stored

An outline is produced by building it from concrete syntax or by reading it,
and then by annotations and by writing and reading it again, in any order.
Every such outline has spans that can be stored and no empty list of comments:
each way to produce one keeps this. So writing it and reading the text gives
the same outline.
-/

namespace Marginalia

namespace Comment

open Text

theorem storable_of_mem_extract {wanted : Wanted} {source : String} {c : Comment}
    (hsource : width source.toList < 2 ^ 53 - 1) (h : c ∈ extract wanted source) :
    c.span.Storable := by
  rw [extract, ofLines_eq_flatMap] at h
  obtain ⟨p, hp, hc⟩ := List.mem_flatMap.mp h
  obtain ⟨m, hm, rfl⟩ := List.mem_map.mp hc
  obtain ⟨hend, inner, hw⟩ := writtenIn_of_mem_scanLine hp hm
  have hwidth := width_le_of_getElem?_lines hw.line_eq
  have hlines := length_lines_le source.toList
  have hpos := hw.number_pos
  have hnumber := hw.number_le
  have hcolumn := hw.startColumn_lt
  refine LineIndex.storable_span ?_ ?_ ?_
  · change width source.toList < 2 ^ 53
    omega
  · exact Position.storable_ofNat hpos (by omega) (by omega)
  · exact Position.storable_ofNat hpos (by omega) (by omega)

end Comment

namespace Outline

open Annotation Grammar

theorem Item.mem_spans {i : Item} {s : Span} :
    s ∈ i.spans ↔
      (i.span? = some s ∨ i.bodySpan? = some s) ∨ ∃ c ∈ i.allComments, c.span = s := by
  cases hbody : i.body? with
  | none => simp [spans, bodySpan?, allComments, bodyComments?, hbody]
  | some body =>
    simp only [spans, Site.spans, bodySpan?, allComments, bodyComments?, hbody, Option.map_some,
      Option.getD_some, Option.bind_some, List.mem_append, List.mem_map, Option.mem_toList,
      or_and_right, exists_or]
    exact or_or_or_comm

/-- The spans of an outline are those of its nodes and of its comments. -/
theorem mem_spans {f : Outline} {s : Span} :
    s ∈ f.spans ↔ (∃ n ∈ f.nodeSpans, n.span = s) ∨ ∃ c ∈ f.allComments, c.span = s := by
  rw [exists_mem_nodeSpans]
  simp only [spans, allComments, List.mem_append, List.mem_flatMap, List.mem_map, Item.mem_spans,
    and_or_left, exists_or, or_and_right, or_assoc]
  grind

theorem dropEmpty_eq_self_iff {cs : Option (List Comment)} :
    dropEmpty cs = cs ↔ cs ≠ some [] := by
  rcases cs with _ | _ | ⟨c, cs⟩ <;> simp [dropEmpty, nonEmpty]

theorem listAt_dropEmptyLists (f : Outline) (p : Slot) :
    f.dropEmptyLists.listAt p = dropEmpty (f.listAt p) := by
  cases p with
  | item k =>
    simp only [listAt, dropEmptyLists, List.getElem?_map]
    cases f.items[k]? with
    | none => rfl
    | some i => exact i.comments?_dropEmptyLists
  | body k =>
    simp only [listAt, dropEmptyLists, List.getElem?_map]
    cases f.items[k]? with
    | none => rfl
    | some i => exact i.bodyComments?_dropEmptyLists
  | file => rfl

theorem dropEmptyLists_eq_self_iff {f : Outline} :
    f.dropEmptyLists = f ↔ ∀ p, f.listAt p ≠ some [] := by
  constructor
  · intro h p
    have hlist := f.listAt_dropEmptyLists p
    rw [h] at hlist
    exact dropEmpty_eq_self_iff.mp hlist.symm
  · intro h
    have hitems : f.items.map Item.dropEmptyLists = f.items.map id := by
      refine List.map_congr_left fun i hi => ?_
      obtain ⟨k, hk⟩ := List.mem_iff_getElem?.mp hi
      have hown := h (.item k)
      have hbody := h (.body k)
      simp only [listAt, hk, Option.bind_some] at hown hbody
      exact Item.dropEmptyLists_eq_self (dropEmpty_eq_self_iff.mpr hown)
        (dropEmpty_eq_self_iff.mpr hbody)
    have hfile : dropEmpty f.comments = f.comments := dropEmpty_eq_self_iff.mpr (h .file)
    rw [dropEmptyLists, hitems, List.map_id, hfile]

/-- The outlines that can be produced where all positions are counts: one is built from regular
nodes or read from a value, the result of annotating another with any source and any options, or
read back from what another is written as, be it a value or a text. -/
inductive Produced : Outline → Prop
  | built {root : Node} {source : String} (hroot : root.Regular)
      (hsource : Text.width source.toList < 2 ^ 53 - 1) : Produced (build root source)
  | decoded {v : Json} {f : Outline} (h : decode v = .ok f)
      (hbound : ∀ s ∈ f.spans, ∀ x ∈ s.numbers, x < .int (2 ^ 53 - 1)) : Produced f
  | annotated {f : Outline} {source : String} (options : Options) (h : Produced f)
      (hsource : Text.width source.toList < 2 ^ 53 - 1) : Produced (annotate options f source).1
  | recoded {f g : Outline} (h : Produced f) (hg : decode (f.toJson false) = .ok g) : Produced g
  | reloaded {f g : Outline} (pretty : Bool) (h : Produced f)
      (hg : decodeText (f.toText ⟨false, pretty⟩) = .ok g) : Produced g

/-- An outline that is kept by writing it and reading the text. -/
structure Stable (f : Outline) : Prop where
  storable : ∀ s ∈ f.spans, s.Storable
  listAt_ne : ∀ p, f.listAt p ≠ some []

theorem Stable.decode_eq {f : Outline} (h : f.Stable) : decode (f.toJson false) = .ok f := by
  have hread := ofJson_toJson fun s hs => (h.storable s hs).toIntegral
  rw [dropEmptyLists_eq_self_iff.mpr h.listAt_ne] at hread
  exact decode_eq_ok.mpr hread

theorem Stable.decodeText_eq {f : Outline} (h : f.Stable) (pretty : Bool) :
    decodeText (f.toText ⟨false, pretty⟩) = .ok f := by
  have hread := (exact_toJson h.storable).read?_render pretty
  rw [decodeText, toText, hread]
  exact h.decode_eq

theorem stable_build {root : Node} {source : String} (hroot : root.Regular)
    (hsource : Text.width source.toList < 2 ^ 53 - 1) : (build root source).Stable := by
  constructor
  · intro s hs
    rcases mem_spans.mp hs with ⟨n, hn, rfl⟩ | ⟨c, hc, -⟩
    · exact storable_of_mem_nodeSpans_build hroot (by omega) hn
    · rw [← erase_build, allComments_erase] at hc
      exact (List.not_mem_nil hc).elim
  · intro p
    rw [← erase_build, listAt_erase]
    simp

theorem stable_of_decode {v : Json} {f : Outline} (h : decode v = .ok f)
    (hbound : ∀ s ∈ f.spans, ∀ x ∈ s.numbers, x < .int (2 ^ 53 - 1)) : f.Stable := by
  obtain ⟨-, hint, hdrop⟩ := described_of_ofJson (decode_eq_ok.mp h)
  refine ⟨fun s hs => ⟨hint s hs, fun x hx => ?_⟩, dropEmptyLists_eq_self_iff.mp hdrop⟩
  refine Number.lt_trans (hbound s hs x hx) ?_
  rw [Number.int_lt_int]
  decide

theorem stable_annotate {f : Outline} {source : String} (options : Options) (h : f.Stable)
    (hsource : Text.width source.toList < 2 ^ 53 - 1) :
    (annotate options f source).1.Stable := by
  constructor
  · intro s hs
    rcases mem_spans.mp hs with ⟨n, hn, rfl⟩ | ⟨c, hc, rfl⟩
    · rw [nodeSpans_annotate] at hn
      exact h.storable n.span (mem_spans.mpr (.inl ⟨n, hn, rfl⟩))
    · rw [allComments_annotate] at hc
      have hmem := (takenFrom_append_owned_perm options f source).mem_iff.mp hc
      exact Comment.storable_of_mem_extract hsource hmem
  · intro p hp
    rw [listAt_annotate] at hp
    exact (nonEmpty_eq_some hp).2 rfl

theorem Produced.stable {f : Outline} (h : Produced f) : f.Stable := by
  induction h with
  | built hroot hsource => exact stable_build hroot hsource
  | decoded hdecode hbound => exact stable_of_decode hdecode hbound
  | annotated options _ hsource ih => exact stable_annotate options ih hsource
  | recoded _ hg ih =>
    rw [ih.decode_eq] at hg
    exact Except.ok.inj hg ▸ ih
  | reloaded pretty _ hg ih =>
    rw [ih.decodeText_eq pretty] at hg
    exact Except.ok.inj hg ▸ ih

/-- An item carries what its kind can carry, and is written with exactly that. -/
structure Item.Fits (i : Item) : Prop where
  span : i.span?.isSome → i.kind.capabilities.span
  comments : i.comments?.isSome → i.kind.capabilities.comments
  block : i.body?.isSome ↔ i.kind = .fn ∨ i.kind = .trait ∨ i.kind = .impl
  written_span : (i.toJson false).get? "span" = i.span?.map Span.toJson
  written_comments : (i.toJson false).get? "comments" = i.comments?.map commentsJson
  written_block : (i.toJson false).get? "block" = i.body?.map fun b => .obj (b.members false)

theorem Item.fits {i : Item} (h : i.comments? ≠ some []) : i.Fits where
  span hspan := by
    obtain ⟨s, hs⟩ := Option.isSome_iff_exists.mp hspan
    exact i.capabilities_of_span? hs
  comments hcomments := by
    by_contra hcan
    simp [comments?_eq_none hcan] at hcomments
  block := by
    rw [body?_isSome]
    cases i.kind <;> decide
  written_span := i.lookup_members_span
  written_comments := by
    rw [← dropEmpty_eq_self_iff.mpr h]
    exact i.lookup_members_comments
  written_block := i.lookup_members_block

/-- Whatever is produced comes back unchanged when it is written and read, has no empty list of
comments, and carries on each item only what the kind of the item can carry. -/
theorem produced_reloads_unchanged {f : Outline} (h : Produced f) :
    (∀ pretty, decodeText (f.toText ⟨false, pretty⟩) = .ok f) ∧
      (∀ p, f.listAt p ≠ some []) ∧ ∀ i ∈ f.items, i.Fits := by
  refine ⟨h.stable.decodeText_eq, h.stable.listAt_ne, fun i hi => ?_⟩
  obtain ⟨k, hk⟩ := List.mem_iff_getElem?.mp hi
  have hlist := h.stable.listAt_ne (.item k)
  simp only [listAt, hk, Option.bind_some] at hlist
  exact Item.fits hlist

/-- A function with a name past the end of its source and a body without an end, after an
annotation. -/
theorem produced_reloads_unchanged_annotated :
    let source := "// a\nfn f(); // b"
    let name : Node := .mk "identifier" "f" ⟨.int 1, .int 3⟩ ⟨.int 9, .int 4⟩ [] true (some "name")
      false false
    let body : Node := .mk "block" "" ⟨.int 1, .int 6⟩ ⟨.int 1, .int 9007199254740990⟩ [] true
      (some "body") false false
    let item : Node := .mk "function_item" "" ⟨.int 1, .int 0⟩ ⟨.int 1, .int 12⟩ [name, body] true
      none false false
    let root : Node := .mk "source_file" source ⟨.int 0, .int 0⟩ ⟨.int 1, .int 12⟩ [item] true none
      false false
    let f := (annotate .preferred (build root source) source).1
    Produced f ∧ f.allComments.length = 2 ∧
      (∀ pretty, decodeText (f.toText ⟨false, pretty⟩) = .ok f) := by
  intro source name body item root f
  have hpoint : ∀ row column : Nat, row < 2 ^ 53 - 1 → column < 2 ^ 53 - 1 →
      Point.Regular ⟨.int row, .int column⟩ :=
    fun row column hrow hcolumn => ⟨⟨row, rfl, hrow⟩, ⟨column, rfl, hcolumn⟩⟩
  have hname : name.Regular :=
    .mk (hpoint 1 3 (by decide) (by decide)) (hpoint 9 4 (by decide) (by decide)) (by simp)
  have hbody : body.Regular :=
    .mk (hpoint 1 6 (by decide) (by decide)) (hpoint 1 9007199254740990 (by decide) (by decide))
      (by simp)
  have hitem : item.Regular :=
    .mk (hpoint 1 0 (by decide) (by decide)) (hpoint 1 12 (by decide) (by decide))
      (by simp [hname, hbody])
  have hroot : root.Regular :=
    .mk (hpoint 0 0 (by decide) (by decide)) (hpoint 1 12 (by decide) (by decide)) (by simp [hitem])
  have hsource : Text.width source.toList < 2 ^ 53 - 1 := by decide +kernel
  have h : Produced f := .annotated .preferred (.built hroot hsource) hsource
  exact ⟨h, by decide +kernel, (produced_reloads_unchanged h).1⟩

end Outline
end Marginalia
