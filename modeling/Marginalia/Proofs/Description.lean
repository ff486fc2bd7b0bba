import Marginalia.Proofs.Codec

/-!
# Values that describe spans, comments and sites

A value describes something if it is what writing it gives, up to the order of
members, offsets that are left out because they are zero, and empty lists of
comments where comments may stand. Reading succeeds for the values that describe
something with integral spans, and gives what they describe without its empty
lists.
-/

namespace Marginalia

open Schema

namespace Json

/-- An object that has under every name the value that another object has, whatever their order;
some names are left open. -/
structure AgreesExcept (names : List String) (v w : Json) : Prop where
  isObject : ∃ ms, v = .obj ms
  get?_eq : ∀ name ∉ names, v.get? name = w.get? name

theorem lookup_isSome_of_mem {ms : Members} {m : String × Json} (h : m ∈ ms) :
    (ms.lookup m.1).isSome := by
  by_contra hnone
  rw [Option.not_isSome_iff_eq_none, List.lookup_eq_none_iff] at hnone
  simpa using hnone m h

theorem lookup_eq_none_of_notMem {known : List String} {ms : Members}
    (hms : ∀ m ∈ ms, m.1 ∈ known) {name : String} (h : name ∉ known) : ms.lookup name = none := by
  rw [List.lookup_eq_none_iff]
  intro m hm
  have hne : name ≠ m.1 := fun heq => h (heq ▸ hms m hm)
  simpa using hne

/-- Objects with known names only agree if they do so under the known names. -/
theorem agreesExcept_of_known {names known : List String} {ms ws : Members}
    (hms : ∀ m ∈ ms, m.1 ∈ known) (hws : ∀ m ∈ ws, m.1 ∈ known)
    (h : ∀ name ∈ known, name ∉ names → ms.lookup name = ws.lookup name) :
    AgreesExcept names (.obj ms) (.obj ws) := by
  refine ⟨⟨ms, rfl⟩, fun name hname => ?_⟩
  by_cases hknown : name ∈ known
  · exact h name hknown hname
  · change ms.lookup name = ws.lookup name
    rw [lookup_eq_none_of_notMem hms hknown, lookup_eq_none_of_notMem hws hknown]

theorem AgreesExcept.mem_known {names known : List String} {ms ws : Members}
    (h : AgreesExcept names (.obj ms) (.obj ws)) (hws : ∀ m ∈ ws, m.1 ∈ known)
    (hnames : ∀ name ∈ names, (ms.lookup name).isSome → name ∈ known) :
    ∀ m ∈ ms, m.1 ∈ known := by
  intro m hm
  have hsome := lookup_isSome_of_mem hm
  by_cases hname : m.1 ∈ names
  · exact hnames m.1 hname hsome
  · by_contra hknown
    have heq : ms.lookup m.1 = ws.lookup m.1 := h.get?_eq m.1 hname
    rw [heq, lookup_eq_none_of_notMem hws hknown] at hsome
    exact Bool.false_ne_true hsome

end Json

theorem exists_of_rel_some {α β : Type} {r : α → β → Prop} {x : Option α} {b : β}
    (h : Option.Rel r x (some b)) : ∃ a, x = some a ∧ r a b := by
  cases h with
  | some h => exact ⟨_, rfl, h⟩

namespace Span

def offsetNames : List String := ["startOffset", "endOffset"]

/-- A value describes a span: an offset may be missing if it is zero. -/
structure DescribedBy (s : Span) (v : Json) : Prop where
  agrees : v.AgreesExcept offsetNames s.toJson
  offset : ∀ name ∈ offsetNames, v.get? name = s.toJson.get? name ∨
    v.get? name = none ∧ s.toJson.get? name = some (.num (.int 0))

theorem required_integer {name : String} {least : Int} {ms : Json.Members} {x : Number} :
    required name (integer least) ms = .ok x ↔
      ms.lookup name = some (.num x) ∧ x.IsFrom least := by
  simp [required_eq_ok, integer_eq_ok, Number.IsFrom]

theorem withDefault_integer {name : String} {ms : Json.Members} {x : Number} :
    withDefault name (integer 0) (.int 0) ms = .ok x ↔
      (ms.lookup name = some (.num x) ∨ ms.lookup name = none ∧ x = .int 0) ∧ x.IsFrom 0 := by
  simp only [withDefault_eq_ok, integer_eq_ok]
  constructor
  · rintro (⟨v, hv, rfl, hx⟩ | ⟨hnone, rfl⟩)
    · exact ⟨.inl hv, hx⟩
    · exact ⟨.inr ⟨hnone, rfl⟩, 0, rfl, le_refl 0⟩
  · rintro ⟨hv | ⟨hnone, rfl⟩, hx⟩
    · exact .inl ⟨_, hv, rfl, hx⟩
    · exact .inr ⟨hnone, rfl⟩

theorem describedBy_obj {s : Span} {ms : Json.Members} :
    s.DescribedBy (.obj ms) ↔
      (∀ m ∈ ms, m.1 ∈ ["startLine", "startColumn", "endLine", "endColumn", "startOffset",
        "endOffset"]) ∧
      ms.lookup "startLine" = some (.num s.start.line) ∧
      ms.lookup "startColumn" = some (.num s.start.column) ∧
      ms.lookup "endLine" = some (.num s.stop.line) ∧
      ms.lookup "endColumn" = some (.num s.stop.column) ∧
      (ms.lookup "startOffset" = some (.num s.startOffset) ∨
        ms.lookup "startOffset" = none ∧ s.startOffset = .int 0) ∧
      (ms.lookup "endOffset" = some (.num s.endOffset) ∨
        ms.lookup "endOffset" = none ∧ s.endOffset = .int 0) := by
  constructor
  · rintro ⟨hagrees, hoffset⟩
    have hlookup : ∀ name ∉ offsetNames, ms.lookup name = s.toJson.get? name := hagrees.get?_eq
    refine ⟨hagrees.mem_known (by simp) (by simp [offsetNames]), hlookup _ (by decide),
      hlookup _ (by decide), hlookup _ (by decide), hlookup _ (by decide), ?_, ?_⟩
    · simpa [Json.get?, toJson, List.lookup_cons] using hoffset "startOffset" (by decide)
    · simpa [Json.get?, toJson, List.lookup_cons] using hoffset "endOffset" (by decide)
  · rintro ⟨hknown, hsl, hsc, hel, hec, hso, heo⟩
    refine ⟨Json.agreesExcept_of_known hknown (by simp) ?_, ?_⟩
    · simp [offsetNames, hsl, hsc, hel, hec, List.lookup_cons]
    · simp [offsetNames, Json.get?, toJson, List.lookup_cons, hso, heo, -List.lookup_eq_none_iff]

theorem ofJson_eq_ok {v : Json} {s : Span} :
    ofJson v = .ok s ↔ s.DescribedBy v ∧ s.Integral := by
  constructor
  · intro h
    obtain ⟨ms, rfl, hread, hknown⟩ := object_eq_ok.mp h
    simp only [Checked.seq_eq_ok, Checked.map_eq_ok, required_integer, withDefault_integer,
      ↓existsAndEq, and_true] at hread
    obtain ⟨eo, ⟨heo, heo'⟩, so, ec, el, sc, sl, ⟨⟨hso, hso'⟩, ⟨hec, hec'⟩, ⟨hel, hel'⟩,
      ⟨hsc, hsc'⟩, hsl, hsl'⟩, rfl⟩ := hread
    exact ⟨describedBy_obj.mpr ⟨hknown, hsl, hsc, hel, hec, hso, heo⟩,
      ⟨hsl', hsc', hel', hec', hso', heo'⟩⟩
  · rintro ⟨hdescribed, hint⟩
    obtain ⟨ms, rfl⟩ := hdescribed.agrees.isObject
    obtain ⟨hknown, hsl, hsc, hel, hec, hso, heo⟩ := describedBy_obj.mp hdescribed
    refine object_obj ?_ hknown
    rw [required_integer.mpr ⟨hsl, hint.startLine⟩, required_integer.mpr ⟨hsc, hint.startColumn⟩,
      required_integer.mpr ⟨hel, hint.endLine⟩, required_integer.mpr ⟨hec, hint.endColumn⟩,
      withDefault_integer.mpr ⟨hso, hint.startOffset⟩,
      withDefault_integer.mpr ⟨heo, hint.endOffset⟩]
    rfl

end Span

namespace Comment

structure DescribedBy (c : Comment) (v : Json) : Prop where
  agrees : v.AgreesExcept ["span"] (c.toJson false)
  span : ∃ w, v.get? "span" = some w ∧ c.span.DescribedBy w

theorem choice_eq_ok_name {v : Json} {k : Kind} :
    choice Kind.choices v = .ok k ↔ v = .str k.name := by
  have hlookup : ∀ s, Kind.choices.lookup s = some k ↔ s = k.name := by
    intro s
    cases k <;> simp [Kind.choices, Kind.all, Kind.name, List.lookup_cons] <;> grind
  simp [choice_eq_ok, hlookup]

theorem describedBy_obj {c : Comment} {ms : Json.Members} :
    c.DescribedBy (.obj ms) ↔
      (∀ m ∈ ms, m.1 ∈ ["text", "kind", "span"]) ∧ ms.lookup "text" = some (.str c.text) ∧
        ms.lookup "kind" = some (.str c.kind.name) ∧
        ∃ w, ms.lookup "span" = some w ∧ c.span.DescribedBy w := by
  constructor
  · rintro ⟨hagrees, hspan⟩
    have hlookup : ∀ name ∉ ["span"], ms.lookup name = (c.toJson false).get? name := hagrees.get?_eq
    exact ⟨hagrees.mem_known (by simp) (by simp), hlookup _ (by decide), hlookup _ (by decide),
      hspan⟩
  · rintro ⟨hknown, htext, hkind, hspan⟩
    refine ⟨Json.agreesExcept_of_known hknown (by simp) ?_, hspan⟩
    simp [htext, hkind, List.lookup_cons]

theorem ofJson_eq_ok {v : Json} {c : Comment} :
    ofJson v = .ok c ↔ c.DescribedBy v ∧ c.span.Integral := by
  constructor
  · intro h
    obtain ⟨ms, rfl, hread, hknown⟩ := object_eq_ok.mp h
    simp only [Checked.seq_eq_ok, Checked.map_eq_ok, required_eq_ok, string_eq_ok,
      choice_eq_ok_name, Span.ofJson_eq_ok, ↓existsAndEq, and_true] at hread
    obtain ⟨s, ⟨w, hw, hs, hint⟩, k, t, ⟨hk, ht⟩, rfl⟩ := hread
    exact ⟨describedBy_obj.mpr ⟨hknown, ht, hk, w, hw, hs⟩, hint⟩
  · rintro ⟨hdescribed, hint⟩
    obtain ⟨ms, rfl⟩ := hdescribed.agrees.isObject
    obtain ⟨hknown, htext, hkind, w, hw, hspan⟩ := describedBy_obj.mp hdescribed
    refine object_obj ?_ hknown
    rw [required_of_lookup htext (string_eq_ok.mpr rfl),
      required_of_lookup hkind (choice_eq_ok_name.mpr rfl),
      required_of_lookup hw (Span.ofJson_eq_ok.mpr ⟨hspan, hint⟩)]
    rfl

end Comment

namespace Outline

/-- What stands under the name of a list of comments describes the list. A list that is absent or
empty is left out, or written as an empty array where comments may stand. -/
def CommentsDescribedBy (may : Bool) (cs : Option (List Comment)) : Option Json → Prop
  | none => cs.getD [] = []
  | some w => may = true ∧ ∃ vs, w = .arr vs ∧ List.Forall₂ Comment.DescribedBy (cs.getD []) vs

theorem array_comments {w : Json} {cs : List Comment} :
    array Comment.ofJson w = .ok cs ↔
      (∃ vs, w = .arr vs ∧ List.Forall₂ Comment.DescribedBy cs vs) ∧
        ∀ c ∈ cs, c.span.Integral := by
  simp only [array_eq_ok, Comment.ofJson_eq_ok, and_comm (b := Span.Integral _),
    List.forall₂_and_left]
  grind

theorem optional_span {ms : Json.Members} {x : Option Span} :
    optional "span" Span.ofJson ms = .ok x ↔
      Option.Rel Span.DescribedBy x (ms.lookup "span") ∧ ∀ s ∈ x, s.Integral := by
  rw [optional_eq_ok]
  cases x <;> cases ms.lookup "span" <;> simp [Span.ofJson_eq_ok]

theorem getD_dropEmpty (cs : Option (List Comment)) : (dropEmpty cs).getD [] = cs.getD [] := by
  rcases cs with _ | _ | ⟨c, cs⟩ <;> rfl

theorem dropEmpty_some_getD (cs : Option (List Comment)) :
    dropEmpty (some (cs.getD [])) = dropEmpty cs := by
  rcases cs with _ | _ | ⟨c, cs⟩ <;> rfl

theorem dropEmpty_eq_none {cs : Option (List Comment)} (h : cs.getD [] = []) :
    dropEmpty cs = none := by
  rw [← dropEmpty_some_getD, h]
  rfl

theorem described_of_readComments {ms : Json.Members} {x : Option (List Comment)}
    (h : readComments ms = .ok x) :
    CommentsDescribedBy true x (ms.lookup "comments") ∧ (∀ c ∈ x.getD [], c.span.Integral) ∧
      dropEmpty x = x := by
  obtain ⟨y, hy, rfl⟩ := Checked.map_eq_ok.mp h
  rw [optional_eq_ok] at hy
  generalize ms.lookup "comments" = w at hy ⊢
  cases hy with
  | none => exact ⟨rfl, by simp [dropEmpty], rfl⟩
  | @some cs w hcs =>
    obtain ⟨hdescribed, hint⟩ := array_comments.mp hcs
    refine ⟨⟨rfl, ?_⟩, ?_, dropEmpty_dropEmpty _⟩
    · rwa [getD_dropEmpty]
    · rwa [getD_dropEmpty]

theorem readComments_of_described {may : Bool} {ms : Json.Members} {cs : Option (List Comment)}
    (h : CommentsDescribedBy may cs (ms.lookup "comments"))
    (hint : ∀ c ∈ cs.getD [], c.span.Integral) : readComments ms = .ok (dropEmpty cs) := by
  cases hlookup : ms.lookup "comments" with
  | none =>
    rw [hlookup] at h
    have hread : optional "comments" (array Comment.ofJson) ms = .ok none := by
      rw [optional_eq_ok, hlookup]
      exact .none
    rw [readComments, hread, Checked.map_ok, dropEmpty_eq_none h]
    rfl
  | some w =>
    rw [hlookup] at h
    have hread : optional "comments" (array Comment.ofJson) ms = .ok (some (cs.getD [])) := by
      rw [optional_eq_ok, hlookup]
      exact .some (array_comments.mpr ⟨h.2, hint⟩)
    rw [readComments, hread, Checked.map_ok, dropEmpty_some_getD]

namespace Site

structure DescribedBy (s : Site) (v : Json) : Prop where
  agrees : v.AgreesExcept ["span", "comments"] (.obj (s.members false))
  span : Option.Rel Span.DescribedBy s.span (v.get? "span")
  comments : CommentsDescribedBy true s.comments (v.get? "comments")

theorem read_eq_ok {ms : Json.Members} {s : Site} :
    Site.read ms = .ok s ↔
      optional "span" Span.ofJson ms = .ok s.span ∧ readComments ms = .ok s.comments := by
  cases s
  simp [Site.read, Checked.seq_eq_ok, Checked.map_eq_ok, and_comm]

theorem mem_members {s : Site} : ∀ m ∈ s.members false, m.1 ∈ ["span", "comments"] := by
  intro m hm
  rw [Site.members_eq, List.mem_append, mem_optionalMember, mem_optionalMember] at hm
  rcases hm with ⟨_, _, rfl⟩ | ⟨_, _, rfl⟩ <;> simp

theorem spans_integral {s : Site} (hspan : ∀ x ∈ s.span, x.Integral)
    (hcomments : ∀ c ∈ s.comments.getD [], c.span.Integral) : ∀ x ∈ s.spans, x.Integral := by
  intro x hx
  rcases List.mem_append.mp hx with hx | hx
  · exact hspan x (Option.mem_toList.mp hx)
  · obtain ⟨c, hc, rfl⟩ := List.mem_map.mp hx
    exact hcomments c hc

theorem described_of_ofJson {v : Json} {s : Site} (h : Site.ofJson v = .ok s) :
    s.DescribedBy v ∧ (∀ x ∈ s.spans, x.Integral) ∧ s.dropEmptyList = s := by
  obtain ⟨ms, rfl, hread, hknown⟩ := object_eq_ok.mp h
  obtain ⟨hspan, hcomments⟩ := read_eq_ok.mp hread
  obtain ⟨hspan, hint⟩ := optional_span.mp hspan
  obtain ⟨hcomments, hint', hdrop⟩ := described_of_readComments hcomments
  refine ⟨⟨?_, hspan, hcomments⟩, spans_integral hint hint', ?_⟩
  · exact Json.agreesExcept_of_known hknown mem_members fun name hname hopen => (hopen hname).elim
  · rw [dropEmptyList, hdrop]

theorem ofJson_of_described {v : Json} {s : Site} (h : s.DescribedBy v)
    (hint : ∀ x ∈ s.spans, x.Integral) : Site.ofJson v = .ok s.dropEmptyList := by
  obtain ⟨ms, rfl⟩ := h.agrees.isObject
  have hspan := optional_span.mpr ⟨h.span, fun x hx => hint x (mem_spans_of_span hx)⟩
  have hcomments := readComments_of_described h.comments
    fun c hc => hint c.span (mem_spans_of_comments hc)
  exact object_obj (read_eq_ok.mpr ⟨hspan, hcomments⟩)
    (h.agrees.mem_known mem_members fun name hname _ => hname)

end Site

end Outline
end Marginalia
