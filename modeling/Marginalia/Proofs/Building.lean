import Marginalia.Outline.Build
import Marginalia.Proofs.Codec
import Marginalia.Proofs.Erasure

/-!
# Built outlines

A built outline has no list of comments, and each of its spans runs between the
ends of a node two levels below the root. Where rows and columns are integers
from zero that leave room for one more, such a span can be stored, wherever it
lies: a position outside the source has the end of the source as its offset.
-/

namespace Marginalia

/-- A number that counts rows, columns or units: an integer from zero, below the last one that is
certain to be exact. -/
def Number.IsCount (x : Number) : Prop := ∃ n : Nat, x = .int n ∧ n < 2 ^ 53 - 1

/-- A number that can be stored: an integer from the given one on, small enough to be exact. -/
def Number.InRange (least : Int) (x : Number) : Prop :=
  ∃ n : Int, x = .int n ∧ least ≤ n ∧ n < 2 ^ 53

namespace Number

theorem InRange.isFrom {least : Int} {x : Number} (h : x.InRange least) : x.IsFrom least := by
  obtain ⟨n, hx, hn, -⟩ := h
  exact ⟨n, hx, hn⟩

theorem InRange.lt {least : Int} {x : Number} (h : x.InRange least) : x < .int (2 ^ 53) := by
  obtain ⟨n, rfl, -, hn⟩ := h
  rwa [int_lt_int]

theorem IsCount.inRange {x : Number} (h : x.IsCount) : x.InRange 0 := by
  obtain ⟨n, hx, hn⟩ := h
  exact ⟨n, hx, by omega, by omega⟩

theorem IsCount.inRange_addInt {x : Number} (h : x.IsCount) : (x.addInt 1).InRange 1 := by
  obtain ⟨n, rfl, hn⟩ := h
  have htwo : twoTo 53 = 2 ^ 53 := rfl
  exact ⟨n + 1, addInt_int (by omega), by omega, by omega⟩

end Number

/-- A position that can be stored. -/
structure Position.Storable (p : Position) : Prop where
  line : p.line.InRange 1
  column : p.column.InRange 0

theorem Position.storable_ofNat {line column : Nat} (hpos : 1 ≤ line) (hline : line < 2 ^ 53)
    (hcolumn : column < 2 ^ 53) : (Position.ofNat line column).Storable :=
  ⟨⟨line, rfl, by omega, by omega⟩, ⟨column, rfl, by omega, by omega⟩⟩

namespace LineIndex

theorem exists_offsetOf_eq (index : LineIndex) {p : Position} (h : p.column.IsFrom 0) :
    ∃ n : Nat, index.offsetOf p = .int n ∧ n ≤ index.length := by
  obtain ⟨c, hc, hpos⟩ := h
  unfold offsetOf
  cases index.start? p.line with
  | none => exact ⟨index.length, rfl, le_rfl⟩
  | some start =>
    refine ⟨min (start + c.toNat) index.length, ?_, min_le_right _ _⟩
    simp only [offsetFrom, hc]
    rw [if_pos (by omega), Number.int.injEq]
    omega

variable {index : LineIndex}

theorem inRange_offsetOf (hlength : index.length < 2 ^ 53) {p : Position} (h : p.Storable) :
    (index.offsetOf p).InRange 0 := by
  obtain ⟨n, hn, hle⟩ := index.exists_offsetOf_eq h.column.isFrom
  exact ⟨n, hn, by omega, by omega⟩

theorem storable_span (hlength : index.length < 2 ^ 53) {start stop : Position}
    (hstart : start.Storable) (hstop : stop.Storable) : (index.span start stop).Storable := by
  have hso : (index.offsetOf start).InRange 0 := inRange_offsetOf hlength hstart
  have heo : (index.offsetOf stop).InRange 0 := inRange_offsetOf hlength hstop
  exact
    { startLine := hstart.line.isFrom
      startColumn := hstart.column.isFrom
      endLine := hstop.line.isFrom
      endColumn := hstop.column.isFrom
      startOffset := hso.isFrom
      endOffset := heo.isFrom
      bounded := by
        simp only [Span.numbers, span, List.forall_mem_cons]
        exact ⟨hstart.line.lt, hstart.column.lt, hstop.line.lt, hstop.column.lt, hso.lt, heo.lt,
          by simp⟩ }

end LineIndex

namespace Grammar

/-- A point whose row and column are counts. -/
structure Point.Regular (p : Point) : Prop where
  row : p.row.IsCount
  column : p.column.IsCount

theorem Point.Regular.storable {p : Point} (h : p.Regular) : p.position.Storable :=
  ⟨h.row.inRange_addInt, h.column.inRange⟩

namespace Node

/-- A node with regular ends, all of whose children are regular. -/
inductive Regular : Node → Prop
  | mk {type text : String} {start stop : Point} {children : List Node} {isNamed : Bool}
      {field : Option String} {hasError isMissing : Bool} (hstart : start.Regular)
      (hstop : stop.Regular) (hchildren : ∀ c ∈ children, Regular c) :
      Regular (.mk type text start stop children isNamed field hasError isMissing)

variable {n c : Node}

theorem Regular.start (h : n.Regular) : n.start.Regular := by
  cases h with
  | mk hstart _ _ => exact hstart

theorem Regular.stop (h : n.Regular) : n.stop.Regular := by
  cases h with
  | mk _ hstop _ => exact hstop

theorem Regular.of_mem_children (h : n.Regular) (hc : c ∈ n.children) : c.Regular := by
  cases h with
  | mk _ _ hchildren => exact hchildren c hc

end Node
end Grammar

namespace Outline

open Grammar (Node)

namespace Item

variable {index : LineIndex} {n : Node} {i : Item}

/-- The sites of an item that a node is: they have no comments, and a span of theirs is that of a
child of the node. -/
structure BuiltFrom (index : LineIndex) (n : Node) (i : Item) : Prop where
  erase_eq : i.erase = i
  span : ∀ s, i.span? = some s → ∃ c ∈ n.children, spanOf index c = s
  bodySpan : ∀ s, i.bodySpan? = some s → ∃ c ∈ n.children, spanOf index c = s

theorem exists_of_map_find? {test : Node → Bool} {s : Span}
    (h : (n.children.find? test).map (spanOf index) = some s) :
    ∃ c ∈ n.children, spanOf index c = s := by
  obtain ⟨c, hc, hs⟩ := Option.map_eq_some_iff.mp h
  exact ⟨c, List.mem_of_find?_eq_some hc, hs⟩

theorem exists_of_eq_none {x : Option Span} (hx : x = none) {s : Span} (h : x = some s) :
    ∃ c ∈ n.children, spanOf index c = s := by
  simp [hx] at h

theorem builtFrom_of_ofNode? (h : ofNode? index n = some i) : BuiltFrom index n i := by
  unfold ofNode? at h
  split_ifs at h
  obtain rfl := Option.some.inj h
  clear h
  repeat' split
  all_goals first
    | exact ⟨rfl, fun _ => exists_of_eq_none rfl, fun _ => exists_of_eq_none rfl⟩
    | exact ⟨rfl, fun _ => exists_of_map_find?, fun _ => exists_of_eq_none rfl⟩
    | exact ⟨rfl, fun _ => exists_of_map_find?, fun _ => exists_of_map_find?⟩

end Item

theorem exists_mem_nodeSpans {f : Outline} {s : Span} :
    (∃ m ∈ f.nodeSpans, m.span = s) ↔ ∃ i ∈ f.items, i.span? = some s ∨ i.bodySpan? = some s := by
  simp only [mem_nodeSpans_iff_item, Item.mem_nodeSpans]
  constructor
  · rintro ⟨m, ⟨k, i, hk, hm⟩, rfl⟩
    exact ⟨i, List.mem_of_getElem? hk, hm.imp And.right And.right⟩
  · rintro ⟨i, hi, hs⟩
    obtain ⟨k, hk⟩ := List.mem_iff_getElem?.mp hi
    rcases hs with hs | hs
    · exact ⟨⟨_, s⟩, ⟨k, i, hk, .inl ⟨rfl, hs⟩⟩, rfl⟩
    · exact ⟨⟨_, s⟩, ⟨k, i, hk, .inr ⟨rfl, hs⟩⟩, rfl⟩

theorem mem_items_build {root : Node} {source : String} {i : Item}
    (h : i ∈ (build root source).items) :
    ∃ n ∈ root.children, Item.BuiltFrom (.ofSource source.toList) n i := by
  obtain ⟨n, hn, hi⟩ := List.mem_filterMap.mp h
  exact ⟨n, List.mem_of_mem_filter hn, Item.builtFrom_of_ofNode? hi⟩

/-- A built outline has no list of comments. -/
theorem erase_build (root : Node) (source : String) :
    (build root source).erase = build root source := by
  have hitems : (build root source).items.map Item.erase = (build root source).items.map id := by
    refine List.map_congr_left fun i hi => ?_
    obtain ⟨_, _, hbuilt⟩ := mem_items_build hi
    exact hbuilt.erase_eq
  rw [erase, hitems, List.map_id]
  rfl

/-- The nodes of a built outline have the spans of nodes two levels below the root. -/
theorem exists_of_mem_nodeSpans_build {root : Node} {source : String} {m : NodeSpan}
    (h : m ∈ (build root source).nodeSpans) :
    ∃ n ∈ root.children, ∃ c ∈ n.children, spanOf (.ofSource source.toList) c = m.span := by
  obtain ⟨i, hi, hs⟩ := exists_mem_nodeSpans.mp ⟨m, h, rfl⟩
  obtain ⟨n, hn, hbuilt⟩ := mem_items_build hi
  refine ⟨n, hn, ?_⟩
  rcases hs with hs | hs
  · exact hbuilt.span m.span hs
  · exact hbuilt.bodySpan m.span hs

theorem storable_spanOf {source : List Char} (hsource : Text.width source < 2 ^ 53) {n : Node}
    (h : n.Regular) : (spanOf (.ofSource source) n).Storable :=
  LineIndex.storable_span hsource h.start.storable h.stop.storable

theorem storable_of_mem_nodeSpans_build {root : Node} {source : String} (hroot : root.Regular)
    (hsource : Text.width source.toList < 2 ^ 53) {m : NodeSpan}
    (h : m ∈ (build root source).nodeSpans) : m.span.Storable := by
  obtain ⟨n, hn, c, hc, hspan⟩ := exists_of_mem_nodeSpans_build h
  have hregular : c.Regular := (hroot.of_mem_children hn).of_mem_children hc
  rw [← hspan]
  exact storable_spanOf hsource hregular

end Outline
end Marginalia
