import Marginalia.Proofs.Extraction

/-!
# Wanted kinds of comments

Each kind of comments hides the other: a pair of slashes in a block starts no
line comment, and an opening delimiter in a line comment no block. So a line is
always searched for both kinds, and what is wanted decides only which of the
comments that were found are reported.
-/

namespace Marginalia
namespace Comment

open Text

def Wanted.includes (wanted : Wanted) : Kind → Bool
  | .line => wanted.line
  | .block => wanted.block

variable (wanted : Wanted)

theorem filter_includes {ms : List Match} {kind : Kind} (h : ∀ m ∈ ms, m.kind = kind) :
    ms.filter (fun m => wanted.includes m.kind) = if wanted.includes kind then ms else [] := by
  split_ifs with hkind
  · apply List.filter_eq_self.mpr
    intro m hm
    rw [h m hm, hkind]
  · apply List.filter_eq_nil_iff.mpr
    intro m hm
    rwa [h m hm]

theorem scanLine_eq_filter (line : List Char) :
    scanLine wanted line = (scanLine .both line).filter fun m => wanted.includes m.kind := by
  have hline : ∀ m ∈ (lineComment (blocks line) line).toList, m.kind = .line := by
    intro m hm
    exact (standsOn_of_lineComment (Option.mem_toList.mp hm)).1
  have hblock : ∀ m ∈ (blocks line).filter (fun b =>
      (lineComment (blocks line) line).all fun t => decide (b.startColumn < t.startColumn)),
      m.kind = .block := by
    intro m hm
    exact (standsOn_of_mem_blocks (List.mem_of_mem_filter hm)).1
  simp only [scanLine, Wanted.both, if_true, List.filter_append]
  rw [filter_includes wanted hblock, filter_includes wanted hline]
  rfl

theorem extract_eq_filter_both (source : String) :
    extract wanted source = (extract .both source).filter fun c => wanted.includes c.kind := by
  simp only [extract, ofLines_eq_flatMap]
  rw [List.filter_flatMap]
  apply List.flatMap_congr
  intro p _
  rw [scanLine_eq_filter, List.filter_map]
  rfl

/-- What is wanted only filters the comments of a source: they stay in order, and those of a kind
are the same whether the other kind is wanted or not. -/
theorem extract_filters_kinds (source : String) :
    (extract wanted source = (extract .both source).filter fun c => wanted.includes c.kind) ∧
      ∀ kind, (extract wanted source).filter (fun c => c.kind = kind) =
        if wanted.includes kind then (extract .both source).filter (fun c => c.kind = kind)
        else [] := by
  refine ⟨extract_eq_filter_both wanted source, ?_⟩
  intro kind
  rw [extract_eq_filter_both, List.filter_filter]
  split_ifs with hkind
  · apply List.filter_congr
    intro c _
    by_cases hc : c.kind = kind <;> simp [hc, hkind]
  · apply List.filter_eq_nil_iff.mpr
    intro c _
    by_cases hc : c.kind = kind <;> simp [hc, hkind]

end Comment
end Marginalia
