import Marginalia.Proofs.NormalForm

/-!
# Containment of places

Whether a path lies in a directory is decided on two texts: they are equal, or one
continues the other after a slash. The relative path from the directory is found
by another search, for the names that the two places share. Both go by whole names:
a path lies in a directory exactly if its names begin with those of the directory,
and exactly then the relative path does not lead up.

A backslash at the end of a path is taken away, and one in a relative path is turned
around, so all this is about paths without backslashes.
-/

namespace Marginalia
namespace Path

theorem mem_intercalate {c : Char} (hc : c ≠ '/') (ss : List Segment) :
    c ∈ ['/'].intercalate ss ↔ ∃ s ∈ ss, c ∈ s := by
  induction ss with
  | nil => simp
  | cons s ss ih =>
    cases ss with
    | nil => simp
    | cons t ss =>
      rw [List.intercalate_cons_cons, List.mem_append, List.mem_append, ih]
      simp [hc]

theorem mem_of_mem_pieces {p : List Char} {s : Segment} {c : Char} (hs : s ∈ pieces p)
    (hc : c ∈ s) : c ∈ p := by
  have hslash : c ≠ '/' := fun h => slash_notMem_of_mem_pieces hs (h ▸ hc)
  have hjoin : ['/'].intercalate (pieces p) = p := List.intercalate_splitOn '/'
  rw [← hjoin, mem_intercalate hslash]
  exact ⟨s, hs, hc⟩

theorem mem_of_mem_walk {origin : List Segment} {p : List Char} {s : Segment} {c : Char}
    (hs : s ∈ walk origin p) (hc : c ∈ s) : s ∈ origin ∨ c ∈ p := by
  rcases mem_foldl_step (List.mem_reverse.1 hs) with hs | ⟨hs, -⟩
  · exact .inl (List.mem_reverse.1 hs)
  · exact .inr (mem_of_mem_pieces hs hc)

theorem mem_of_mem_segments {workingDir p : List Char} {s : Segment} {c : Char}
    (hs : s ∈ segments workingDir p) (hc : c ∈ s) : c ∈ workingDir ∨ c ∈ p := by
  rw [segments] at hs
  rcases mem_of_mem_walk hs hc with hs | hp
  · split at hs
    · exact absurd hs List.not_mem_nil
    · rcases mem_of_mem_walk hs hc with hs | hw
      · exact absurd hs List.not_mem_nil
      · exact .inl hw
  · exact .inr hp

/-- The names of an absolute path: what stands between its slashes. The root has none. -/
def names (p : String) : List Segment := (pieces p.toList).filter fun s => !s.isEmpty

theorem IsPlain.of_append_right {ss ts : List Segment} (h : IsPlain (ss ++ ts)) : IsPlain ts :=
  fun s hs => h s (List.mem_append_right _ hs)

theorem names_ofSegments {ss : List Segment} (h : IsPlain ss) :
    names (String.ofList (ofSegments ss)) = ss := by
  rw [names, String.toList_ofList]
  by_cases hne : ss = []
  · rw [hne]
    rfl
  · rw [pieces_ofSegments h hne, List.filter_cons_of_neg (by simp), List.filter_eq_self]
    intro s hs
    simpa using (h s hs).1.ne_nil

theorem ofSegments_injective {ss ts : List Segment} (hs : IsPlain ss) (ht : IsPlain ts)
    (h : ofSegments ss = ofSegments ts) : ss = ts := by
  rw [← names_ofSegments hs, h, names_ofSegments ht]

theorem ofSegments_append {ss ts : List Segment} (hs : ss ≠ []) (ht : ts ≠ []) :
    ofSegments (ss ++ ts) = ofSegments ss ++ ofSegments ts := by
  induction ts using List.reverseRecOn with
  | nil => exact absurd rfl ht
  | append_singleton ts t ih =>
    rw [← List.append_assoc, ofSegments_concat, if_neg (by simp [hs]), ofSegments_concat]
    by_cases hts : ts = []
    · simp [hts]
    · rw [ih hts, if_neg hts, List.append_assoc]

/-- What the paths of the places below a place begin with. -/
def lead (ss : List Segment) : List Char :=
  if ss = [] then ['/'] else ofSegments ss ++ ['/']

/-- On the texts of two paths one can see whether the one place is below the other. -/
theorem isPrefix_iff {ss ts : List Segment} (hs : IsPlain ss) (ht : IsPlain ts) :
    ss <+: ts ↔ ofSegments ts = ofSegments ss ∨ lead ss <+: ofSegments ts := by
  by_cases hroot : ss = []
  · rw [lead, if_pos hroot, hroot]
    exact iff_of_true List.nil_prefix (.inr ⟨_, rfl⟩)
  rw [lead, if_neg hroot]
  constructor
  · rintro ⟨us, rfl⟩
    by_cases hus : us = []
    · left
      rw [hus, List.append_nil]
    · right
      rw [ofSegments_append hroot hus]
      exact (List.prefix_append_right_inj _).2 ⟨_, rfl⟩
  · rintro (heq | ⟨rest, hrest⟩)
    · rw [ofSegments_injective ht hs heq]
    · have hcut : ofSegments ts = ofSegments ss ++ '/' :: rest := by
        rw [← hrest]
        simp
      have hne : ts ≠ [] := by
        rintro rfl
        simpa [ofSegments, List.intercalate] using congrArg List.length hcut
      -- The pieces of the longer path are those of the shorter one and some more.
      have hpieces := congrArg pieces hcut
      rw [pieces_append_slash, pieces_ofSegments ht hne, pieces_ofSegments hs hroot] at hpieces
      exact ⟨pieces rest, (List.cons.inj hpieces).2.symm⟩

/-- The search finds names that the two places share and leads up from the others. -/
theorem exists_difference_eq (ss ts : List Segment) :
    ∃ common as bs, ss = common ++ as ∧ ts = common ++ bs ∧ difference ss ts = detour as bs := by
  induction ss generalizing ts with
  | nil => exact ⟨[], [], ts, rfl, rfl, by rw [difference]; simp⟩
  | cons s ss ih =>
    cases ts with
    | nil => exact ⟨[], s :: ss, [], rfl, rfl, rfl⟩
    | cons t ts =>
      by_cases hst : s = t
      · obtain ⟨common, as, bs, rfl, rfl, heq⟩ := ih ts
        exact ⟨s :: common, as, bs, rfl, by rw [hst]; rfl, by rw [difference, if_pos hst, heq]⟩
      · exact ⟨[], s :: ss, t :: ts, rfl, rfl, by rw [difference, if_neg hst]⟩

theorem difference_append (ss ts : List Segment) : difference ss (ss ++ ts) = ts := by
  induction ss with
  | nil =>
    rw [List.nil_append, difference]
    · rfl
    · simp
  | cons s ss ih => rw [List.cons_append, difference, if_pos rfl, ih]

theorem foldl_step_up (top stack : List Segment) :
    (List.replicate top.length up).foldl step (top ++ stack) = stack := by
  induction top with
  | nil => rfl
  | cons s top ih =>
    rw [List.length_cons, List.replicate_succ, List.foldl_cons, step_up, List.cons_append,
      List.tail_cons, ih]

theorem foldl_step_detour (common as : List Segment) {bs : List Segment} (hbs : IsPlain bs) :
    (detour as bs).foldl step (common ++ as).reverse = (common ++ bs).reverse := by
  have hup := foldl_step_up as.reverse common.reverse
  rw [List.length_reverse] at hup
  rw [detour, List.map_const', List.foldl_append, List.reverse_append, hup,
    foldl_step_of_isName fun s hs => (hbs s hs).1, List.reverse_append]

theorem mem_detour {as bs : List Segment} {s : Segment} (h : s ∈ detour as bs) :
    s = up ∨ s ∈ bs := by
  rcases List.mem_append.1 h with h | h
  · obtain ⟨-, -, rfl⟩ := List.mem_map.1 h
    exact .inl rfl
  · exact .inr h

theorem of_mem_detour {as bs : List Segment} (hbs : IsPlain bs) {s : Segment}
    (h : s ∈ detour as bs) : s ≠ [] ∧ '/' ∉ s := by
  rcases mem_detour h with rfl | h
  · decide
  · exact ⟨(hbs s h).1.ne_nil, (hbs s h).2⟩

theorem walk_detour (common as : List Segment) {bs : List Segment} (hbs : IsPlain bs) :
    walk (common ++ as) (['/'].intercalate (detour as bs)) = common ++ bs := by
  by_cases hnil : detour as bs = []
  · obtain ⟨has, rfl⟩ := List.append_eq_nil_iff.1 hnil
    rw [hnil, List.map_eq_nil_iff.1 has]
    exact walk_nil_right _
  · rw [walk_eq_reverse_steps, steps_intercalate (fun s hs => (of_mem_detour hbs hs).2) hnil,
      foldl_step_detour common as hbs, List.reverse_reverse]

theorem isAbsolute_intercalate {ss : List Segment} (h : ∀ s ∈ ss, s ≠ [] ∧ '/' ∉ s) :
    isAbsolute (['/'].intercalate ss) = false := by
  cases ss with
  | nil => rfl
  | cons s ss =>
    obtain ⟨hne, hslash⟩ := h s List.mem_cons_self
    obtain ⟨c, s, rfl⟩ := List.exists_cons_of_ne_nil hne
    have hc : c ≠ '/' := fun hc => hslash (hc ▸ List.mem_cons_self)
    cases ss <;> simp [isAbsolute, List.intercalate, hc]

/-- A relative path leads up first, unless the place it starts from is above its target. -/
theorem isPrefix_iff_pieces_difference {ss ts : List Segment} (ht : IsPlain ts) :
    ss <+: ts ↔ (pieces (['/'].intercalate (difference ss ts))).head? ≠ some up := by
  constructor
  · rintro ⟨us, rfl⟩
    rw [difference_append]
    cases us with
    | nil => decide
    | cons u us =>
      have hu : IsPlain (u :: us) := ht.of_append_right
      rw [pieces_intercalate (fun s hs => (hu s hs).2) (by simp), List.head?_cons, ne_eq,
        Option.some.injEq]
      exact (hu u List.mem_cons_self).1.2
  · obtain ⟨common, as, bs, rfl, rfl, heq⟩ := exists_difference_eq ss ts
    have hbs : IsPlain bs := ht.of_append_right
    cases as with
    | nil =>
      rw [List.append_nil]
      exact fun _ => List.prefix_append _ _
    | cons a as =>
      rw [heq, pieces_intercalate (fun s hs => (of_mem_detour hbs hs).2) (by simp [detour])]
      simp [detour]

end Path

namespace Place

open Marginalia.Path

variable {here : Place} {p t d : String}

/-- A path without backslashes, which are taken away at its end and turned around in a relative
path. -/
def NoBackslash (p : String) : Prop := '\\' ∉ p.toList

instance : Decidable (NoBackslash p) := inferInstanceAs (Decidable (¬ _))

theorem noBackslash_resolve (hw : NoBackslash here.workingDir) (hp : NoBackslash p) :
    NoBackslash (here.resolve p) := by
  rw [NoBackslash, toList_resolve, ofSegments, List.mem_cons, mem_intercalate (by decide)]
  rintro (h | ⟨s, hs, hc⟩)
  · exact absurd h (by decide)
  · exact (mem_of_mem_segments hs hc).elim hw hp

theorem normalize_of_noBackslash (hw : NoBackslash here.workingDir) (hp : NoBackslash p) :
    here.normalize p = here.resolve p :=
  here.normalize_eq_resolve p fun h => noBackslash_resolve hw hp (List.mem_of_getLast? h)

theorem slashed_of_noBackslash (hp : NoBackslash p) : slashed p = p := by
  rw [slashed, List.map_congr_left (g := id), List.map_id, String.ofList_toList]
  intro c hc
  have hne : c ≠ '\\' := fun h => hp (h ▸ hc)
  rw [if_neg hne, id]

theorem toList_normalize (hw : NoBackslash here.workingDir) (hp : NoBackslash p) :
    (here.normalize p).toList = ofSegments (here.keyOf p) := by
  rw [normalize_of_noBackslash hw hp, toList_resolve, keyOf]

theorem names_normalize (hw : NoBackslash here.workingDir) (hp : NoBackslash p) :
    names (here.normalize p) = here.keyOf p := by
  rw [normalize_of_noBackslash hw hp]
  exact names_ofSegments (here.isPlain_keyOf p)

theorem keyOf_normalize (hw : NoBackslash here.workingDir) (hp : NoBackslash p) :
    here.keyOf (here.normalize p) = here.keyOf p := by
  rw [keyOf, toList_normalize hw hp]
  exact segments_ofSegments _ (here.isPlain_keyOf p)

/-- A path to the place of another path has the same normal form. -/
theorem normalize_eq_of_keyOf {q : String} (h : here.keyOf q = here.keyOf p) :
    here.normalize q = here.normalize p :=
  here.normalize_of_resolve_eq p (congrArg (fun ss => String.ofList (ofSegments ss)) h)

theorem endsWith_slash_normalize (hw : NoBackslash here.workingDir) (hp : NoBackslash p) :
    Text.endsWith "/" (here.normalize p) = true ↔ here.keyOf p = [] := by
  rw [Text.endsWith, List.isSuffixOf_iff_suffix, toList_normalize hw hp]
  constructor
  · rintro ⟨front, hfront⟩
    by_contra hne
    apply getLast?_ofSegments_ne_slash (here.isPlain_keyOf p) hne
    rw [← hfront]
    exact List.getLast?_concat
  · intro hroot
    rw [hroot]
    exact List.suffix_rfl

theorem isWithin_iff_isPrefix (hw : NoBackslash here.workingDir) (ht : NoBackslash t)
    (hd : NoBackslash d) :
    here.isWithin t d = true ↔ here.keyOf d <+: here.keyOf t := by
  have hlead : (if Text.endsWith "/" (here.normalize d) then here.normalize d
      else here.normalize d ++ "/").toList = lead (here.keyOf d) := by
    rw [lead]
    split
    · rename_i hroot
      rw [endsWith_slash_normalize hw hd] at hroot
      rw [if_pos hroot, toList_normalize hw hd, hroot]
      rfl
    · rename_i hroot
      rw [endsWith_slash_normalize hw hd] at hroot
      rw [if_neg hroot, String.toList_append, toList_normalize hw hd]
      rfl
  rw [isPrefix_iff (here.isPlain_keyOf d) (here.isPlain_keyOf t)]
  simp only [isWithin, Bool.or_eq_true, beq_iff_eq, Text.startsWith, List.isPrefixOf_iff_prefix]
  rw [hlead, ← String.toList_inj, toList_normalize hw ht, toList_normalize hw hd]

theorem toList_relativeTo (hw : NoBackslash here.workingDir) (ht : NoBackslash t)
    (hd : NoBackslash d) :
    (here.relativeTo t d).toList =
      ['/'].intercalate (difference (here.keyOf d) (here.keyOf t)) := by
  have hrelative : Path.relative here.workingDir (here.normalize d) (here.normalize t) =
      String.ofList
        (['/'].intercalate (difference (here.keyOf d) (here.keyOf t))) := by
    rw [← keyOf_normalize hw hd, ← keyOf_normalize hw ht]
    rfl
  rw [relativeTo, hrelative, slashed_of_noBackslash, String.toList_ofList]
  rw [NoBackslash, String.toList_ofList, mem_intercalate (by decide)]
  rintro ⟨s, hs, hc⟩
  obtain ⟨common, as, bs, -, hbs, heq⟩ :=
    exists_difference_eq (here.keyOf d) (here.keyOf t)
  rcases mem_detour (heq ▸ hs) with rfl | hs
  · exact absurd hc (by decide)
  · have hmem : s ∈ here.keyOf t := hbs ▸ List.mem_append_right _ hs
    exact (mem_of_mem_segments hmem hc).elim hw ht

/-- The absolute path of a path that starts at a base. An absolute path does not depend on the
base, and no base is the working directory. -/
def resolveFrom (here : Place) (base p : String) : String :=
  here.resolve (if isAbsolute p.toList || base.isEmpty then p else base ++ "/" ++ p)

theorem resolveFrom_of_relative (base : String) (hp : isAbsolute p.toList = false) :
    here.resolveFrom base p =
      String.ofList (ofSegments (walk (here.keyOf base) p.toList)) := by
  have hsegments : here.keyOf (if isAbsolute p.toList || base.isEmpty then p
      else base ++ "/" ++ p) = walk (here.keyOf base) p.toList := by
    rw [hp, Bool.false_or]
    split
    · rename_i hbase
      rw [keyOf, keyOf, String.isEmpty_iff.1 hbase, segments_of_relative _ hp]
      exact congrArg (walk · p.toList) (segments_nil _).symm
    · rename_i hbase
      have hne : base.toList ≠ [] := fun h =>
        hbase (String.isEmpty_iff.2 (String.toList_eq_nil_iff.1 h))
      rw [keyOf, String.toList_append, String.toList_append, List.append_assoc]
      exact segments_append_slash _ hne _
  rw [← hsegments]
  rfl

/-- A relative path is a detour from the names that the two places do not share. -/
theorem exists_relativeTo_eq (hw : NoBackslash here.workingDir) (ht : NoBackslash t)
    (hd : NoBackslash d) :
    ∃ common as bs, here.keyOf d = common ++ as ∧ here.keyOf t = common ++ bs ∧ IsPlain bs ∧
      (here.relativeTo t d).toList = ['/'].intercalate (detour as bs) := by
  obtain ⟨common, as, bs, has, hbs, heq⟩ := exists_difference_eq (here.keyOf d) (here.keyOf t)
  have hplain : IsPlain (common ++ bs) := hbs ▸ here.isPlain_keyOf t
  exact ⟨common, as, bs, has, hbs, hplain.of_append_right, by
    rw [toList_relativeTo hw ht hd, heq]⟩

theorem isAbsolute_relativeTo (hw : NoBackslash here.workingDir) (ht : NoBackslash t)
    (hd : NoBackslash d) : isAbsolute (here.relativeTo t d).toList = false := by
  obtain ⟨-, as, bs, -, -, hplain, heq⟩ := exists_relativeTo_eq hw ht hd
  rw [heq]
  exact isAbsolute_intercalate fun s hs => of_mem_detour hplain hs

/-- A relative path leads back to its target. -/
theorem walk_relativeTo (hw : NoBackslash here.workingDir) (ht : NoBackslash t)
    (hd : NoBackslash d) :
    walk (here.keyOf d) (here.relativeTo t d).toList = here.keyOf t := by
  obtain ⟨common, as, bs, has, hbs, hplain, heq⟩ := exists_relativeTo_eq hw ht hd
  rw [heq, has, hbs, walk_detour common as hplain]

/-- A path lies in a directory exactly if the names of the directory begin its own ones, and
exactly if the relative path from the directory is empty or does not begin by leading up. From
the directory the relative path always leads to the path again. -/
theorem isWithin_by_names (here : Place) (t d : String) (hw : NoBackslash here.workingDir)
    (ht : NoBackslash t) (hd : NoBackslash d) :
    (here.isWithin t d = true ↔ names (here.normalize d) <+: names (here.normalize t)) ∧
    (here.isWithin t d = true ↔
      here.relativeTo t d = "" ∨ (pieces (here.relativeTo t d).toList).head? ≠ some up) ∧
    here.resolveFrom (here.normalize d) (here.relativeTo t d) = here.normalize t := by
  refine ⟨?_, ?_, ?_⟩
  · rw [names_normalize hw hd, names_normalize hw ht]
    exact isWithin_iff_isPrefix hw ht hd
  · have hup : here.isWithin t d = true ↔
        (pieces (here.relativeTo t d).toList).head? ≠ some up := by
      rw [isWithin_iff_isPrefix hw ht hd, toList_relativeTo hw ht hd]
      exact isPrefix_iff_pieces_difference (here.isPlain_keyOf t)
    constructor
    · exact fun h => .inr (hup.1 h)
    · rintro (hempty | h)
      · rw [hup, hempty]
        decide
      · exact hup.2 h
  · rw [resolveFrom_of_relative _ (isAbsolute_relativeTo hw ht hd), keyOf_normalize hw hd,
      walk_relativeTo hw ht hd, normalize_of_noBackslash hw ht]
    rfl

def cratePlace : Place := { workingDir := "/home/ana/crate", home := "/home/ana" }

/-- A directory whose name only begins like that of another one is not in it. -/
theorem isWithin_by_names_sibling :
    let target := "../crate-two//a.rs"
    (NoBackslash cratePlace.workingDir ∧ NoBackslash target ∧ NoBackslash "./") ∧
    cratePlace.isWithin target "./" = false ∧
    ¬ names (cratePlace.normalize "./") <+: names (cratePlace.normalize target) ∧
    cratePlace.relativeTo target "./" = "../crate-two/a.rs" ∧
    cratePlace.resolveFrom (cratePlace.normalize "./") (cratePlace.relativeTo target "./") =
      cratePlace.normalize target := by
  have hplain : NoBackslash cratePlace.workingDir ∧ NoBackslash "../crate-two//a.rs" ∧
      NoBackslash "./" := by decide
  have hfalse : cratePlace.isWithin "../crate-two//a.rs" "./" = false := by decide +kernel
  obtain ⟨hnames, -, hback⟩ := isWithin_by_names cratePlace "../crate-two//a.rs" "./"
    hplain.1 hplain.2.1 hplain.2.2
  refine ⟨hplain, hfalse, fun h => ?_, by decide +kernel, hback⟩
  rw [hnames.2 h] at hfalse
  cases hfalse

end Place
end Marginalia
