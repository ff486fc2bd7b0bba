import Marginalia.Disk.Walk
import Mathlib.Tactic

/-!
# Paths and the places they lead to

Where a path leads to is told by the steps along its pieces. A tidied path is a
different text with the same steps, so it leads to the same place: from the root
if it is absolute, and from anywhere else if it is relative.
-/

namespace Marginalia
namespace Path

theorem pieces_append_slash (a b : List Char) :
    pieces (a ++ '/' :: b) = pieces a ++ pieces b :=
  List.splitOn_append_cons_self ..

theorem pieces_of_notMem {p : List Char} (h : '/' ∉ p) : pieces p = [p] :=
  List.splitOn_eq_singleton h

theorem pieces_intercalate {ss : List Segment} (h : ∀ s ∈ ss, '/' ∉ s) (hne : ss ≠ []) :
    pieces (['/'].intercalate ss) = ss :=
  List.splitOn_intercalate '/' h hne

theorem slash_notMem_of_mem_pieces {p : List Char} {s : Segment} (h : s ∈ pieces p) : '/' ∉ s := by
  induction p generalizing s with
  | nil =>
    obtain rfl : s = [] := by simpa [pieces] using h
    exact List.not_mem_nil
  | cons c p ih =>
    rw [pieces, List.splitOn_cons_eq_if_modifyHead] at h
    split at h
    · rcases List.mem_cons.1 h with rfl | h
      · exact List.not_mem_nil
      · exact ih h
    · rename_i hc
      have hc : '/' ≠ c := fun h => hc (beq_iff_eq.2 h.symm)
      obtain ⟨first, rest, hp⟩ := List.exists_cons_of_ne_nil (List.splitOn_ne_nil '/' p)
      rw [hp, List.modifyHead_cons] at h
      rcases List.mem_cons.1 h with rfl | h
      · have hfirst : '/' ∉ first := ih (by rw [pieces, hp]; exact List.mem_cons_self)
        exact fun h => (List.mem_cons.1 h).elim hc hfirst
      · exact ih (by rw [pieces, hp]; exact List.mem_cons_of_mem _ h)

/-- A segment that leads one level down. -/
def IsName (s : Segment) : Prop := isIdle s = false ∧ s ≠ up

theorem IsName.ne_nil {s : Segment} (h : IsName s) : s ≠ [] := by
  rintro rfl
  exact absurd h.1 (by decide)

/-- The segments that are no names have two characters at most. -/
theorem isName_of_two_lt_length {s : Segment} (h : 2 < s.length) : IsName s := by
  constructor
  · rw [isIdle, Bool.or_eq_false_iff]
    constructor <;> refine beq_false_of_ne fun heq => ?_ <;> rw [heq] at h <;> simp at h
  · intro heq
    rw [heq] at h
    simp [up] at h

theorem step_of_isIdle {s : Segment} (h : isIdle s = true) (stack : List Segment) :
    step stack s = stack := if_pos h

theorem step_up (stack : List Segment) : step stack up = stack.tail := rfl

theorem step_of_isName {s : Segment} (h : IsName s) (stack : List Segment) :
    step stack s = s :: stack := by
  rw [step, if_neg (by simp [h.1]), if_neg h.2]

theorem foldl_step_of_isName {ss : List Segment} (h : ∀ s ∈ ss, IsName s) (stack : List Segment) :
    ss.foldl step stack = ss.reverse ++ stack := by
  induction ss generalizing stack with
  | nil => rfl
  | cons s ss ih =>
    rw [List.foldl_cons, step_of_isName (h s List.mem_cons_self),
      ih fun t ht => h t (List.mem_cons_of_mem _ ht)]
    simp

theorem mem_step {stack : List Segment} {s t : Segment} (h : t ∈ step stack s) :
    t ∈ stack ∨ t = s ∧ IsName s := by
  unfold step at h
  split at h
  · exact .inl h
  · rename_i hidle
    split at h
    · exact .inl (List.mem_of_mem_tail h)
    · rename_i hup
      rcases List.mem_cons.1 h with rfl | h
      · exact .inr ⟨rfl, by simpa using hidle, hup⟩
      · exact .inl h

theorem mem_foldl_step {ss stack : List Segment} {t : Segment} (h : t ∈ ss.foldl step stack) :
    t ∈ stack ∨ t ∈ ss ∧ IsName t := by
  induction ss generalizing stack with
  | nil => exact .inl h
  | cons s ss ih =>
    rcases ih h with h | ⟨h, hn⟩
    · rcases mem_step h with h | ⟨rfl, hn⟩
      · exact .inl h
      · exact .inr ⟨List.mem_cons_self, hn⟩
    · exact .inr ⟨List.mem_cons_of_mem _ h, hn⟩

/-- The stack after the steps of a path. -/
def steps (stack : List Segment) (p : List Char) : List Segment := (pieces p).foldl step stack

theorem steps_append_slash (stack : List Segment) (a b : List Char) :
    steps stack (a ++ '/' :: b) = steps (steps stack a) b := by
  rw [steps, pieces_append_slash, List.foldl_append]
  rfl

@[simp] theorem steps_nil (stack : List Segment) : steps stack [] = stack := rfl

theorem steps_of_notMem {p : List Char} (h : '/' ∉ p) (stack : List Segment) :
    steps stack p = step stack p := by
  rw [steps, pieces_of_notMem h]
  rfl

theorem steps_append_ending (stack : List Segment) (p : List Char) (slash : Prop)
    [Decidable slash] :
    steps stack (p ++ if slash then ['/'] else []) = steps stack p := by
  split
  · rw [steps_append_slash, steps_nil]
  · rw [List.append_nil]

theorem steps_intercalate {ss : List Segment} (h : ∀ s ∈ ss, '/' ∉ s) (hne : ss ≠ [])
    (stack : List Segment) : steps stack (['/'].intercalate ss) = ss.foldl step stack := by
  rw [steps, pieces_intercalate h hne]

/-- A double dot takes back the name before it, so the steps that are left lead to the same
place. -/
theorem foldl_step_stepAbove {acc : List Segment} (hacc : ∀ t ∈ acc, isIdle t = false)
    (s : Segment) (stack : List Segment) :
    (stepAbove acc s).reverse.foldl step stack = step (acc.reverse.foldl step stack) s := by
  unfold stepAbove
  split
  · rename_i hidle
    rw [step_of_isIdle hidle]
  · split
    · rename_i hup
      subst hup
      cases acc with
      | nil => rfl
      | cons top rest =>
        dsimp only
        split
        · simp [List.foldl_append]
        · rename_i htop
          have hname : IsName top := ⟨hacc top List.mem_cons_self, htop⟩
          rw [List.reverse_cons, List.foldl_append, List.foldl_cons, List.foldl_nil,
            step_of_isName hname, step_up, List.tail_cons]
    · simp [List.foldl_append]

theorem mem_stepAbove {acc : List Segment} {s t : Segment} (h : t ∈ stepAbove acc s) :
    t ∈ acc ∨ t = s ∧ isIdle s = false := by
  unfold stepAbove at h
  split at h
  · exact .inl h
  · rename_i hidle
    have hs : isIdle s = false := by simpa using hidle
    split at h
    · rename_i hup
      subst hup
      cases acc with
      | nil => exact .inr ⟨by simpa using h, hs⟩
      | cons top rest =>
        dsimp only at h
        split at h
        · rcases List.mem_cons.1 h with rfl | h
          · exact .inr ⟨rfl, hs⟩
          · exact .inl h
        · exact .inl (List.mem_cons_of_mem _ h)
    · rcases List.mem_cons.1 h with rfl | h
      · exact .inr ⟨rfl, hs⟩
      · exact .inl h

theorem mem_foldl_stepAbove {ss acc : List Segment} {t : Segment}
    (h : t ∈ ss.foldl stepAbove acc) : t ∈ acc ∨ t ∈ ss ∧ isIdle t = false := by
  induction ss generalizing acc with
  | nil => exact .inl h
  | cons s ss ih =>
    rcases ih h with h | ⟨h, hn⟩
    · rcases mem_stepAbove h with h | ⟨rfl, hn⟩
      · exact .inl h
      · exact .inr ⟨List.mem_cons_self, hn⟩
    · exact .inr ⟨List.mem_cons_of_mem _ h, hn⟩

theorem foldl_step_foldl_stepAbove (ss : List Segment) {acc : List Segment}
    (hacc : ∀ t ∈ acc, isIdle t = false) (stack : List Segment) :
    (ss.foldl stepAbove acc).reverse.foldl step stack =
      ss.foldl step (acc.reverse.foldl step stack) := by
  induction ss generalizing acc with
  | nil => rfl
  | cons s ss ih =>
    have hacc' : ∀ t ∈ stepAbove acc s, isIdle t = false := by
      intro t ht
      rcases mem_stepAbove ht with ht | ⟨rfl, hs⟩
      · exact hacc t ht
      · exact hs
    rw [List.foldl_cons, ih hacc', foldl_step_stepAbove hacc, List.foldl_cons]

/-- The steps that are left of a relative path without its detours. -/
def essential (p : List Char) : List Segment := ((pieces p).foldl stepAbove []).reverse

theorem of_mem_essential {p : List Char} {s : Segment} (h : s ∈ essential p) :
    isIdle s = false ∧ '/' ∉ s := by
  rcases mem_foldl_stepAbove (List.mem_reverse.1 h) with h | ⟨h, hidle⟩
  · exact absurd h List.not_mem_nil
  · exact ⟨hidle, slash_notMem_of_mem_pieces h⟩

theorem foldl_step_essential (p : List Char) (stack : List Segment) :
    (essential p).foldl step stack = steps stack p :=
  foldl_step_foldl_stepAbove (pieces p) (by simp) stack

theorem of_mem_walk_nil {p : List Char} {s : Segment} (h : s ∈ walk [] p) :
    IsName s ∧ '/' ∉ s := by
  rcases mem_foldl_step (List.mem_reverse.1 h) with h | ⟨h, hn⟩
  · simp at h
  · exact ⟨hn, slash_notMem_of_mem_pieces h⟩

theorem tidy_relative {p : List Char} (hp : isAbsolute p = false) :
    tidy p = (match essential p with
      | [] => ['.']
      | ss => ['/'].intercalate ss) ++ if p.getLast? = some '/' then ['/'] else [] := by
  rw [tidy]
  simp only [hp, Bool.false_eq_true, if_false]
  change (match essential p with
    | [] => _
    | ss => _) = _
  cases essential p <;> rfl

theorem steps_tidy_relative {p : List Char} (hp : isAbsolute p = false) (stack : List Segment) :
    steps stack (tidy p) = steps stack p := by
  rw [tidy_relative hp, steps_append_ending, ← foldl_step_essential p stack]
  rcases h : essential p with _ | ⟨s, ss⟩
  · rfl
  · exact steps_intercalate (fun t ht => (of_mem_essential (h ▸ ht)).2) (by simp) stack

theorem steps_tidy_absolute {p : List Char} (hp : isAbsolute p = true) :
    steps [] (tidy p) = steps [] p := by
  have hsteps : steps [] p = (walk [] p).reverse := by
    rw [walk, List.reverse_reverse]
    rfl
  rw [tidy]
  simp only [hp, if_true]
  rw [hsteps]
  rcases h : walk [] p with _ | ⟨s, ss⟩
  · rfl
  · have hmem : ∀ t ∈ s :: ss, IsName t ∧ '/' ∉ t := fun t ht => of_mem_walk_nil (h ▸ ht)
    simp only
    rw [steps_append_ending, ofSegments, ← List.nil_append ('/' :: _), steps_append_slash,
      steps_nil, steps_intercalate (fun t ht => (hmem t ht).2) (by simp),
      foldl_step_of_isName fun t ht => (hmem t ht).1, List.append_nil]

theorem isAbsolute_tidy (p : List Char) : isAbsolute (tidy p) = isAbsolute p := by
  rcases hp : isAbsolute p with _ | _
  · rw [tidy_relative hp]
    rcases h : essential p with _ | ⟨s, ss⟩
    · rfl
    · obtain ⟨hidle, hslash⟩ := of_mem_essential (p := p) (s := s) (by simp [h])
      cases s with
      | nil => simp [isIdle] at hidle
      | cons c s =>
        have hc : c ≠ '/' := fun hc => hslash (hc ▸ List.mem_cons_self)
        cases ss <;> simp [isAbsolute, List.intercalate, hc]
  · rw [tidy]
    simp only [hp, if_true]
    rcases walk [] p with _ | ⟨s, ss⟩ <;> rfl

theorem walk_eq_reverse_steps (origin : List Segment) (p : List Char) :
    walk origin p = (steps origin.reverse p).reverse := rfl

@[simp] theorem walk_nil_right (origin : List Segment) : walk origin [] = origin := by
  rw [walk_eq_reverse_steps, steps_nil, List.reverse_reverse]

theorem walk_append_slash (origin : List Segment) (a b : List Char) :
    walk origin (a ++ '/' :: b) = walk (walk origin a) b := by
  simp only [walk_eq_reverse_steps, steps_append_slash, List.reverse_reverse]

theorem walk_of_isName {s : Segment} (h : IsName s) (hslash : '/' ∉ s) (origin : List Segment) :
    walk origin s = origin ++ [s] := by
  rw [walk_eq_reverse_steps, steps_of_notMem hslash, step_of_isName h, List.reverse_cons,
    List.reverse_reverse]

theorem length_walk_le (origin : List Segment) {s : Segment} (h : ¬ IsName s) (hslash : '/' ∉ s) :
    (walk origin s).length ≤ origin.length := by
  rw [walk_eq_reverse_steps, steps_of_notMem hslash, List.length_reverse, step]
  split
  · simp
  · rename_i hidle
    rw [if_pos (by by_contra hup; exact h ⟨by simpa using hidle, hup⟩)]
    simp

theorem isAbsolute_of_notMem {p : List Char} (h : '/' ∉ p) : isAbsolute p = false := by
  cases p with
  | nil => rfl
  | cons c p =>
    have hc : c ≠ '/' := fun hc => h (hc ▸ List.mem_cons_self)
    simp [isAbsolute, hc]

theorem segments_tidy (workingDir p : List Char) :
    segments workingDir (tidy p) = segments workingDir p := by
  rw [segments, segments, isAbsolute_tidy]
  rcases hp : isAbsolute p with _ | _
  · simp only [Bool.false_eq_true, if_false]
    rw [walk_eq_reverse_steps, steps_tidy_relative hp]
    rfl
  · simp only [if_true]
    rw [walk_eq_reverse_steps, List.reverse_nil, steps_tidy_absolute hp]
    rfl

theorem segments_append_slash (workingDir : List Char) {a : List Char} (ha : a ≠ [])
    (b : List Char) :
    segments workingDir (a ++ '/' :: b) = walk (segments workingDir a) b := by
  have habs : isAbsolute (a ++ '/' :: b) = isAbsolute a := by
    obtain ⟨c, a, rfl⟩ := List.exists_cons_of_ne_nil ha
    rfl
  rw [segments, segments, habs, walk_append_slash]

theorem segments_of_relative (workingDir : List Char) {p : List Char} (hp : isAbsolute p = false) :
    segments workingDir p = walk (walk [] workingDir) p := by
  rw [segments, hp]
  rfl

theorem segments_nil (workingDir : List Char) : segments workingDir [] = walk [] workingDir := by
  rw [segments_of_relative workingDir rfl, walk_nil_right]

theorem segments_nil_left (p : List Char) : segments [] p = walk [] p := by
  rw [segments]
  split <;> rfl

/-- A path that is joined to another one continues from the place of that one. -/
theorem segments_join (workingDir : List Char) (a : String) {b : String}
    (hb : isAbsolute b.toList = false) :
    segments workingDir (join a b).toList = walk (segments workingDir a.toList) b.toList := by
  rw [join, String.toList_ofList, segments_tidy]
  by_cases ha : a.toList = []
  · rw [if_pos (String.isEmpty_iff.2 (String.toList_eq_nil_iff.1 ha)), ha, segments_nil,
      segments_of_relative workingDir hb]
  · rw [if_neg fun h => ha (String.toList_eq_nil_iff.2 (String.isEmpty_iff.1 h))]
    split
    · rename_i hb
      rw [String.toList_eq_nil_iff.2 (String.isEmpty_iff.1 hb), walk_nil_right]
    · exact segments_append_slash workingDir ha _

/-- The segments of a place: names without slashes. -/
def IsPlain (ss : List Segment) : Prop := ∀ s ∈ ss, IsName s ∧ '/' ∉ s

theorem IsPlain.concat {ss : List Segment} {s : Segment} (h : IsPlain ss) (hs : IsName s)
    (hslash : '/' ∉ s) : IsPlain (ss ++ [s]) := by
  intro t ht
  rcases List.mem_append.1 ht with ht | ht
  · exact h t ht
  · rw [List.mem_singleton.1 ht]
    exact ⟨hs, hslash⟩

theorem IsPlain.of_append {ss ts : List Segment} (h : IsPlain (ss ++ ts)) : IsPlain ss :=
  fun s hs => h s (List.mem_append_left _ hs)

theorem isPlain_walk {origin : List Segment} (h : IsPlain origin) (p : List Char) :
    IsPlain (walk origin p) := by
  intro s hs
  rcases mem_foldl_step (List.mem_reverse.1 hs) with hs | ⟨hs, hn⟩
  · exact h s (List.mem_reverse.1 hs)
  · exact ⟨hn, slash_notMem_of_mem_pieces hs⟩

theorem isPlain_segments (workingDir p : List Char) : IsPlain (segments workingDir p) := by
  have hnil : IsPlain [] := fun s hs => absurd hs List.not_mem_nil
  rw [segments]
  split
  · exact isPlain_walk hnil p
  · exact isPlain_walk (isPlain_walk hnil workingDir) p

theorem intercalate_concat {ss : List Segment} (hne : ss ≠ []) (s : Segment) :
    ['/'].intercalate (ss ++ [s]) = ['/'].intercalate ss ++ '/' :: s := by
  induction ss with
  | nil => exact absurd rfl hne
  | cons t ss ih =>
    cases ss with
    | nil => simp [List.intercalate]
    | cons u ss =>
      have hrest := ih (by simp)
      simp only [List.cons_append, List.intercalate_cons_cons] at hrest ⊢
      rw [hrest]
      simp

/-- The path of a place continues that of the place above it, which is empty for the root. -/
theorem ofSegments_concat (ss : List Segment) (s : Segment) :
    ofSegments (ss ++ [s]) = (if ss = [] then [] else ofSegments ss) ++ '/' :: s := by
  split
  · rename_i h
    rw [h]
    simp [ofSegments, List.intercalate]
  · rename_i h
    rw [ofSegments, intercalate_concat h, ofSegments, List.cons_append]

theorem pieces_ofSegments {ss : List Segment} (h : IsPlain ss) (hne : ss ≠ []) :
    pieces (ofSegments ss) = [] :: ss := by
  rw [ofSegments, ← List.nil_append ('/' :: _), pieces_append_slash,
    pieces_intercalate (fun s hs => (h s hs).2) hne]
  rfl

theorem segments_ofSegments (workingDir : List Char) {ss : List Segment} (h : IsPlain ss) :
    segments workingDir (ofSegments ss) = ss := by
  have hwalk : segments workingDir (ofSegments ss) = walk [] (ofSegments ss) := rfl
  by_cases hne : ss = []
  · rw [hne]
    rfl
  · rw [hwalk, walk, pieces_ofSegments h hne, List.foldl_cons, step_of_isIdle rfl,
      foldl_step_of_isName fun s hs => (h s hs).1]
    simp

theorem dropSlashes_append {s : List Char} (hs : s ≠ []) (hslash : '/' ∉ s) (p : List Char) :
    dropSlashes (p ++ s) = p ++ s := by
  obtain ⟨front, c, rfl⟩ := (List.eq_nil_or_concat' s).resolve_left hs
  have hc : c ≠ '/' := by
    rintro rfl
    exact hslash (by simp)
  rw [dropSlashes, ← List.append_assoc, List.reverse_append, List.reverse_singleton,
    List.singleton_append, List.dropWhile_cons_of_neg (by simpa using hc), List.reverse_cons,
    List.reverse_reverse]

theorem directory_append {s : Segment} (hs : s ≠ []) (hslash : '/' ∉ s) {p : List Char}
    (hp : isAbsolute (p ++ ['/']) = true) (hroot : p ≠ ['/']) :
    directory (String.ofList (p ++ '/' :: s)) = String.ofList (if p = [] then ['/'] else p) := by
  have hfront :
      ((dropSlashes (p ++ '/' :: s)).reverse.dropWhile (· ≠ '/')).reverse = p ++ ['/'] := by
    have hsplit : p ++ '/' :: s = (p ++ ['/']) ++ s := by simp
    rw [hsplit, dropSlashes_append hs hslash, List.reverse_append, List.dropWhile_append_of_pos,
      List.reverse_append, List.reverse_singleton, List.singleton_append,
      List.dropWhile_cons_of_neg (by simp), List.reverse_cons, List.reverse_reverse]
    intro c hc
    have hne : c ≠ '/' := fun h => hslash (h ▸ List.mem_reverse.1 hc)
    simpa using hne
  have habs : isAbsolute (p ++ '/' :: s) = true := by
    cases p <;> exact hp
  unfold directory
  simp only [String.toList_ofList, hfront, habs, if_true, List.dropLast_concat]
  split
  · rfl
  · exact absurd rfl hroot
  · rename_i hne _
    rw [if_neg hne]

theorem directory_ofSegments_concat {ss : List Segment} {s : Segment} (h : IsPlain (ss ++ [s])) :
    directory (String.ofList (ofSegments (ss ++ [s]))) = String.ofList (ofSegments ss) := by
  obtain ⟨hname, hslash⟩ := h s (by simp)
  have hs : s ≠ [] := hname.ne_nil
  rw [ofSegments_concat, directory_append hs hslash]
  · cases ss with
    | nil => rfl
    | cons t ss => simp [ofSegments]
  · cases ss <;> rfl
  · cases ss with
    | nil => simp
    | cons t ss =>
      obtain ⟨htname, -⟩ := h t (by simp)
      cases t with
      | nil => exact absurd rfl htname.ne_nil
      | cons c t => cases ss <;> simp [ofSegments, List.intercalate]

end Path
end Marginalia
