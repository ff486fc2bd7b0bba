import Marginalia.Path.Place
import Marginalia.Proofs.Paths
import Mathlib.Data.List.DropRight

/-!
# Normal forms of paths

The absolute path of a path is a normal form: it ends in no slash unless it is the
root, and it is its own absolute path. Normalizing takes slashes and backslashes
from the end of that path. There is never a slash to take, and a backslash belongs
to a name, so the result is a normal form of the same place exactly if the absolute
path does not end in a backslash.
-/

namespace Marginalia
namespace Path

/-- The length of segments with a slash for each. -/
def weight (ss : List Segment) : Nat := (ss.map fun s => s.length + 1).sum

@[simp] theorem weight_nil : weight [] = 0 := rfl

@[simp] theorem weight_cons (s : Segment) (ss : List Segment) :
    weight (s :: ss) = s.length + 1 + weight ss := by
  simp [weight]

@[simp] theorem weight_reverse (ss : List Segment) : weight ss.reverse = weight ss := by
  simp [weight, List.sum_reverse]

theorem length_intercalate_add_one {ss : List Segment} (hne : ss ≠ []) :
    (['/'].intercalate ss).length + 1 = weight ss := by
  induction ss with
  | nil => exact absurd rfl hne
  | cons s ss ih =>
    cases ss with
    | nil => simp [List.intercalate]
    | cons t ss =>
      have hrest := ih (by simp)
      simp only [List.intercalate_cons_cons, List.length_append, weight_cons,
        List.length_singleton] at hrest ⊢
      omega

theorem length_ofSegments {ss : List Segment} (hne : ss ≠ []) :
    (ofSegments ss).length = weight ss := by
  rw [ofSegments, List.length_cons, length_intercalate_add_one hne]

theorem weight_pieces (p : List Char) : weight (pieces p) = p.length + 1 := by
  have hne : pieces p ≠ [] := List.splitOn_ne_nil '/' p
  have hjoin : ['/'].intercalate (pieces p) = p := List.intercalate_splitOn '/'
  rw [← length_intercalate_add_one hne, hjoin]

theorem weight_step_le (stack : List Segment) (s : Segment) :
    weight (step stack s) ≤ weight stack + (s.length + 1) := by
  unfold step
  split
  · omega
  · split
    · cases stack with
      | nil => simp
      | cons t stack =>
        simp only [List.tail_cons, weight_cons]
        omega
    · simp only [weight_cons]
      omega

theorem weight_foldl_step_le (ss stack : List Segment) :
    weight (ss.foldl step stack) ≤ weight stack + weight ss := by
  induction ss generalizing stack with
  | nil => simp
  | cons s ss ih =>
    have hstep := weight_step_le stack s
    have hrest := ih (step stack s)
    simp only [List.foldl_cons, weight_cons]
    omega

theorem length_ofSegments_walk_le {p : List Char} (h : isAbsolute p = true) :
    (ofSegments (walk [] p)).length ≤ p.length := by
  cases p with
  | nil => cases h
  | cons c rest =>
    obtain rfl : c = '/' := by simpa [isAbsolute] using h
    -- What is before the first slash is no step, so that slash is paid for.
    have hwalk : walk [] ('/' :: rest) = (steps [] rest).reverse :=
      congrArg List.reverse (steps_append_slash [] [] rest)
    rw [hwalk]
    by_cases hroot : steps [] rest = []
    · simp [hroot, ofSegments, List.intercalate]
    · rw [length_ofSegments (by simpa using hroot), weight_reverse]
      have hle := weight_foldl_step_le (pieces rest) []
      rw [weight_pieces, weight_nil] at hle
      simpa [steps] using hle

theorem getLast?_ofSegments_concat (ss : List Segment) {s : Segment} (hs : s ≠ []) :
    (ofSegments (ss ++ [s])).getLast? = s.getLast? := by
  have hcut : ofSegments (ss ++ [s]) = ((if ss = [] then [] else ofSegments ss) ++ ['/']) ++ s := by
    rw [ofSegments_concat]
    simp
  rw [hcut, List.getLast?_append_of_ne_nil _ hs]

theorem getLast?_ofSegments_ne_slash {ss : List Segment} (h : IsPlain ss) (hne : ss ≠ []) :
    (ofSegments ss).getLast? ≠ some '/' := by
  obtain ⟨front, s, rfl⟩ := (List.eq_nil_or_concat' ss).resolve_left hne
  obtain ⟨hname, hslash⟩ := h s (by simp)
  rw [getLast?_ofSegments_concat front hname.ne_nil]
  intro hlast
  exact hslash (List.mem_of_getLast? hlast)

end Path

namespace Place

variable (here : Place) (p : String)

def keyOf (here : Place) (path : String) : Disk.Key :=
  Path.segments here.workingDir.toList path.toList

theorem isPlain_keyOf (here : Place) (path : String) : Path.IsPlain (here.keyOf path) :=
  Path.isPlain_segments _ _

theorem toList_resolve :
    (here.resolve p).toList =
      Path.ofSegments (Path.segments here.workingDir.toList p.toList) :=
  String.toList_ofList

theorem isAbsolute_resolve : Path.isAbsolute (here.resolve p).toList = true := by
  rw [toList_resolve]
  rfl

theorem resolve_resolve : here.resolve (here.resolve p) = here.resolve p := by
  have hsegments : Path.segments here.workingDir.toList (here.resolve p).toList =
      Path.segments here.workingDir.toList p.toList := by
    rw [toList_resolve, Path.segments_ofSegments _ (Path.isPlain_segments _ _)]
  exact congrArg (fun ss => String.ofList (Path.ofSegments ss)) hsegments

theorem getLast?_resolve_ne_slash (h : here.resolve p ≠ "/") :
    (here.resolve p).toList.getLast? ≠ some '/' := by
  rw [toList_resolve]
  apply Path.getLast?_ofSegments_ne_slash (Path.isPlain_segments _ _)
  intro hroot
  apply h
  rw [← String.toList_inj, toList_resolve, hroot]
  rfl

theorem length_resolve_le {q : String} (h : Path.isAbsolute q.toList = true) :
    (here.resolve q).toList.length ≤ q.toList.length := by
  have hsegments : Path.segments here.workingDir.toList q.toList = Path.walk [] q.toList := by
    rw [Path.segments, if_pos h]
  rw [toList_resolve, hsegments]
  exact Path.length_ofSegments_walk_le h

/-- A path is the normal form of another: absolute, without a slash at its end unless it is the
root, with the same place, and not changed by normalizing. -/
structure IsNormalForm (here : Place) (p q : String) : Prop where
  nonempty : q ≠ ""
  absolute : Path.isAbsolute q.toList = true
  ending : q ≠ "/" → q.toList.getLast? ≠ some '/'
  samePlace : here.resolve q = here.resolve p
  fixed : here.normalize q = q

theorem normalize_of_resolve_eq {q : String} (h : here.resolve q = here.resolve p) :
    here.normalize q = here.normalize p := by
  unfold normalize
  rw [h]

theorem normalize_eq (h : here.resolve p ≠ "/") :
    here.normalize p = String.ofList ((here.resolve p).toList.rdropWhile isSeparator) := by
  unfold normalize
  exact if_neg h

theorem normalize_eq_resolve (h : (here.resolve p).toList.getLast? ≠ some '\\') :
    here.normalize p = here.resolve p := by
  by_cases hroot : here.resolve p = "/"
  · unfold normalize
    exact if_pos hroot
  · have hslash := here.getLast?_resolve_ne_slash p hroot
    have hkeep : (here.resolve p).toList.rdropWhile isSeparator = (here.resolve p).toList := by
      rw [List.rdropWhile_eq_self_iff]
      intro hne
      rw [List.getLast?_eq_some_getLast hne] at h hslash
      simp only [ne_eq, Option.some.injEq] at h hslash
      simp [isSeparator, h, hslash]
    rw [here.normalize_eq p hroot, hkeep, String.ofList_toList]

theorem length_normalize_lt (h : (here.resolve p).toList.getLast? = some '\\') :
    (here.normalize p).toList.length < (here.resolve p).toList.length := by
  obtain ⟨front, hfront⟩ := List.getLast?_eq_some_iff.1 h
  have hroot : here.resolve p ≠ "/" := by
    intro hroot
    rw [hroot] at h
    exact absurd h (by decide)
  have hcut : (here.normalize p).toList <+: front := by
    rw [here.normalize_eq p hroot, String.toList_ofList, hfront,
      List.rdropWhile_concat_pos isSeparator front '\\' rfl]
    exact List.rdropWhile_prefix isSeparator front
  rw [hfront, List.length_append, List.length_singleton]
  exact Nat.lt_succ_of_le hcut.length_le

/-- Normalizing gives a normal form exactly if the absolute path does not end in a backslash. -/
theorem normalize_isNormalForm_iff (here : Place) (p : String) :
    here.IsNormalForm p (here.normalize p) ↔
      (here.resolve p).toList.getLast? ≠ some '\\' := by
  constructor
  · intro h hlast
    have hshort := here.length_normalize_lt p hlast
    have hlong := here.length_resolve_le h.absolute
    rw [h.samePlace] at hlong
    omega
  · intro h
    have heq := here.normalize_eq_resolve p h
    rw [heq]
    have habsolute := here.isAbsolute_resolve p
    refine ⟨?_, habsolute, here.getLast?_resolve_ne_slash p, here.resolve_resolve p, ?_⟩
    · intro hempty
      rw [hempty] at habsolute
      cases habsolute
    · rw [here.normalize_of_resolve_eq p (here.resolve_resolve p), heq]

def backslashPlace : Place := { workingDir := "/work", home := "/home/user" }

/-- Of a file below the root whose name is a backslash nothing is left, and a backslash at the end
of a longer name is lost: the result is no path, or that of another place. -/
theorem normalize_loses_backslash :
    (backslashPlace.resolve "/\\" = "/\\" ∧ backslashPlace.normalize "/\\" = "" ∧
      ¬ backslashPlace.IsNormalForm "/\\" (backslashPlace.normalize "/\\")) ∧
    backslashPlace.resolve "a\\" = "/work/a\\" ∧ backslashPlace.normalize "a\\" = "/work/a" := by
  have hempty : backslashPlace.normalize "/\\" = "" := by decide +kernel
  refine ⟨⟨by decide +kernel, hempty, fun h => h.nonempty hempty⟩, ?_, ?_⟩ <;> decide +kernel

end Place
end Marginalia
