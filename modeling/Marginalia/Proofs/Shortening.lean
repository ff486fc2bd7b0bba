import Marginalia.Proofs.Containment

/-!
# Shortened paths

A path is shortened for messages: it is shown from a base if it lies in that base,
or else from the home directory if it lies there, with a tilde in its place. The
shortened path still leads to the place of the whole one, read from the base in the
first case and with the tilde expanded in the others.
-/

namespace Marginalia

theorem Text.startsWith_append (start rest : String) : startsWith start (start ++ rest) = true := by
  rw [startsWith, String.toList_append, List.isPrefixOf_iff_prefix]
  exact List.prefix_append _ _

namespace Path

theorem walk_of_isIdle {s : Segment} (h : isIdle s = true) (hslash : '/' ∉ s)
    (origin : List Segment) : walk origin s = origin := by
  rw [walk_eq_reverse_steps, steps_of_notMem hslash, step_of_isIdle h, List.reverse_reverse]

theorem walk_slash (origin : List Segment) (p : List Char) :
    walk origin ('/' :: p) = walk origin p := by
  have hsplit := walk_append_slash origin [] p
  rwa [List.nil_append, walk_nil_right] at hsplit

theorem segments_join_slash (workingDir : List Char) {a : String} (ha : a ≠ "") {b : String}
    {rest : List Char} (hb : b.toList = '/' :: rest) :
    segments workingDir (join a b).toList = walk (segments workingDir a.toList) rest := by
  have hb' : b ≠ "" := by
    rintro rfl
    cases hb
  rw [join, if_neg (by simpa using ha), if_neg (by simpa using hb'), String.toList_ofList,
    segments_tidy, segments_append_slash workingDir (by simpa using ha), hb, walk_slash]

end Path

namespace Place

open Marginalia.Path

variable {here : Place} {base : Option String} {p d : String}

/-- A path as it is shown in messages, about a base if there is one. -/
def shown (here : Place) (base : Option String) (p : String) : String :=
  base.elim (here.display p) (here.displayFrom · p)

/-- Whether a path lies in a directory, by the names of the two. -/
def LiesIn (here : Place) (p d : String) : Prop :=
  names (here.normalize d) <+: names (here.normalize p)

theorem liesIn_iff (hw : NoBackslash here.workingDir) (hp : NoBackslash p) (hd : NoBackslash d) :
    here.LiesIn p d ↔ here.isWithin p d = true := by
  rw [LiesIn, names_normalize hw hd, names_normalize hw hp, isWithin_iff_isPrefix hw hp hd]

/-- The ways to show a path. An empty base is none. -/
theorem shown_cases (here : Place) (base : Option String) (hp : p ≠ "") :
    (∃ b ∈ base, b ≠ "" ∧ here.isWithin p b = true ∧
      here.shown base p = "./" ++ here.relativeTo p b) ∨
    here.isWithin p here.home = true ∧ here.shown base p = "~/" ++ here.relativeTo p here.home ∨
    here.isWithin p here.home = false ∧ here.shown base p = slashed (here.normalize p) := by
  have hdisplay : here.isWithin p here.home = true ∧
        here.display p = "~/" ++ here.relativeTo p here.home ∨
      here.isWithin p here.home = false ∧ here.display p = slashed (here.normalize p) := by
    cases h : here.isWithin p here.home <;> simp [display, hp, h]
  cases base with
  | none => exact .inr hdisplay
  | some b =>
    by_cases hb : b ≠ "" ∧ here.isWithin p b = true
    · exact .inl ⟨b, rfl, hb.1, hb.2, by simp [shown, displayFrom, hp, hb]⟩
    · have hshown : here.shown (some b) p = here.display p := by
        simp only [shown, Option.elim_some, displayFrom]
        exact if_neg (by simpa [hp] using hb)
      rw [hshown]
      exact .inr hdisplay

theorem resolveFrom_shown {b : String} (hw : NoBackslash here.workingDir) (hp : NoBackslash p)
    (hb : NoBackslash b) : here.resolveFrom b ("./" ++ here.relativeTo p b) = here.normalize p := by
  have hlist : ("./" ++ here.relativeTo p b).toList =
      ['.'] ++ '/' :: (here.relativeTo p b).toList := String.toList_append
  rw [resolveFrom_of_relative b (by rw [hlist]; rfl), hlist, walk_append_slash,
    walk_of_isIdle (s := ['.']) rfl (by decide), walk_relativeTo hw hp hb,
    normalize_of_noBackslash hw hp]
  rfl

theorem normalize_expandTilde_home (hw : NoBackslash here.workingDir) (hp : NoBackslash p)
    (hh : NoBackslash here.home) (hhome : here.home ≠ "") :
    here.normalize (here.expandTilde ("~/" ++ here.relativeTo p here.home)) =
      here.normalize p := by
  have hlist : ("~/" ++ here.relativeTo p here.home).toList =
      '~' :: '/' :: (here.relativeTo p here.home).toList := String.toList_append
  have hexpand : here.expandTilde ("~/" ++ here.relativeTo p here.home) =
      Path.join here.home (Text.dropFirst 1 ("~/" ++ here.relativeTo p here.home)) := by
    rw [expandTilde, if_pos]
    rw [Text.startsWith, hlist]
    rfl
  have hrest : (Text.dropFirst 1 ("~/" ++ here.relativeTo p here.home)).toList =
      '/' :: (here.relativeTo p here.home).toList := by
    rw [Text.dropFirst, String.toList_ofList, hlist]
    rfl
  apply normalize_eq_of_keyOf
  rw [hexpand, keyOf, segments_join_slash _ hhome hrest]
  exact walk_relativeTo hw hp hh

theorem slashed_normalize (hw : NoBackslash here.workingDir) (hp : NoBackslash p) :
    slashed (here.normalize p) = here.resolve p := by
  rw [normalize_of_noBackslash hw hp, slashed_of_noBackslash (noBackslash_resolve hw hp)]

theorem startsWith_resolve {start : String} {c : Char} {rest : List Char}
    (hstart : start.toList = c :: rest) (hc : c ≠ '/') :
    Text.startsWith start (here.resolve p) = false := by
  rw [Text.startsWith, hstart, toList_resolve, ofSegments, List.isPrefixOf_cons_cons]
  simp [hc]

theorem normalize_expandTilde_resolve (here : Place) (p : String) :
    here.normalize (here.expandTilde (here.resolve p)) = here.normalize p := by
  rw [expandTilde, startsWith_resolve (c := '~') rfl (by decide)]
  exact here.normalize_of_resolve_eq p (here.resolve_resolve p)

/-- Of a path in the home directory the names below it are shown. -/
theorem exists_below_of_liesIn (hw : NoBackslash here.workingDir) (hp : NoBackslash p)
    (hd : NoBackslash d) (h : here.LiesIn p d) :
    ∃ below, names (here.normalize p) = names (here.normalize d) ++ below ∧
      here.relativeTo p d = String.ofList (['/'].intercalate below) := by
  obtain ⟨below, hbelow⟩ := h
  refine ⟨below, hbelow.symm, ?_⟩
  rw [← String.ofList_toList (s := here.relativeTo p d), toList_relativeTo hw hp hd,
    ← names_normalize hw hp, ← names_normalize hw hd, ← hbelow, difference_append]

/-- A shortened path leads to the place of the whole one: from the base if it begins with a dot,
else with its tilde expanded. Where a path lies in the home directory and in no base, only the
names below the home directory are shown, after a tilde. -/
theorem shown_denotes (here : Place) (base : Option String) (p : String) (hne : p ≠ "")
    (hw : NoBackslash here.workingDir) (hh : NoBackslash here.home)
    (hhome : isAbsolute here.home.toList = true) (hp : NoBackslash p)
    (hbase : ∀ b ∈ base, NoBackslash b) :
    (Text.startsWith "./" (here.shown base p) = true →
      ∃ b ∈ base, here.resolveFrom b (here.shown base p) = here.normalize p) ∧
    (Text.startsWith "./" (here.shown base p) = false →
      here.normalize (here.expandTilde (here.shown base p)) = here.normalize p) ∧
    (here.LiesIn p here.home → (∀ b ∈ base, b ≠ "" → ¬ here.LiesIn p b) →
      ∃ below, names (here.normalize p) = names (here.normalize here.home) ++ below ∧
        here.shown base p = "~/" ++ String.ofList (['/'].intercalate below)) := by
  have hhome' : here.home ≠ "" := by
    intro h
    rw [h] at hhome
    cases hhome
  obtain ⟨b, hb, hb', hwithin, heq⟩ | ⟨-, heq⟩ | ⟨hwithin, heq⟩ := here.shown_cases base hne
  · have hin : here.LiesIn p b := (liesIn_iff hw hp (hbase b hb)).2 hwithin
    rw [heq]
    refine ⟨fun _ => ⟨b, hb, resolveFrom_shown hw hp (hbase b hb)⟩, fun hdot => ?_,
      fun _ hout => absurd hin (hout b hb hb')⟩
    rw [Text.startsWith_append] at hdot
    cases hdot
  · rw [heq]
    refine ⟨fun hdot => ?_, fun _ => normalize_expandTilde_home hw hp hh hhome', fun hin _ => ?_⟩
    · rw [Text.startsWith, String.toList_append] at hdot
      cases hdot
    · obtain ⟨below, hnames, hbelow⟩ := exists_below_of_liesIn hw hp hh hin
      exact ⟨below, hnames, by rw [hbelow]⟩
  · rw [heq, slashed_normalize hw hp]
    refine ⟨fun hdot => ?_, fun _ => here.normalize_expandTilde_resolve p, fun hin _ => ?_⟩
    · rw [startsWith_resolve (c := '.') rfl (by decide)] at hdot
      cases hdot
    · rw [liesIn_iff hw hp hh, hwithin] at hin
      cases hin

/-- In a base that is itself in the home directory: a path in the base, and one beside it. -/
theorem shown_denotes_nested :
    let base := some "./"
    (NoBackslash cratePlace.workingDir ∧ NoBackslash cratePlace.home ∧
      isAbsolute cratePlace.home.toList = true ∧ NoBackslash "src//lib.rs" ∧
      NoBackslash "../notes/~a.rs" ∧ ∀ b ∈ base, NoBackslash b) ∧
    cratePlace.shown base "src//lib.rs" = "./src/lib.rs" ∧
    (∃ b ∈ base, cratePlace.resolveFrom b "./src/lib.rs" = cratePlace.normalize "src//lib.rs") ∧
    cratePlace.shown base "../notes/~a.rs" = "~/notes/~a.rs" ∧
    cratePlace.normalize (cratePlace.expandTilde "~/notes/~a.rs") =
      cratePlace.normalize "../notes/~a.rs" := by
  have hplain : NoBackslash cratePlace.workingDir ∧ NoBackslash cratePlace.home ∧
      isAbsolute cratePlace.home.toList = true ∧ NoBackslash "src//lib.rs" ∧
      NoBackslash "../notes/~a.rs" ∧ ∀ b ∈ some "./", NoBackslash b := by
    decide
  obtain ⟨hw, hh, hhome, hlib, hnotes, hbase⟩ := hplain
  have hin : cratePlace.shown (some "./") "src//lib.rs" = "./src/lib.rs" := by decide +kernel
  have hbeside : cratePlace.shown (some "./") "../notes/~a.rs" = "~/notes/~a.rs" := by
    decide +kernel
  have hfirst :=
    shown_denotes cratePlace (some "./") "src//lib.rs" (by decide) hw hh hhome hlib hbase
  have hsecond :=
    shown_denotes cratePlace (some "./") "../notes/~a.rs" (by decide) hw hh hhome hnotes hbase
  rw [hin] at hfirst
  rw [hbeside] at hsecond
  exact ⟨⟨hw, hh, hhome, hlib, hnotes, hbase⟩, hin, hfirst.1 (by decide), hbeside,
    hsecond.2.1 (by decide)⟩

end Place
end Marginalia
